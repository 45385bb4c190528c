import NovelScript.Instruction.Basic
import NovelScript.Number.Shortest
import NovelScript.Text.Quoted

/-!
# Instructions in listings

Listings show a named number as its family, its name and its value.
-/

namespace NovelScript

def namedNumber (family label : String) (value : Int) : String :=
  s!"<{family}.{label}: {value}>"

def ValueType.listing (type : ValueType) : String := namedNumber "Typ" type.label type.code

def Instr.listing : Instr → String
  | .op o => namedNumber "IOpB" o.label o.word
  | .access kind mark index =>
    "(" ++ namedNumber "IOpV" kind.label kind.word ++ ", " ++
      namedNumber "Tyq" mark.label mark.code ++ s!", {index})"
  | .text literal => Text.quotedWording literal
  | .raw bytes => Text.quotedBytes bytes
  | .float x => "(" ++ namedNumber "IOpA" "F64" floatWord ++ ", " ++ x.text ++ ")"
  | .int width n => "(" ++ namedNumber "IOpA" width.label width.word ++ s!", {n})"

def Instr.listAll (code : List Instr) : String := Text.bracketed (code.map Instr.listing)

end NovelScript
