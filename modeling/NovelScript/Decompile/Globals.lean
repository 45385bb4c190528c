import NovelScript.Decompile.Lines
import NovelScript.Decompile.Statements

/-!
# Decompiling declarations

The global variables of the variable table are declared in a text of their own, in the order of
their numbers. A value that a variable starts with anyway is left out.
-/

namespace NovelScript

/-- What scripts are shown as. -/
inductive Target where
  | blocks
  | listing
  deriving DecidableEq

namespace Decompiler

def initialText (d : Decompiler) (target : Target) (code : List Instr) : Except Fault String :=
  match target with
  | .blocks => do return (← d.expr [] code).source
  | .listing => d.exprText [] code

/-- The text of a value that a variable starts with, empty if it would start with it anyway. -/
def valueText (d : Decompiler) (target : Target) : Initial → Except Fault String
  | .int n => .ok (if n = 0 then "" else "=" ++ toString n)
  | .float x => .ok (if x.isZero then "" else "=" ++ x.text)
  | .text [] => .ok ""
  | .text code => do return "=" ++ (← d.initialText target code)

def dimsText (dims : List Int) : String :=
  if dims.isEmpty then "" else "(" ++ ",".intercalate (dims.map toString) ++ ")"

def declarationText (d : Decompiler) (target : Target) (n : NamedVariable) (init : Initial) :
    Except Fault String := do
  let value ← d.valueText target init
  let command := DeclarationCommand.name ⟨.global, n.entry.extension, init.type⟩
  let dims := dimsText n.entry.dims
  match target with
  | .blocks => return command ++ "[" ++ n.name ++ "." ++ init.type.suffix ++ dims ++ "]" ++ value
  | .listing =>
    let sign := if init.type == .text then Usage.text.symbol else Usage.number.symbol
    return command ++ "[" ++ sign ++ n.name ++ dims ++ value ++ "]"

/-- The declaration of a global variable. -/
def globalDeclaration? (d : Decompiler) (target : Target) :
    Option NamedVariable → Except Fault (Option String)
  | none => .ok none
  | some n =>
    if n.entry.number < firstUserNumber || n.entry.scope != .global then .ok none
    else
      match n.entry.init with
      | none => .ok none
      | some init => do return some (← d.declarationText target n init)

def declaresGlobals (version : Int) : Bool := 300 ≤ version || version == 290

/-- The declarations of all global variables. -/
def globalsText (d : Decompiler) (target : Target) : Except Fault (Option String) :=
  if declaresGlobals d.version then do
    let lines ← d.names.mapM (d.globalDeclaration? target)
    return some ("\n".intercalate lines.reduceOption)
  else .ok none

/-- The text of a script. -/
def scriptText (d : Decompiler) (target : Target) (number : Int) (script : Script) :
    Labelling String :=
  match target with
  | .blocks => d.blockSource number script
  | .listing => d.listingSource number script

end Decompiler

end NovelScript
