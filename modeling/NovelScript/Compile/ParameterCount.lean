import NovelScript.Text.Numeral

/-!
# Parameter counts

Some builds of the engine want to be told, with a call or a return, how many whole numbers, texts
and floats are passed. The three counts are packed into one number of 16 bits.
-/

namespace NovelScript

/-- How many parameters of each type a command has. -/
structure ParameterCount where
  ints : Nat := 0
  texts : Nat := 0
  floats : Nat := 0
  deriving DecidableEq

namespace ParameterCount

/-- What follows the last occurrence of `word`, if it occurs. -/
def afterLast? (word : List Char) : List Char → Option (List Char)
  | [] => if word.isEmpty then some [] else none
  | c :: rest =>
    match afterLast? word rest with
    | some tail => some tail
    | none => if word.isPrefixOf (c :: rest) then some ((c :: rest).drop word.length) else none

/-- The number after a type word, or one where no numeral stands. -/
def position (tail : List Char) : Except Fault Nat :=
  if Text.isNumeric (String.ofList tail) then Text.readNumeral (String.ofList tail) else .ok 1

/-- Counts one more keyword. A keyword names its type and the position among the parameters of that
type; a label is passed over. -/
def add (count : ParameterCount) (keyword : String) : Except Fault ParameterCount :=
  let letters := keyword.toList
  match afterLast? "INT".toList letters with
  | some tail => do
    let n ← position tail
    return { count with ints := max count.ints n }
  | none =>
    match afterLast? "STR".toList letters with
    | some tail => do
      let n ← position tail
      return { count with texts := max count.texts n }
    | none =>
      match afterLast? "FLT".toList letters with
      | some tail => do
        let n ← position tail
        return { count with floats := max count.floats n }
      | none => do
        require (keyword == "LBL") Condition.parameterName
        return count

def ofKeywords (keywords : List String) : Except Fault ParameterCount :=
  keywords.foldlM add {}

/-- The packed counts: the high bits of the float count lowest, then the counts of whole numbers and
of texts, then the two low bits of the float count. -/
def packed (count : ParameterCount) : Nat :=
  (count.floats % 4) * 16384 + count.texts * 512 + count.ints * 8 + count.floats / 4

end ParameterCount

end NovelScript
