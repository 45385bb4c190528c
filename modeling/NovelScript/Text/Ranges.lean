import NovelScript.Text.Parts

/-!
# Ranges of characters

Properties of characters are given by ranges of their numbers. A range is written by its distance
from the end of the one before and the number of characters after its first, in hexadecimal: `41+19
4 1+19` are the capital letters, the underscore and the small letters.
-/

namespace NovelScript.Text

/-- Ranges of numbers, each by its first and its last, in ascending order. -/
abbrev Ranges := List (Nat × Nat)

def hexDigit (c : Char) : Nat :=
  if c.isDigit then c.toNat - '0'.toNat else c.toNat - 'A'.toNat + 10

def hexNumber (digits : List Char) : Nat := digits.foldl (fun n c => 16 * n + hexDigit c) 0

namespace Ranges

/-- A range by its distance from the last one. -/
def ofWord (start : Nat) (word : List Char) : Nat × Nat :=
  match partsAt '+' word with
  | [distance, more] => (start + hexNumber distance, start + hexNumber distance + hexNumber more)
  | _ => (start + hexNumber word, start + hexNumber word)

def ofWords (start : Nat) : List (List Char) → Ranges
  | [] => []
  | word :: rest =>
    let range := ofWord start word
    range :: ofWords (range.2 + 1) rest

def ofLines (lines : List String) : Ranges :=
  ofWords 0 (lines.flatMap fun line => partsAt ' ' line.toList)

/-- Whether a point is in a range. -/
def contains : Ranges → Nat → Bool
  | [], _ => false
  | (first, last) :: rest, n => if n < first then false else n ≤ last || contains rest n

def find? : Ranges → Nat → Option (Nat × Nat)
  | [], _ => none
  | (first, last) :: rest, n =>
    if n < first then none else if n ≤ last then some (first, last) else find? rest n

end Ranges

end NovelScript.Text
