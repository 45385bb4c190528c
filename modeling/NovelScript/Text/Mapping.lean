import NovelScript.Text.Ranges

/-!
# Mappings of characters

A mapping sends characters to characters, or to several. It is written in words, in which the
characters are counted like ranges: `C0:41,300` sends one character to two, and `F0:A|B,C` does so
for characters one after another, the first to one and the second to two; `F0=hb` does so with the
characters themselves. `41+19:61` sends a row of characters to another row, and `100+2E/2:101` does
so for every second character of the row.
-/

namespace NovelScript.Text

/-- A range of points with their targets. -/
structure MappedRow where
  first : Nat
  last : Nat
  step : Nat
  targets : List Nat
  deriving DecidableEq

abbrev Mapping := List MappedRow

namespace Mapping

/-- The rows that a word in numbers stands for, counted from a number on. -/
def ofNumbers (start : Nat) (word : List Char) : List MappedRow :=
  match partsAt ':' word with
  | [source, targets] =>
    let (row, step) := match partsAt '/' source with
      | [row, step] => (row, hexNumber step)
      | _ => (source, 1)
    let (first, last) := Ranges.ofWord start row
    (partsAt '|' targets).zipIdx.map fun (targets, i) =>
      ⟨first + i, last + i, step, (partsAt ',' targets).map hexNumber⟩
  | _ => []

def ofWord (start : Nat) (word : List Char) : List MappedRow :=
  match partsAt '=' word with
  | [distance, targets] =>
    let first := start + hexNumber distance
    targets.zipIdx.map fun (target, i) => ⟨first + i, first + i, 1, [target.toNat]⟩
  | _ => ofNumbers start word

def ofWords (start : Nat) : List (List Char) → Mapping
  | [] => []
  | word :: rest =>
    let rows := ofWord start word
    rows ++ ofWords ((rows.getLast?.map fun row => row.last + 1).getD start) rest

def ofLines (lines : List String) : Mapping :=
  ofWords 0 (lines.flatMap fun line => partsAt ' ' line.toList)

/-- Where a row sends a character of its own. A row with one target goes along with it. -/
def rowTargets (row : MappedRow) (n : Nat) : List Nat :=
  match row.targets with
  | [target] => [target + (n - row.first)]
  | targets => targets

def find? : Mapping → Nat → Option (List Nat)
  | [], _ => none
  | row :: rest, n =>
    if n < row.first then none
    else if n ≤ row.last ∧ (n - row.first) % row.step = 0 then some (rowTargets row n)
    else find? rest n

end Mapping

end NovelScript.Text
