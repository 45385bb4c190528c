/-!
# Positions and sizes

A position in a list may count from the end: the last item has the position minus one.
-/

namespace NovelScript

/-- A position, counted from the end if negative. -/
def position? (size : Nat) (n : Int) : Option Nat :=
  let i := if n < 0 then n + size else n
  if 0 ≤ i ∧ i < size then some i.toNat else none

/-- The item at such a position. -/
def itemAt? {α : Type} (items : List α) (n : Int) : Option α := do
  items[← position? items.length n]?

def total : List Nat → Nat
  | [] => 0
  | n :: rest => n + total rest

end NovelScript
