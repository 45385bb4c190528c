import NovelScript.Fault

/-!
# Assignment operators

How the value of an argument is stored: plainly, or combined with the value that is there.
-/

namespace NovelScript

/-- How a value is assigned. -/
inductive Assignment where
  | set | add | sub | mul | div | mod | bitAnd | bitOr | bitXor
  deriving DecidableEq

namespace Assignment

def all : List Assignment := [set, add, sub, mul, div, mod, bitAnd, bitOr, bitXor]

def code : Assignment → Nat
  | set => 0
  | add => 1
  | sub => 2
  | mul => 3
  | div => 4
  | mod => 5
  | bitAnd => 6
  | bitOr => 7
  | bitXor => 8

def ofCode? (n : Nat) : Option Assignment := all[n]?

def label : Assignment → String
  | set => "EQL"
  | add => "ADD"
  | sub => "SUB"
  | mul => "MUL"
  | div => "DIV"
  | mod => "MOD"
  | bitAnd => "BAND"
  | bitOr => "BOR"
  | bitXor => "BXOR"

def symbol : Assignment → String
  | set => "="
  | add => "+="
  | sub => "-="
  | mul => "*="
  | div => "/="
  | mod => "%="
  | bitAnd => "&="
  | bitOr => "|="
  | bitXor => "^="

end Assignment

end NovelScript
