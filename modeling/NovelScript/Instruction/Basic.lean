import NovelScript.Bytes
import NovelScript.Number.Binary64
import NovelScript.Text.Wording

/-!
# Instructions of expressions

An expression is stored as a list of instructions for a stack: literals and variable accesses push,
operators take their operands from the stack. Every instruction starts with a word of three bytes.
-/

namespace NovelScript

/-- The types of values. -/
inductive ValueType where
  | unknown | int | float | text
  deriving DecidableEq, Inhabited

namespace ValueType

def code : ValueType → Nat
  | unknown => 0
  | int => 1
  | float => 2
  | text => 3

def ofCode? : Nat → Option ValueType
  | 0 => some unknown
  | 1 => some int
  | 2 => some float
  | 3 => some text
  | _ => none

def label : ValueType → String
  | unknown => "Unk"
  | int => "Int"
  | float => "Flt"
  | text => "Str"

def ofLabel? (label : String) : Option ValueType :=
  [unknown, int, float, text].find? fun t => t.label == label

end ValueType

/-- How an access uses its variable: as a number, as a text, or by the address of either. In old
versions the mark for the address of a text asks for a number as text instead. -/
inductive Mark where
  | textAddress | text | number | numberAddress
  deriving DecidableEq, Inhabited

namespace Mark

/-- The stored number of a mark, which is the character that stands for it. -/
def code : Mark → Nat
  | textAddress => 0x23
  | text => 0x24
  | number => 0x40
  | numberAddress => 0x60

def ofCode? (n : Nat) : Option Mark :=
  [textAddress, text, number, numberAddress].find? fun m => m.code == n

def label : Mark → String
  | textAddress => "X23"
  | text => "STR"
  | number => "NUM"
  | numberAddress => "X60"

end Mark

def ValueType.mark : ValueType → Mark
  | .text => .text
  | _ => .number

/-- What of a variable an access pushes: its value, the whole array, or an element whose indexes
follow up to the end of the index list. -/
inductive Access where
  | value | array | element
  deriving DecidableEq, Inhabited

namespace Access

def word : Access → Nat
  | value => 0x0348
  | array => 0x0376
  | element => 0x0356

def ofWord? (w : Nat) : Option Access :=
  [value, array, element].find? fun a => a.word == w

def label : Access → String
  | value => "VAR"
  | array => "ARR"
  | element => "IDXBEG"

end Access

/-- The operators. `nothing` divides the indexes of a list and `indexEnd` closes it. -/
inductive Operator where
  | indexEnd | nothing | toInt | toText | neg
  | mul | div | mod | add | sub
  | lt | le | gt | ge | eq | ne
  | bitAnd | bitOr | bitXor | logicAnd | logicOr
  deriving DecidableEq

namespace Operator

def all : List Operator :=
  [indexEnd, nothing, toInt, toText, neg, mul, div, mod, add, sub, lt, le, gt, ge, eq, ne,
   bitAnd, bitOr, bitXor, logicAnd, logicOr]

def word : Operator → Nat
  | indexEnd => 0x0129
  | nothing => 0x2C
  | toInt => 0x69
  | toText => 0x73
  | neg => 0x52
  | mul => 0x2A
  | div => 0x2F
  | mod => 0x25
  | add => 0x2B
  | sub => 0x2D
  | lt => 0x3C
  | le => 0x53
  | gt => 0x3E
  | ge => 0x5A
  | eq => 0x3D
  | ne => 0x21
  | bitAnd => 0x41
  | bitOr => 0x4F
  | bitXor => 0x5E
  | logicAnd => 0x26
  | logicOr => 0x7C

def ofWord? (w : Nat) : Option Operator :=
  all.find? fun o => o.word == w

def label : Operator → String
  | indexEnd => "IDXEND"
  | nothing => "NOP"
  | toInt => "TOI"
  | toText => "TOS"
  | neg => "NEG"
  | mul => "MUL"
  | div => "DIV"
  | mod => "MOD"
  | add => "ADD"
  | sub => "SUB"
  | lt => "LT"
  | le => "LE"
  | gt => "GT"
  | ge => "GE"
  | eq => "EQ"
  | ne => "NE"
  | bitAnd => "BAND"
  | bitOr => "BOR"
  | bitXor => "BXOR"
  | logicAnd => "LAND"
  | logicOr => "LOR"

end Operator

/-- How wide a number is stored. -/
inductive IntWidth where
  | w8 | w16 | w32 | w64
  deriving DecidableEq

namespace IntWidth

def size : IntWidth → Nat
  | w8 => 1
  | w16 => 2
  | w32 => 4
  | w64 => 8

def word : IntWidth → Nat
  | w8 => 0x0142
  | w16 => 0x0257
  | w32 => 0x0449
  | w64 => 0x084C

def ofWord? (w : Nat) : Option IntWidth :=
  [w8, w16, w32, w64].find? fun i => i.word == w

def label : IntWidth → String
  | w8 => "I8"
  | w16 => "I16"
  | w32 => "I32"
  | w64 => "I64"

/-- The narrowest width that holds a number, or the widest if none does. -/
def fitting (n : Int) : IntWidth :=
  if -0x80 ≤ n ∧ n ≤ 0x7F then w8
  else if -0x8000 ≤ n ∧ n ≤ 0x7FFF then w16
  else if -0x80000000 ≤ n ∧ n ≤ 0x7FFFFFFF then w32
  else w64

end IntWidth

def floatWord : Nat := 0x0846

/-- The low byte of the word of a text literal; the length of the text stands above it. -/
def textMark : Nat := 0x4D

/-- An instruction of an expression. -/
inductive Instr where
  | op (operator : Operator)
  | access (kind : Access) (mark : Mark) (index : Int)
  /-- A text literal, with its quotes. -/
  | text (literal : Wording)
  | raw (bytes : Bytes)
  | float (value : Binary64)
  | int (width : IntWidth) (value : Int)
  deriving DecidableEq

/-- A number in the narrowest width. -/
def Instr.ofInt (n : Int) : Instr := .int (IntWidth.fitting n) n

end NovelScript
