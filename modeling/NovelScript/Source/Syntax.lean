import NovelScript.Bytes
import NovelScript.Number.Binary64
import NovelScript.Text.Wording

/-!
# The source language

Scripts are written in an indented block language. A source text is a list of statements; commands
are calls, texts are statements of their own, and variables carry their type as a suffix.

The language has more expressions and statements than scripts can use: what has no meaning in a
script is still read, and named in the message that refuses it.
-/

namespace NovelScript

/-- Constants. -/
inductive Constant where
  | none
  | ellipsis
  | bool (value : Bool)
  | int (value : Int)
  | float (value : Binary64)
  | imaginary (value : Binary64)
  /-- A text, and whether it is written with the letter `u` before it, which means nothing. -/
  | text (value : Wording) (marked : Bool := false)
  | bytes (value : Bytes)
  deriving DecidableEq

inductive BinaryOp where
  | add | sub | mul | matMul | div | mod | floorDiv | pow
  | shiftLeft | shiftRight | bitAnd | bitOr | bitXor
  deriving DecidableEq

inductive UnaryOp where
  | plus | minus | invert | not
  deriving DecidableEq

inductive LogicOp where
  | and | or
  deriving DecidableEq

inductive CompareOp where
  | lt | le | gt | ge | eq | ne | same | notSame | member | notMember
  deriving DecidableEq

/-- Expressions. -/
inductive Expr where
  | const (value : Constant)
  | name (id : String)
  | attribute (base : Expr) (name : String)
  /-- A call. A keyword without a name spreads its value. -/
  | call (function : Expr) (arguments : List Expr) (keywords : List (Option String × Expr))
  | subscript (base index : Expr)
  | unary (op : UnaryOp) (operand : Expr)
  | binary (left : Expr) (op : BinaryOp) (right : Expr)
  | compare (left : Expr) (rest : List (CompareOp × Expr))
  | logic (op : LogicOp) (operands : List Expr)
  | conditional (test body elseBody : Expr)
  | lambda (body : Expr)
  | tuple (items : List Expr)
  | list (items : List Expr)
  | set (items : List Expr)
  | mapping (items : List (Expr × Expr))
  | yield (value : Option Expr)

/-- A statement, with the line that it starts on. -/
inductive Stmt where
  | pass (line : Nat)
  | expression (line : Nat) (value : Expr)
  | assign (line : Nat) (targets : List Expr) (value : Expr)
  | augment (line : Nat) (target : Expr) (op : BinaryOp) (value : Expr)
  | branch (line : Nat) (test : Expr) (body elseBody : List Stmt)
  | loop (line : Nat) (test : Expr) (body elseBody : List Stmt)
  /-- A block under one or more contexts, each of which may be bound. -/
  | context (line : Nat) (items : List (Expr × Option Expr)) (body : List Stmt)
  | iterate (line : Nat) (target source : Expr) (body elseBody : List Stmt)
  | leave (line : Nat) (value : Option Expr)
  | stop (line : Nat)
  | next (line : Nat)
  | delete (line : Nat) (targets : List Expr)

/-- The line of a statement. -/
def Stmt.line : Stmt → Nat
  | pass l | expression l _ | assign l _ _ | augment l _ _ _ | branch l _ _ _ | loop l _ _ _
  | context l _ _ | iterate l _ _ _ _ | leave l _ | stop l | next l | delete l _ => l

namespace Expr

abbrev int (n : Int) : Expr := .const (.int n)

abbrev text (w : Wording) : Expr := .const (.text w)

end Expr

end NovelScript
