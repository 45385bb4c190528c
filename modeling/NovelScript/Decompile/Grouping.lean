import NovelScript.Source.Printer

/-!
# Brackets for the engine's own precedences

The engine binds bit operators looser than comparisons. Where an operand binds looser than its
operator asks for, it is put in brackets: a call of the empty name, which prints as the brackets
alone.
-/

namespace NovelScript

/-- How loosely an expression binds; zero for what needs no brackets ever. -/
abbrev Looseness := Nat

namespace Looseness

def sign : Looseness := 2

def ofBinary : BinaryOp → Looseness
  | .add | .sub => 4
  | .bitAnd => 8
  | .bitXor => 9
  | .bitOr => 10
  | _ => 3

def ofCompare : CompareOp → Looseness
  | .eq | .ne => 7
  | _ => 6

def ofLogic : LogicOp → Looseness
  | .and => 11
  | .or => 12

end Looseness

namespace Expr

/-- An expression in brackets. -/
def inBrackets (e : Expr) : Expr := .call (.name "") [e] []

/-- A left operand: in brackets if it binds looser than the operator. -/
def leftOf (own : Looseness) : Looseness × Expr → Expr
  | (inner, e) => if own < inner then e.inBrackets else e

/-- A right operand: in brackets unless it binds tighter than the operator. -/
def rightOf (own : Looseness) : Looseness × Expr → Expr
  | (inner, e) => if own ≤ inner then e.inBrackets else e

mutual

/-- An expression with the brackets it needs, and how loosely it binds. -/
def grouped : Expr → Looseness × Expr
  | .call function arguments keywords => (0, .call function (groupedAll arguments) keywords)
  | .binary l op r =>
    let own := Looseness.ofBinary op
    (own, .binary (leftOf own l.grouped) op (rightOf own r.grouped))
  | .logic op [l, r] =>
    let own := Looseness.ofLogic op
    (own, .logic op [leftOf own l.grouped, rightOf own r.grouped])
  | .compare l [(op, r)] =>
    let own := Looseness.ofCompare op
    (own, .compare (leftOf own l.grouped) [(op, rightOf own r.grouped)])
  | .unary op e => (Looseness.sign, .unary op (rightOf Looseness.sign e.grouped))
  | e => (0, e)

def groupedAll : List Expr → List Expr
  | [] => []
  | e :: rest => e.grouped.2 :: groupedAll rest

end

end Expr

/-- Connectives as signs. -/
def engineConnectives (text : String) : String :=
  let s := replaceAll " and ".toList " && ".toList 0 text.toList
  String.ofList (replaceAll " or ".toList " || ".toList 0 s)

def Expr.engineSource (e : Expr) : String := engineConnectives e.grouped.2.source

end NovelScript
