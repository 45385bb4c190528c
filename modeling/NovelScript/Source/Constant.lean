import NovelScript.Source.Message
import NovelScript.Source.Parser.Statement
import NovelScript.Source.Value

/-!
# Constant expressions

The values that declarations give are worked out before anything runs, from the written form of
their expressions. Operators, tuples and subscripts of constants are folded to constants first; what
is left must be a literal.
-/

namespace NovelScript

mutual

/-- The value of a constant expression. -/
def Expr.fold? : Expr → Option Value
  | .const c => some c.value
  | .unary op operand => do Value.unary op (← operand.fold?)
  | .binary left op right => do
    let v ← left.fold?
    let w ← right.fold?
    Value.binary op v w
  | .subscript base index => do
    let v ← base.fold?
    let w ← index.fold?
    Value.item v w
  | .tuple items => (foldAll? items).map Value.tuple
  | _ => none

def foldAll? : List Expr → Option (List Value)
  | [] => some []
  | e :: rest => do
    let v ← e.fold?
    let values ← foldAll? rest
    return v :: values

end

def requireKey (v : Value) : Except Fault Unit := require v.isKey Cause.notKey

/-- The value of a call. -/
def callValue : Expr → List Expr → List (Option String × Expr) → Except Fault Value
  | .name "set", [], [] => .ok .collection
  | _, _, _ => .error Cause.notLiteral

mutual

/-- The value of a literal, where `operation` says which operations are allowed and gives their
results. -/
def Expr.literal (operation : Expr → Except Fault Value) : Expr → Except Fault Value
  | .const c => .ok c.value
  | .tuple items => do return .tuple (← literals operation items)
  | .list items => do
    let _ ← literals operation items
    return .collection
  | .set items => do
    literalMembers operation items
    return .collection
  | .mapping items => do
    literalPairs operation items
    return .collection
  | .call function arguments keywords => callValue function arguments keywords
  | e => operation e

/-- The values of items. -/
def literals (operation : Expr → Except Fault Value) : List Expr → Except Fault (List Value)
  | [] => .ok []
  | e :: rest => do
    let v ← e.literal operation
    return v :: (← literals operation rest)

def literalMembers (operation : Expr → Except Fault Value) : List Expr → Except Fault Unit
  | [] => .ok ()
  | e :: rest => do
    requireKey (← e.literal operation)
    literalMembers operation rest

def literalPairs (operation : Expr → Except Fault Value) : List (Expr × Expr) → Except Fault Unit
  | [] => .ok ()
  | (key, value) :: rest => do
    let k ← key.literal operation
    let _ ← value.literal operation
    requireKey k
    literalPairs operation rest

end

/-- The sum or difference of a real and an imaginary number, which is a literal by itself. A whole
number may be out of range for it. -/
def complexLiteral (op : BinaryOp) (l r : Value) : Except Fault Value :=
  match op, l, r with
  | .add, .int _, .complex _ | .add, .float _, .complex _ => orFault (Value.add l r) Cause.overflow
  | .sub, .int _, .complex _ | .sub, .float _, .complex _ => orFault (Value.sub l r) Cause.overflow
  | _, _, _ => .error Cause.notLiteral

/-- The result of an operation. What does not fold is a literal only as a complex number. -/
def Expr.folded (e : Expr) : Except Fault Value :=
  match e.fold? with
  | some v => .ok v
  | none =>
    match e with
    | .binary left op right =>
      match left.fold?, right.fold? with
      | some l, some r => complexLiteral op l r
      | _, _ => .error Cause.notLiteral
    | _ => .error Cause.notLiteral

/-- The expression that the source of an expression is read as. A name may be written like a
reserved word, and then it is read as that word. -/
def Expr.reread (e : Expr) (source : String) : Except Fault Expr :=
  match e with
  | .const _ => .ok e
  | _ => Source.parseExpression source

/-- The value of a constant expression. A failure is noted with the expression. -/
def Expr.evaluate (e : Expr) : Except Fault Value := do
  let source ← e.written
  noting source do
    (← e.reread source).literal Expr.folded

/-! ## Plain literals -/

def Expr.number? : Expr → Option Value
  | .const (.int n) => some (.int n)
  | .const (.float x) => some (.float x)
  | .const (.imaginary x) => some (.complex ⟨Binary64.zero, x⟩)
  | _ => none

def Expr.signedNumber? : Expr → Option Value
  | .unary .plus e => do Value.unary .plus (← e.number?)
  | .unary .minus e => do Value.unary .minus (← e.number?)
  | e => e.number?

/-- The operations of plain literals: signs of numbers, and sums of a real and an imaginary
number. -/
def Expr.plainOperation : Expr → Except Fault Value
  | .binary left op right =>
    match left.signedNumber?, right.number? with
    | some l, some r => complexLiteral op l r
    | _, _ => .error Cause.notLiteral
  | e => orFault e.signedNumber? Cause.notLiteral

/-- The value of a literal. -/
def Expr.plainValue (e : Expr) : Except Fault Value := e.literal Expr.plainOperation

end NovelScript
