import NovelScript.Decompile.Variables
import NovelScript.Instruction.Literal
import NovelScript.Source.Syntax

/-!
# Decompiling expressions

The instructions of an expression are run on a stack of expressions: literals and accesses push,
operators take their operands and push what they make of them. An index list starts with a marker
below its array; its end takes everything above the marker.

Operators with two operands put up with an empty stack, and write the missing operand as the dialect
says.
-/

namespace NovelScript

/-! ## References -/

/-- How a variable is used. -/
inductive Usage where
  | number | text | numberAddress | textAddress
  | numberText
  deriving DecidableEq

namespace Usage

def symbol : Usage → String
  | number => "@"
  | text => "$"
  | numberAddress => "&@"
  | textAddress => "&$"
  | numberText => "$@"

def suffix : Usage → String
  | number => "N"
  | text => "S"
  | numberAddress => "AN"
  | textAddress => "AS"
  | numberText => "SN"

def usesText : Usage → Bool
  | text | textAddress => true
  | number | numberAddress | numberText => false

/-- The usage of a mark. The mark for the address of a text means a number as text before version
300. -/
def ofMark (version : Int) : Mark → Usage
  | .number => number
  | .text => text
  | .numberAddress => numberAddress
  | .textAddress => if 300 ≤ version then textAddress else numberText

end Usage

/-! ## Dialects -/

/-- How expressions are shown. -/
structure Dialect where
  reference : Usage → String → Expr
  literal : Wording → Except Fault Expr
  toInt : Expr
  toText : Expr
  missing : Expr

/-- A text by what it says. -/
def contentOf (literal : Wording) : Except Fault Expr := do
  return .const (.text (← Literal.unquote literal))

/-- A text as it is written. -/
def asWritten (literal : Wording) : Except Fault Expr := .ok (.name literal.shown)

def Dialect.blocks : Dialect where
  reference usage name := .attribute (.name name) usage.suffix
  literal := contentOf
  toInt := .name "int"
  toText := .name "str"
  missing := .const .none

def Dialect.listing : Dialect where
  reference usage name := .name (usage.symbol ++ name)
  literal := asWritten
  toInt := .name "@"
  toText := .name "$"
  missing := .name ""

/-! ## The stack -/

/-- The operands, innermost first. Nothing in place of an expression marks the start of an index
list. -/
abbrev Stack := List (Option Expr)

namespace Stack

def pop : Stack → Except Fault (Expr × Stack)
  | [] => .error Cause.emptyStack
  | none :: _ => .error Condition.operandPresent
  | some e :: rest => .ok (e, rest)

def popOr (missing : Expr) : Stack → Except Fault (Expr × Stack)
  | [] => .ok (missing, [])
  | none :: _ => .error Condition.operandPresent
  | some e :: rest => .ok (e, rest)

/-- What is above the innermost marker, outermost first, and what is below it. -/
def popIndexes (taken : List Expr) : Stack → Except Fault (List Expr × Stack)
  | [] => .error Cause.emptyStack
  | none :: rest => .ok (taken, rest)
  | some e :: rest => popIndexes (e :: taken) rest

end Stack

/-- Two operands joined by an operator. -/
def joined (op : Operator) (l r : Expr) : Expr :=
  match op with
  | .mul => .binary l .mul r
  | .div => .binary l .div r
  | .mod => .binary l .mod r
  | .add => .binary l .add r
  | .sub => .binary l .sub r
  | .bitAnd => .binary l .bitAnd r
  | .bitOr => .binary l .bitOr r
  | .bitXor => .binary l .bitXor r
  | .logicAnd => .logic .and [l, r]
  | .logicOr => .logic .or [l, r]
  | .lt => .compare l [(.lt, r)]
  | .le => .compare l [(.le, r)]
  | .gt => .compare l [(.gt, r)]
  | .ge => .compare l [(.ge, r)]
  | .ne => .compare l [(.ne, r)]
  | _ => .compare l [(.eq, r)]

structure ReadingContext where
  version : Int
  names : VariableNames
  locals : Temporaries

/-- The reference to a variable. The variable must be of the type that the mark asks for. -/
def ReadingContext.reference (c : ReadingContext) (d : Dialect) (mark : Mark) (index : Int) :
    Except Fault Expr := do
  let (name, type) ← variableAt c.names c.locals index
  let usage := Usage.ofMark c.version mark
  require (usage.usesText == (type == .text))
    (Violation.markType usage.symbol index (if type == .text then "$" else "@"))
  return d.reference usage name

namespace Stack

/-- The effect of an operator. -/
def apply (d : Dialect) (stack : Stack) (op : Operator) : Except Fault Stack :=
  match op with
  | .nothing => .ok stack
  | .indexEnd => do
    let (taken, rest) ← stack.popIndexes []
    match taken with
    | base :: first :: others => return some (.call base (first :: others) []) :: rest
    | _ => .error Condition.indexPresent
  | .toInt => do
    let (e, rest) ← stack.pop
    return some (.call d.toInt [e] []) :: rest
  | .toText => do
    let (e, rest) ← stack.pop
    return some (.call d.toText [e] []) :: rest
  | .neg => do
    let (e, rest) ← stack.pop
    return some (.unary .minus e) :: rest
  | op => do
    let (r, rest) ← stack.popOr d.missing
    let (l, rest) ← rest.popOr d.missing
    return some (joined op l r) :: rest

/-- The effect of an instruction. -/
def step (c : ReadingContext) (d : Dialect) (stack : Stack) (i : Instr) : Except Fault Stack :=
  match i with
  | .raw _ => .error Condition.decodedOperand
  | .text literal => do return some (← d.literal literal) :: stack
  | .int _ n => .ok (some (.const (.int n)) :: stack)
  | .float x => .ok (some (.const (.float x)) :: stack)
  | .access .value mark index => do return some (← c.reference d mark index) :: stack
  | .access .array mark index => do return some (.call (← c.reference d mark index) [] []) :: stack
  | .access .element mark index => do return some (← c.reference d mark index) :: none :: stack
  | .op o => stack.apply d o

end Stack

/-- The expression of code. -/
def decompileExpr (c : ReadingContext) (d : Dialect) (code : List Instr) : Except Fault Expr := do
  match ← code.foldlM (Stack.step c d) [] with
  | [some e] => return e
  | _ => .error Condition.oneResult

end NovelScript
