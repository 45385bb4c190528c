import NovelScript.Compile.Names
import NovelScript.Instruction.Literal
import NovelScript.Script.Assignment

/-!
# Compiling expressions

An expression becomes the instructions that leave its value on the stack: operands first, then the
operator. Its type is found on the way. A missing value, written `None`, becomes nothing at all.
-/

namespace NovelScript

/-- Expressions are compiled with the names known so far, and may add to them. -/
abbrev Naming := StateT Names (Except Fault)

/-- Code with the type of its value. -/
structure Coded where
  type : ValueType
  code : List Instr
  deriving DecidableEq

/-! ## Operators -/

def BinaryOp.assignment? : BinaryOp → Option Assignment
  | .add => some .add
  | .sub => some .sub
  | .mul => some .mul
  | .div => some .div
  | .mod => some .mod
  | .bitAnd => some .bitAnd
  | .bitOr => some .bitOr
  | .bitXor => some .bitXor
  | _ => none

def BinaryOp.operator? : BinaryOp → Option Operator
  | .add => some .add
  | .sub => some .sub
  | .mul => some .mul
  | .div => some .div
  | .mod => some .mod
  | .bitAnd => some .bitAnd
  | .bitOr => some .bitOr
  | .bitXor => some .bitXor
  | _ => none

def LogicOp.operator : LogicOp → Operator
  | .and => .logicAnd
  | .or => .logicOr

def CompareOp.operator? : CompareOp → Option Operator
  | .lt => some .lt
  | .le => some .le
  | .gt => some .gt
  | .ge => some .ge
  | .eq => some .eq
  | .ne => some .ne
  | _ => none

/-! ## References -/

/-- How the suffix of a reference uses its variable: the mark, whether the variable is a number, and
the type of the result if it is not the variable's. -/
structure Suffix where
  mark : Mark
  isNumber : Bool
  result : Option ValueType

def Suffix.ofName? : String → Option Suffix
  | "N" => some ⟨.number, true, none⟩
  | "S" => some ⟨.text, false, none⟩
  | "AN" => some ⟨.numberAddress, true, some .int⟩
  | "AS" => some ⟨.textAddress, false, some .int⟩
  | "SN" => some ⟨.textAddress, true, some .text⟩
  | _ => none

/-- A variable by its name and suffix. -/
def compileReference (v : Vocabulary) (kind : Access) (base : Expr) (suffix : String) :
    Naming Coded :=
  match base with
  | .name name => do
    let (type, index) ← fun names => names.resolve v name
    let s ← orFault (Suffix.ofName? suffix)
      ((Expr.attribute base suffix).fault (Violation.unknownSuffix suffix))
    require ((type != .text) == s.isNumber) (Violation.suffixType name suffix type.label)
    return ⟨s.result.getD type, [.access kind s.mark index]⟩
  | _ => throw ((Expr.attribute base suffix).fault Violation.meaningless)

/-! ## Expressions -/

/-- A constant. -/
def Constant.compile (c : Constant) : Except Fault Coded :=
  match c with
  | .int n => .ok ⟨.int, [.ofInt n]⟩
  | .bool b => .ok ⟨.int, [.ofInt (if b then 1 else 0)]⟩
  | .float x => .ok ⟨.float, [.float x]⟩
  | .text s _ => do return ⟨.text, [.text (← Literal.quote s)]⟩
  | .none => .ok ⟨.int, []⟩
  | _ => .error ((Expr.const c).fault Violation.unsupportedLiteral)

/-- The whole number that a constant stands for. -/
def Constant.whole? : Constant → Option Int
  | .int n => some n
  | .bool b => some (if b then 1 else 0)
  | _ => .none

/-- A conversion between numbers and texts. -/
def compileConversion (function : String) (call : Expr) (e : Coded) : Except Fault Coded :=
  match function with
  | "str" => do
    require (e.type != .text) (call.fault Violation.alreadyText)
    return ⟨.text, e.code ++ [.op .toText]⟩
  | "int" => do
    require (e.type == .text) (call.fault Violation.alreadyNumber)
    return ⟨.int, e.code ++ [.op .toInt]⟩
  | _ => .error (call.fault Violation.unknownConversion)

/-- An operator behind its operands. -/
def compileBinary (op : BinaryOp) (whole : Expr) (l r : Coded) : Except Fault Coded := do
  let o ← orFault op.operator? (Violation.unknownOperator op.symbol)
  let code := l.code ++ r.code ++ [.op o]
  match l.type, r.type with
  | .text, .text => return ⟨.text, code⟩
  | .text, _ | _, .text => .error (whole.fault Violation.textWithNumber)
  | .float, _ | _, .float => return ⟨.float, code⟩
  | _, _ => return ⟨.int, code⟩

/-- A sign behind its operand. -/
def compileUnary (op : UnaryOp) (whole : Expr) (e : Coded) : Except Fault Coded := do
  require (e.type != .text) (whole.fault Violation.signOfText)
  match op with
  | .plus => return e
  | .minus => return ⟨e.type, e.code ++ [.op .neg]⟩
  | _ => .error (whole.fault Violation.unknownSign)

/-- The whole number after a minus sign, if that is all. -/
def negated? : UnaryOp → Expr → Option Int
  | .minus, .const c => c.whole?.map fun n => -n
  | _, _ => none

/-- The instructions of an index list: the indexes are divided, and the last is closed. -/
def closeIndexes (indexes : List (List Instr)) : List Instr :=
  (List.intersperse [.op .nothing] indexes).flatten ++ [.op .indexEnd]

mutual

/-- Compiles an expression. -/
def Expr.compile (v : Vocabulary) : Expr → Naming Coded
  | .const c => c.compile
  | .attribute base suffix => compileReference v .value base suffix
  | .call (.attribute base suffix) [] _ => compileReference v .array base suffix
  | .call (.attribute base suffix) (first :: rest) _ => do
    let e ← compileReference v .element base suffix
    let i ← first.compile v
    require (i.type == .int) (first.fault Violation.indexType)
    let is ← compileIndexes v rest
    return ⟨e.type, e.code ++ closeIndexes (i.code :: is)⟩
  | .call (.name function) [argument] keywords => do
    let e ← argument.compile v
    compileConversion function (.call (.name function) [argument] keywords) e
  | .call (.name function) arguments keywords =>
    throw ((Expr.call (.name function) arguments keywords).fault Violation.conversionArity)
  | .logic op (first :: rest) => do
    let e ← first.compile v
    require (e.type == .int) (first.fault Violation.logicType)
    return ⟨.int, e.code ++ (← compileOperands v op.operator rest)⟩
  | .compare left rest => do
    let e ← left.compile v
    return ⟨.int, e.code ++ (← compileComparisons v rest)⟩
  | .binary left op right => do
    let l ← left.compile v
    let r ← right.compile v
    compileBinary op (.binary left op right) l r
  | .unary op operand =>
    match negated? op operand with
    | some n => return ⟨.int, [.ofInt n]⟩
    | none => do compileUnary op (.unary op operand) (← operand.compile v)
  | e => throw (e.fault Violation.meaningless)

/-- Compiles indexes. -/
def compileIndexes (v : Vocabulary) : List Expr → Naming (List (List Instr))
  | [] => return []
  | e :: rest => do
    let i ← e.compile v
    require (i.type == .int) (e.fault Violation.indexType)
    return i.code :: (← compileIndexes v rest)

/-- The instructions of further operands of a connective, each joined to what is before it. -/
def compileOperands (v : Vocabulary) (op : Operator) : List Expr → Naming (List Instr)
  | [] => return []
  | e :: rest => do
    let r ← e.compile v
    require (r.type == .int) (e.fault Violation.logicType)
    return r.code ++ [.op op] ++ (← compileOperands v op rest)

/-- Compiles a chain of comparisons. -/
def compileComparisons (v : Vocabulary) : List (CompareOp × Expr) → Naming (List Instr)
  | [] => return []
  | (op, e) :: rest => do
    let r ← e.compile v
    let o ← orFault op.operator? (Violation.unknownOperator op.symbol)
    return r.code ++ [.op o] ++ (← compileComparisons v rest)

end

end NovelScript
