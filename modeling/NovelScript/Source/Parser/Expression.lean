import NovelScript.Source.Parser.Basic
import NovelScript.Source.Syntax

/-!
# Parsing expressions

One function for each level of the grammar, from the loosest operators to the tightest. Each takes
the parser for the expressions inside brackets, and `expression` ties the knot: its argument counts
how deep brackets may still be nested, and bounds the repetitions.
-/

namespace NovelScript.Source

open NovelScript.Source.Parser

/-! ## Atoms -/

def moreTexts (bound : Nat) : Parser (List Wording) :=
  many (do
    match (← next).token with
    | .text s _ => pure s
    | _ => failure) bound

def moreBytes (bound : Nat) : Parser (List Bytes) :=
  many (do
    match (← next).token with
    | .bytes b => pure b
    | _ => failure) bound

def noText : Parser Unit := fun tokens =>
  match tokens with
  | ⟨.text _ _, _⟩ :: _ => none
  | ⟨.bytes _, _⟩ :: _ => none
  | _ => some ((), tokens)

/-- Expressions with commas between them. -/
def expressionList (expr : Parser Expr) (bound : Nat) : Parser Expr := do
  match ← commaList expr bound with
  | ([item], false) => pure item
  | (items, _) => pure (.tuple items)

def yieldExpr (expr : Parser Expr) (bound : Nat) : Parser Expr := do
  word "yield"
  return .yield (← maybe (expressionList expr bound))

/-- What stands in round brackets: a `yield`, an expression or a tuple. -/
def parenthesized (expr : Parser Expr) (bound : Nat) : Parser Expr :=
  (do sign ")"; return .tuple []) <|>
  (do
    let value ← yieldExpr expr bound
    sign ")"
    return value) <|>
  (do
    let value ← expressionList expr bound
    sign ")"
    return value)

def mappingItem (expr : Parser Expr) : Parser (Expr × Expr) := do
  let key ← expr
  sign ":"
  return (key, ← expr)

/-- The items behind the first one, and the closing curly bracket. -/
def bracedRest {α : Type} (item : Parser α) (bound : Nat) : Parser (List α) := do
  let items ← many (do sign ","; item) bound
  let _ ← maybe (sign ",")
  sign "\x7d"
  return items

/-- What stands in curly brackets: keys with values, or members. What follows the first expression
tells which. -/
def braced (expr : Parser Expr) (bound : Nat) : Parser Expr :=
  (do sign "\x7d"; return .mapping []) <|>
  (do
    let first ← expr
    match ← maybe (sign ":") with
    | some () =>
      let value ← expr
      return .mapping ((first, value) :: (← bracedRest (mappingItem expr) bound))
    | none => return .set (first :: (← bracedRest expr bound)))

/-- The smallest expressions. -/
def atom (expr : Parser Expr) (bound : Nat) : Parser Expr := do
  match (← next).token with
  | .name id => pure (.name id)
  | .word "True" => pure (.const (.bool true))
  | .word "False" => pure (.const (.bool false))
  | .word "None" => pure (.const .none)
  | .int n => pure (.const (.int n))
  | .float x => pure (.const (.float x))
  | .imaginary x => pure (.const (.imaginary x))
  | .text s marked => do
    let rest ← moreTexts bound
    noText
    pure (.const (.text (.join (s :: rest)) marked))
  | .bytes b => do
    let rest ← moreBytes bound
    noText
    pure (.const (.bytes (b :: rest).flatten))
  | .sign "..." => pure (.const .ellipsis)
  | .sign "(" => parenthesized expr bound
  | .sign "[" => do return .list (← commaListUntil expr "]" bound)
  | .sign "\x7b" => braced expr bound
  | _ => failure

/-! ## Calls, attributes and subscripts -/

/-- An argument of a call. -/
inductive CallArgument where
  | positional (value : Expr)
  | keyword (name : Option String) (value : Expr)

def callArgument (expr : Parser Expr) : Parser CallArgument := do
  if startsKeyword (← get) then
    let id ← name
    sign "="
    return .keyword (some id) (← expr)
  else
    (do
      sign "**"
      return .keyword none (← expr)) <|>
    (do return .positional (← expr))

/-- Divides the arguments of a call. Those by position come first. -/
def divideArguments : List CallArgument → Option (List Expr × List (Option String × Expr))
  | [] => some ([], [])
  | .positional value :: rest =>
    (divideArguments rest).map fun (values, keywords) => (value :: values, keywords)
  | .keyword name value :: rest => do
    match ← divideArguments rest with
    | ([], keywords) => some ([], (name, value) :: keywords)
    | _ => none

/-- What follows a primary expression. -/
def trailer (expr : Parser Expr) (bound : Nat) : Parser (Expr → Expr) := do
  match (← next).token with
  | .sign "." => do
    let id ← name
    pure fun base => .attribute base id
  | .sign "(" => do
    match divideArguments (← commaListUntil (callArgument expr) ")" bound) with
    | some (values, keywords) => pure fun base => .call base values keywords
    | none => failure
  | .sign "[" => do
    let index ← expressionList expr bound
    sign "]"
    pure fun base => .subscript base index
  | _ => failure

/-- An atom with all that follows it. -/
def primary (expr : Parser Expr) (bound : Nat) : Parser Expr := do
  let base ← atom expr bound
  return (← many (trailer expr bound) bound).foldl (fun e f => f e) base

/-! ## Operators -/

def signOps : List (String × UnaryOp) := [("+", .plus), ("-", .minus), ("~", .invert)]

/-- A power, or an operand with signs before it. The exponent may carry signs too. -/
def factor (expr : Parser Expr) (bound : Nat) : (depth : Nat) → Parser Expr
  | 0 => failure
  | depth + 1 =>
    (do
      let op ← oneSign signOps
      return .unary op (← factor expr bound depth)) <|>
    (do
      let base ← primary expr bound
      match ← maybe (sign "**") with
      | some () => return .binary base .pow (← factor expr bound depth)
      | none => return base)

/-- The levels of operators with two operands, the loosest first. All associate to the left. -/
def binaryLevels : List (List (String × BinaryOp)) :=
  [[("|", .bitOr)], [("^", .bitXor)], [("&", .bitAnd)],
   [("<<", .shiftLeft), (">>", .shiftRight)], [("+", .add), ("-", .sub)],
   [("*", .mul), ("/", .div), ("//", .floorDiv), ("%", .mod), ("@", .matMul)]]

/-- Operands of the tighter levels, joined by the operators of the first level. -/
def binary (expr : Parser Expr) (bound : Nat) : List (List (String × BinaryOp)) → Parser Expr
  | [] => factor expr bound bound
  | ops :: tighter => do
    let first ← binary expr bound tighter
    let rest ← many (do return (← oneSign ops, ← binary expr bound tighter)) bound
    return rest.foldl (fun left (op, right) => .binary left op right) first

def compareSigns : List (String × CompareOp) :=
  [("<", .lt), ("<=", .le), (">", .gt), (">=", .ge), ("==", .eq), ("!=", .ne)]

def compareOp : Parser CompareOp :=
  oneSign compareSigns <|>
  (do word "in"; return .member) <|>
  (do word "not"; word "in"; return .notMember) <|>
  (do word "is"; word "not"; return .notSame) <|>
  (do word "is"; return .same)

/-- A chain of comparisons. -/
def comparison (expr : Parser Expr) (bound : Nat) : Parser Expr := do
  let operand := binary expr bound binaryLevels
  let left ← operand
  match ← many (do return (← compareOp, ← operand)) bound with
  | [] => return left
  | rest => return .compare left rest

/-- Negations. -/
def inversion (expr : Parser Expr) (bound : Nat) : (depth : Nat) → Parser Expr
  | 0 => failure
  | depth + 1 =>
    (do
      word "not"
      return .unary .not (← inversion expr bound depth)) <|>
    comparison expr bound

/-- Operands with a connective between them. -/
def connected (id : String) (op : LogicOp) (operand : Parser Expr) (bound : Nat) :
    Parser Expr := do
  let first ← operand
  match ← many (do word id; operand) bound with
  | [] => return first
  | rest => return .logic op (first :: rest)

def disjunction (expr : Parser Expr) (bound : Nat) : Parser Expr :=
  connected "or" .or (connected "and" .and (inversion expr bound bound) bound) bound

/-- A choice between two expressions. -/
def conditional (expr : Parser Expr) (bound : Nat) : Parser Expr := do
  let body ← disjunction expr bound
  match ← maybe (word "if") with
  | some () =>
    let test ← disjunction expr bound
    word "else"
    return .conditional test body (← expr)
  | none => return body

/-- Any expression. -/
def expression : (depth : Nat) → Parser Expr
  | 0 => failure
  | depth + 1 =>
    (do
      word "lambda"
      sign ":"
      return .lambda (← expression depth)) <|>
    conditional (expression depth) (depth + 1)

end NovelScript.Source
