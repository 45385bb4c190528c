import NovelScript.Source.Lexer
import NovelScript.Source.Parser.Expression

/-!
# Parsing statements
-/

namespace NovelScript.Source

open NovelScript.Source.Parser

/-! ## Targets -/

mutual

/-- Whether something can be assigned to. -/
def isTarget : Expr → Bool
  | .name _ => true
  | .attribute _ _ => true
  | .subscript _ _ => true
  | .tuple items => areTargets items
  | .list items => areTargets items
  | _ => false

def areTargets : List Expr → Bool
  | [] => true
  | e :: rest => isTarget e && areTargets rest

end

def isSingleTarget : Expr → Bool
  | .name _ | .attribute _ _ | .subscript _ _ => true
  | _ => false

def augmentSigns : List (String × BinaryOp) :=
  [("+=", .add), ("-=", .sub), ("*=", .mul), ("@=", .matMul), ("/=", .div), ("%=", .mod),
   ("//=", .floorDiv), ("**=", .pow), ("<<=", .shiftLeft), (">>=", .shiftRight), ("&=", .bitAnd),
   ("|=", .bitOr), ("^=", .bitXor)]

/-! ## Simple statements -/

/-- Tools for statements: the parser of expressions, and the bound of repetitions. -/
structure Tools where
  expr : Parser Expr
  bound : Nat

namespace Tools

def values (t : Tools) : Parser Expr := expressionList t.expr t.bound

def assigned (t : Tools) : Parser Expr := yieldExpr t.expr t.bound <|> t.values

/-- Values that stand in target position, without brackets around a tuple. -/
def targets (t : Tools) : Parser (List Expr × Bool) := do
  let (items, trailing) ← commaList (primary t.expr t.bound) t.bound
  if areTargets items then return (items, trailing) else failure

end Tools

/-- The values of a chain of assignments after the first, each after an equals sign. -/
def assignedChain (t : Tools) : Parser (List Expr) := do
  many (do sign "="; t.assigned) t.bound

/-- An assignment or an expression. -/
def expressionStatement (t : Tools) (line : Nat) : Parser Stmt := do
  let first ← t.assigned
  match ← maybe (oneSign augmentSigns) with
  | some op =>
    if isSingleTarget first then return .augment line first op (← t.assigned) else failure
  | none =>
    let chain ← assignedChain t
    match chain.getLast? with
    | none => return .expression line first
    | some value =>
      let targets := first :: chain.dropLast
      if areTargets targets then return .assign line targets value else failure

/-- A statement without blocks. -/
def simpleStatement (t : Tools) : Parser Stmt := do
  let line ← line
  (do word "pass"; return .pass line) <|>
  (do word "break"; return .stop line) <|>
  (do word "continue"; return .next line) <|>
  (do
    word "return"
    return .leave line (← maybe t.values)) <|>
  (do
    word "del"
    return .delete line (← t.targets).1) <|>
  expressionStatement t line

/-- A line of them. -/
def simpleLine (t : Tools) : Parser (List Stmt) := do
  let first ← simpleStatement t
  let rest ← many (do sign ";"; simpleStatement t) t.bound
  let _ ← maybe (sign ";")
  token .newline
  return first :: rest

/-! ## Blocks -/

/-- The body of a statement. -/
def block (t : Tools) (statements : Parser (List Stmt)) : Parser (List Stmt) := do
  sign ":"
  (do
    token .newline
    token .indent
    let first ← statements
    let rest ← many statements t.bound
    token .dedent
    return first ++ rest.flatten) <|>
  simpleLine t

/-- What follows the block of an `if`: further conditions, a last block, or nothing. -/
def branchTail (t : Tools) (body : Parser (List Stmt)) : (bound : Nat) → Parser (List Stmt)
  | 0 => failure
  | bound + 1 =>
    (do
      let line ← line
      word "elif"
      let test ← t.expr
      let then' ← body
      return [.branch line test then' (← branchTail t body bound)]) <|>
    (do word "else"; body) <|>
    pure []

def elseBlock (body : Parser (List Stmt)) : Parser (List Stmt) :=
  (do word "else"; body) <|> pure []

def contextItem (t : Tools) : Parser (Expr × Option Expr) := do
  let value ← t.expr
  match ← maybe (word "as") with
  | none => return (value, none)
  | some () =>
    let target ← primary t.expr t.bound
    if isTarget target then return (value, some target) else failure

/-- Fails unless a colon is next, and leaves it. -/
def beforeColon : Parser Unit := fun tokens =>
  match tokens with
  | ⟨.sign ":", _⟩ :: _ => some ((), tokens)
  | _ => none

/-- The contexts of a `with`, up to the colon. Brackets around all of them do not count. -/
def contextItems (t : Tools) : Parser (List (Expr × Option Expr)) :=
  (do
    sign "("
    let (items, _) ← commaList (contextItem t) t.bound
    sign ")"
    beforeColon
    return items) <|>
  (do
    match ← commaList (contextItem t) t.bound with
    | (items, false) => return items
    | (_, true) => failure)

def contextStatement (t : Tools) (body : Parser (List Stmt)) (line : Nat) : Parser Stmt := do
  word "with"
  let items ← contextItems t
  return .context line items (← body)

def iterateStatement (t : Tools) (body : Parser (List Stmt)) (line : Nat) : Parser Stmt := do
  word "for"
  let target ← do
    match ← t.targets with
    | ([item], false) => pure item
    | (items, _) => pure (.tuple items)
  word "in"
  let source ← t.values
  let inner ← body
  return .iterate line target source inner (← elseBlock body)

/-- A statement with blocks. -/
def compoundStatement (t : Tools) (body : Parser (List Stmt)) : Parser Stmt := do
  let line ← line
  (do
    word "if"
    let test ← t.expr
    let inner ← body
    return .branch line test inner (← branchTail t body (t.bound + 1))) <|>
  (do
    word "while"
    let test ← t.expr
    let inner ← body
    return .loop line test inner (← elseBlock body)) <|>
  contextStatement t body line <|>
  iterateStatement t body line

/-- Any statement. -/
def statement (t : Tools) : (depth : Nat) → Parser (List Stmt)
  | 0 => failure
  | depth + 1 =>
    (do return [← compoundStatement t (block t (statement t depth))]) <|> simpleLine t

/-! ## Texts -/

/-- The statements of a list of tokens, all of which must be used. -/
def statementsOf (tokens : List Located) : Option (List Stmt) :=
  let bound := tokens.length + 1
  let tools : Tools := ⟨expression bound, bound⟩
  match many (statement tools bound) bound tokens with
  | some (groups, []) => some groups.flatten
  | _ => none

/-- The expression that a list of tokens is, with nothing but ends of lines behind it. -/
def expressionOf (tokens : List Located) : Option Expr :=
  let bound := tokens.length + 1
  match expressionList (expression bound) bound tokens with
  | some (e, rest) => if rest.all fun t => t.token == .newline then some e else none
  | none => none

/-- The expression of a text. Blanks before it do not count, and it may hold no zero character. -/
def parseExpression (source : String) : Except Fault Expr := do
  let chars := source.toList.dropWhile fun c => c == ' ' || c == '\t'
  require (!chars.contains '\x00') Cause.badGrammar
  orFault ((tokens (String.ofList chars)).bind expressionOf) Cause.badGrammar

/-- The statements of a source. -/
def parse (source : String) : Except Fault (List Stmt) := do
  require (!source.toList.contains '\x00') Cause.badGrammar
  orFault ((tokens source).bind statementsOf) Cause.badGrammar

end NovelScript.Source
