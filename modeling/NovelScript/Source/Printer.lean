import NovelScript.Number.Shortest
import NovelScript.Replace
import NovelScript.Source.Syntax
import NovelScript.Text.Quoted

/-!
# Writing the source language

`Expr.render` writes an expression with the brackets that its place asks for: a place asks for a
level, and what is looser than that level gets brackets. `Stmt.lines` writes a statement, one line
for each part, with four blanks for each open block.
-/

namespace NovelScript

/-! ## Levels -/

/-- How tightly an expression holds. -/
abbrev Level := Nat

namespace Level

def yield : Level := 0

/-- The level of choices and functions, and what most places ask for. -/
def test : Level := 1

def inversion : Level := 4

def comparison : Level := 5

def sign : Level := 12

def atom : Level := 15

def ofLogic : LogicOp → Level
  | .or => 2
  | .and => 3

def ofBinary : BinaryOp → Level
  | .bitOr => 6
  | .bitXor => 7
  | .bitAnd => 8
  | .shiftLeft | .shiftRight => 9
  | .add | .sub => 10
  | .mul | .matMul | .div | .mod | .floorDiv => 11
  | .pow => 13

def ofUnary : UnaryOp → Level
  | .not => inversion
  | _ => sign

end Level

/-! ## Symbols -/

def BinaryOp.symbol : BinaryOp → String
  | add => "+"
  | sub => "-"
  | mul => "*"
  | matMul => "@"
  | div => "/"
  | mod => "%"
  | floorDiv => "//"
  | pow => "**"
  | shiftLeft => "<<"
  | shiftRight => ">>"
  | bitAnd => "&"
  | bitOr => "|"
  | bitXor => "^"

def UnaryOp.symbol : UnaryOp → String
  | plus => "+"
  | minus => "-"
  | invert => "~"
  | not => "not "

def LogicOp.symbol : LogicOp → String
  | and => "and"
  | or => "or"

def CompareOp.symbol : CompareOp → String
  | lt => "<"
  | le => "<="
  | gt => ">"
  | ge => ">="
  | eq => "=="
  | ne => "!="
  | same => "is"
  | notSame => "is not"
  | member => "in"
  | notMember => "not in"

/-! ## Constants -/

/-- A double precision number. There are no literals for the infinite ones and for what is no
number: an infinite one is a literal that is too large, and a difference of two such is no
number. -/
def Binary64.source (x : Binary64) : String :=
  if x.isNaN then "(1e309-1e309)"
  else if x.isInfinite then (if x.isNegative then "-1e309" else "1e309")
  else x.text

/-- The source of an imaginary number: a whole one is written without a fraction. -/
def Binary64.imaginarySource (x : Binary64) : String :=
  let text := x.source
  (if text.endsWith ".0" then (text.dropEnd 2).toString else text) ++ "j"

/-- A constant. -/
def Constant.render : Constant → String
  | none => "None"
  | ellipsis => "..."
  | bool b => if b then "True" else "False"
  | int n => toString n
  | float x => x.source
  | imaginary x => x.imaginarySource
  | text s marked => (if marked then "u" else "") ++ Text.quotedWording s
  | bytes b => Text.quotedBytes b

/-! ## Expressions -/

/-- Brackets where a tighter text is asked for. -/
def bracketIf (asked own : Level) (text : String) : String :=
  if own < asked then "(" ++ text ++ ")" else text

def Expr.isNumber : Expr → Bool
  | .const (.int _) | .const (.bool _) => true
  | _ => false

def tupleItems : List String → String
  | [item] => item ++ ","
  | items => ", ".intercalate items

mutual

/-- An expression where a level is asked for. -/
def Expr.render (asked : Level) : Expr → String
  | .const c => c.render
  | .name id => id
  | .attribute base name =>
    base.render Level.atom ++ (if base.isNumber then " ." else ".") ++ name
  | .call function arguments keywords =>
    function.render Level.atom ++ "(" ++
      ", ".intercalate (renderAll arguments ++ renderKeywords keywords) ++ ")"
  | .subscript base (.tuple []) => base.render Level.atom ++ "[()]"
  | .subscript base (.tuple (item :: items)) =>
    base.render Level.atom ++ "[" ++ tupleItems (item.render Level.test :: renderAll items) ++ "]"
  | .subscript base index => base.render Level.atom ++ "[" ++ index.render Level.test ++ "]"
  | .unary op operand =>
    bracketIf asked (Level.ofUnary op) (op.symbol ++ operand.render (Level.ofUnary op))
  | .binary left op right =>
    let own := Level.ofBinary op
    let (leftLevel, rightLevel) := if op = .pow then (own + 1, own) else (own, own + 1)
    bracketIf asked own
      (left.render leftLevel ++ " " ++ op.symbol ++ " " ++ right.render rightLevel)
  | .compare left rest =>
    bracketIf asked Level.comparison
      (left.render (Level.comparison + 1) ++ renderComparisons rest)
  | .logic op operands =>
    bracketIf asked (Level.ofLogic op)
      ((" " ++ op.symbol ++ " ").intercalate (renderOperands (Level.ofLogic op + 1) operands))
  | .conditional test body elseBody =>
    bracketIf asked Level.test
      (body.render (Level.test + 1) ++ " if " ++ test.render (Level.test + 1) ++ " else " ++
        elseBody.render Level.test)
  | .lambda body => bracketIf asked Level.test ("lambda: " ++ body.render Level.test)
  | .tuple items => "(" ++ tupleItems (renderAll items) ++ ")"
  | .list items => "[" ++ ", ".intercalate (renderAll items) ++ "]"
  | .set items => "\x7b" ++ ", ".intercalate (renderAll items) ++ "\x7d"
  | .mapping items => "\x7b" ++ ", ".intercalate (renderPairs items) ++ "\x7d"
  | .yield none => bracketIf asked Level.yield "yield"
  | .yield (some value) => bracketIf asked Level.yield ("yield " ++ value.render Level.atom)

def renderAll : List Expr → List String
  | [] => []
  | e :: rest => e.render Level.test :: renderAll rest

/-- The operands of a connective: each place asks for a level more than the one before. -/
def renderOperands (asked : Level) : List Expr → List String
  | [] => []
  | e :: rest => e.render (min asked Level.atom) :: renderOperands (asked + 1) rest

def renderComparisons : List (CompareOp × Expr) → String
  | [] => ""
  | (op, e) :: rest =>
    " " ++ op.symbol ++ " " ++ e.render (Level.comparison + 1) ++ renderComparisons rest

def renderKeywords : List (Option String × Expr) → List String
  | [] => []
  | (some name, e) :: rest => (name ++ "=" ++ e.render Level.test) :: renderKeywords rest
  | (none, e) :: rest => ("**" ++ e.render Level.test) :: renderKeywords rest

def renderPairs : List (Expr × Expr) → List String
  | [] => []
  | (key, value) :: rest =>
    (key.render Level.test ++ ": " ++ value.render Level.test) :: renderPairs rest

end

def Expr.source (e : Expr) : String := e.render Level.test

/-- An expression that is assigned to: a tuple needs no brackets, unless it is empty. -/
def Expr.targetSource : Expr → String
  | .tuple (item :: items) => tupleItems (renderAll (item :: items))
  | e => e.source

/-! ## Statements -/

def indented (depth : Nat) (text : String) : String :=
  String.ofList (List.replicate (4 * depth) ' ') ++ text

def renderContext : Expr × Option Expr → String
  | (value, none) => value.source
  | (value, some target) => value.source ++ " as " ++ target.source

mutual

/-- The lines of a statement. -/
def Stmt.lines (depth : Nat) : Stmt → List String
  | .pass _ => [indented depth "pass"]
  | .expression _ value => [indented depth (value.render Level.yield)]
  | .assign _ targets value =>
    [indented depth (String.join (targets.map fun t => t.targetSource ++ " = ") ++ value.source)]
  | .augment _ target op value =>
    [indented depth (target.source ++ " " ++ op.symbol ++ "= " ++ value.source)]
  | .branch _ test body elseBody =>
    indented depth ("if " ++ test.source ++ ":") :: linesOf (depth + 1) body ++
      branchLines depth elseBody
  | .loop _ test body elseBody =>
    indented depth ("while " ++ test.source ++ ":") :: linesOf (depth + 1) body ++
      elseLines depth elseBody
  | .context _ items body =>
    indented depth ("with " ++ ", ".intercalate (items.map renderContext) ++ ":") ::
      linesOf (depth + 1) body
  | .iterate _ target source body elseBody =>
    indented depth ("for " ++ target.targetSource ++ " in " ++ source.source ++ ":") ::
      linesOf (depth + 1) body ++ elseLines depth elseBody
  | .leave _ none => [indented depth "return"]
  | .leave _ (some value) => [indented depth ("return " ++ value.source)]
  | .stop _ => [indented depth "break"]
  | .next _ => [indented depth "continue"]
  | .delete _ targets => [indented depth ("del " ++ ", ".intercalate (targets.map Expr.source))]

/-- The lines of statements. -/
def linesOf (depth : Nat) : List Stmt → List String
  | [] => []
  | s :: rest => s.lines depth ++ linesOf depth rest

/-- The lines of a last branch. -/
def elseLines (depth : Nat) : List Stmt → List String
  | [] => []
  | s :: rest => indented depth "else:" :: s.lines (depth + 1) ++ linesOf (depth + 1) rest

/-- The lines after the block of an `if`: a single `if` goes on as a further condition. -/
def branchLines (depth : Nat) : List Stmt → List String
  | [] => []
  | [.branch _ test body elseBody] =>
    indented depth ("elif " ++ test.source ++ ":") :: linesOf (depth + 1) body ++
      branchLines depth elseBody
  | s :: rest => indented depth "else:" :: s.lines (depth + 1) ++ linesOf (depth + 1) rest

end

def Stmt.source (s : Stmt) : String := "\n".intercalate (s.lines 0)

/-! ## Texts -/

def threefoldQuotes : List (Char × String) := [('"', "\"\"\""), ('\'', "'''")]

/-- A sign of an opening text: line ends and tabs stand for themselves. -/
def openingSign : Sign → String
  | .char c =>
    if c = '\n' || c = '\t' then c.toString
    else if c = '\\' || !Text.isVisible c then Text.escapeChar c
    else c.toString
  | .half d => Text.escapeByNumber (Sign.half d).point

/-- A text that opens a source text, in threefold quotes. Quotes that occur in the text are avoided;
where all occur, the escapes of ordinary quotes are used. Quotes of the kind that the text ends with
come last, and if there are no others that last character is escaped. -/
def openingText (w : Wording) : String :=
  let body := String.join (w.signs.map openingSign)
  let usable := threefoldQuotes.filter fun (_, q) => !occursIn q.toList body.toList
  match usable with
  | [] =>
    let plain := (Text.quotedWording w).toList
    let quote := ((plain.head?.bind fun c => threefoldQuotes.lookup c)).getD ""
    quote ++ String.ofList (plain.drop 1).dropLast ++ quote
  | first :: others =>
    let last := body.toList.getLast?
    match (first :: others).find? fun (c, _) => some c != last with
    | some (_, q) => q ++ body ++ q
    | none =>
      let q := first.2
      q ++ String.ofList (body.toList.dropLast ++ ['\\'] ++ last.toList) ++ q

/-- The lines of a source text. A text that stands first is written as an opening text. -/
def sourceLines : List Stmt → List String
  | .expression _ (.const (.text s marked)) :: rest =>
    ((if marked then "u" else "") ++ openingText s) :: linesOf 0 rest
  | statements => linesOf 0 statements

/-- The source of statements. -/
def renderSource (statements : List Stmt) : String := "\n".intercalate (sourceLines statements)

end NovelScript
