import NovelScript.Source.Literal
import NovelScript.Text.Identifier
import NovelScript.Text.Lines

/-!
# From characters to tokens

Lines end tokens, except inside brackets and after a backslash. The blanks before the first token of
a line say how deep it stands: a deeper line opens a block, and a shallower one closes blocks. Tabs
go to multiples of eight; a second count, in which a tab is one place, must agree on what is deeper.
-/

namespace NovelScript.Source

/-! ## Single tokens -/

def isNameChar (c : Char) : Bool := c.isAlphanum || c == '_' || 128 ≤ c.toNat

/-- A name or a reserved word. Reserved words have one spelling; names are the same if their plain
forms are. -/
def nameToken (chars : List Char) : Option Token :=
  if Text.isName chars then
    let word := String.ofList chars
    some (if reserved.contains word then .word word else .name (Text.plainName chars))
  else none

/-- The sign at the start. -/
def signAt (chars : List Char) : Option (String × List Char) :=
  (signs.find? fun s => s.toList.isPrefixOf chars).map fun s => (s, chars.drop s.length)

/-- A token, the number of lines that end inside it, and what follows it. -/
structure Taken where
  token : Token
  lines : Nat := 0
  rest : List Char

/-- The token at the start. -/
def tokenAt (chars : List Char) : Option Taken :=
  match marksBefore chars with
  | some marks => do
    let (contents, rest) ← quotedContents (chars.drop marks.length)
    return ⟨← literalToken marks contents, contents.count '\n', rest⟩
  | none =>
    match chars with
    | [] => none
    | c :: rest =>
      if c.isDigit || (c == '.' && rest.head?.any Char.isDigit) then
        (number chars).map fun (token, rest) => ⟨token, 0, rest⟩
      else if isNameChar c then
        (nameToken (chars.takeWhile isNameChar)).map fun token =>
          ⟨token, 0, chars.dropWhile isNameChar⟩
      else (signAt chars).map fun (s, rest) => ⟨.sign s, 0, rest⟩

/-! ## Brackets -/

def closing : List (String × String) := [("(", ")"), ("[", "]"), ("\x7b", "\x7d")]

def maxBrackets : Nat := 200

/-- The closing brackets that are waited for, the innermost first, after one more sign. -/
def bracketsAfter (waited : List String) (sign : String) : Option (List String) :=
  match closing.lookup sign with
  | some close => if waited.length < maxBrackets then some (close :: waited) else none
  | none =>
    if closing.any fun (_, close) => close == sign then
      match waited with
      | close :: rest => if close = sign then some rest else none
      | [] => none
    else some waited

/-! ## Depth of lines -/

/-- How deep a line stands: its width, and its width with narrow tabs. -/
structure Depth where
  width : Nat
  narrow : Nat
  deriving DecidableEq

def maxBlocks : Nat := 100

/-- The depth of a line, what follows its blanks, and how many lines a backslash joined to it. -/
structure Margin where
  depth : Depth
  rest : List Char
  joined : Nat

/-- Measures the blanks at the start of a line. Of a line that goes on after a backslash the first
blanks count, if there are any. -/
def margin : List Char → Depth → (first : Nat) → (joined : Nat) → Option Margin
  | ' ' :: rest, d, first, joined => margin rest ⟨d.width + 1, d.narrow + 1⟩ first joined
  | '\t' :: rest, d, first, joined =>
    margin rest ⟨(d.width / 8 + 1) * 8, d.narrow + 1⟩ first joined
  | '\x0c' :: rest, _, first, joined => margin rest ⟨0, 0⟩ first joined
  | '\\' :: '\n' :: rest, d, first, joined =>
    if rest.isEmpty then none
    else margin rest d (if first = 0 then d.width else first) (joined + 1)
  | rest, d, first, joined =>
    some ⟨if first = 0 then d else ⟨first, first⟩, rest, joined⟩

/-- The open blocks after closing those that are deeper than the line, and how many were closed. -/
def closeBlocks (d : Depth) : List Depth → Option (List Depth × Nat)
  | [] => none
  | top :: rest =>
    if d.width < top.width then (closeBlocks d rest).map fun (open', n) => (open', n + 1)
    else if d = top then some (top :: rest, 0)
    else none

/-- The open blocks at a line, the innermost first, and the tokens that open or close blocks. -/
def blocksAt (d : Depth) (blocks : List Depth) : Option (List Depth × List Token) :=
  match blocks with
  | [] => none
  | top :: _ =>
    if top.width < d.width then
      if blocks.length < maxBlocks ∧ top.narrow < d.narrow then some (d :: blocks, [.indent])
      else none
    else (closeBlocks d blocks).map fun (blocks, n) => (blocks, List.replicate n .dedent)

/-! ## Texts -/

/-- Where the lexer stands. -/
structure State where
  line : Nat := 1
  fresh : Bool := true
  blocks : List Depth := [⟨0, 0⟩]
  brackets : List String := []

def afterComment (chars : List Char) : List Char := chars.dropWhile (· != '\n')

/-- The tokens from a point on. Each step takes a character, except that the first token of a line
costs a step of its own; twice the number of characters is fuel enough. -/
def tokensFrom : (fuel : Nat) → State → List Char → Option (List Located)
  | 0, _, _ => none
  | fuel + 1, s, chars =>
    if s.fresh then
      match margin chars ⟨0, 0⟩ 0 0 with
      | none => none
      | some m =>
        let line := s.line + m.joined
        match m.rest with
        | [] => some (List.replicate (s.blocks.length - 1) ⟨.dedent, line⟩)
        | '\n' :: rest => tokensFrom fuel { s with line := line + 1 } rest
        | '#' :: rest =>
          tokensFrom fuel { s with line := line + 1 } ((afterComment rest).drop 1)
        | rest =>
          match blocksAt m.depth s.blocks with
          | none => none
          | some (blocks, opened) =>
            (tokensFrom fuel { s with line := line, fresh := false, blocks := blocks } rest).map
              fun tokens => opened.map (⟨·, line⟩) ++ tokens
    else
      match chars with
      | [] => none
      | '\n' :: rest =>
        if s.brackets.isEmpty then
          (tokensFrom fuel { s with line := s.line + 1, fresh := true } rest).map
            (⟨.newline, s.line⟩ :: ·)
        else tokensFrom fuel { s with line := s.line + 1 } rest
      | '#' :: rest => tokensFrom fuel s (afterComment rest)
      | '\\' :: '\n' :: rest =>
        if rest.isEmpty then none else tokensFrom fuel { s with line := s.line + 1 } rest
      | c :: rest =>
        if c = ' ' ∨ c = '\t' ∨ c = '\x0c' then tokensFrom fuel s rest
        else
          match tokenAt chars with
          | none => none
          | some taken =>
            let brackets := match taken.token with
              | .sign sign => bracketsAfter s.brackets sign
              | _ => some s.brackets
            match brackets with
            | none => none
            | some brackets =>
              let after := { s with line := s.line + taken.lines, brackets := brackets }
              (tokensFrom fuel after taken.rest).map (⟨taken.token, s.line⟩ :: ·)

def endsPlainly (chars : List Char) : Bool :=
  match chars.reverse with
  | '\n' :: '\r' :: _ => false
  | c :: _ => c == '\n' || c == '\r'
  | [] => false

/-- The characters of a text with one kind of line end, the last line ended too. Behind a carriage
return and a line feed at the very end stands one more line, which is empty, so a backslash may
come before them. -/
def completeLines (source : String) : List Char :=
  let chars := source.toList
  if endsPlainly chars then Text.plainLines chars else Text.plainLines chars ++ ['\n']

/-- The tokens of a source. -/
def tokens (source : String) : Option (List Located) :=
  let chars := completeLines source
  tokensFrom (2 * chars.length + 2) {} chars

end NovelScript.Source
