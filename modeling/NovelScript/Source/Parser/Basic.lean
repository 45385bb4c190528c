import NovelScript.Source.Token

/-!
# Parsers over tokens

A parser takes tokens from the front and returns a value with the tokens left, or nothing. A choice
goes back to where it started. Repetition is bounded by a number that is at least the number of
tokens.
-/

namespace NovelScript.Source

abbrev Parser (α : Type) := StateT (List Located) Option α

namespace Parser

def next : Parser Located := fun
  | [] => none
  | t :: rest => some (t, rest)

def line : Parser Nat := fun
  | [] => none
  | t :: rest => some (t.line, t :: rest)

/-- Takes an expected token. -/
def token (expected : Token) : Parser Unit := do
  let t ← next
  if t.token = expected then pure () else failure

def sign (symbol : String) : Parser Unit := token (.sign symbol)

def word (id : String) : Parser Unit := token (.word id)

def name : Parser String := do
  match (← next).token with
  | .name id => pure id
  | _ => failure

/-- Takes one of some signs. -/
def oneSign {α : Type} (table : List (String × α)) : Parser α := do
  match (← next).token with
  | .sign symbol =>
    match table.lookup symbol with
    | some meant => pure meant
    | none => failure
  | _ => failure

/-- Takes something or nothing. -/
def maybe {α : Type} (p : Parser α) : Parser (Option α) :=
  (some <$> p) <|> pure none

/-- Values as long as there are any, at most `bound` of them. -/
def many {α : Type} (p : Parser α) : (bound : Nat) → Parser (List α)
  | 0 => pure []
  | bound + 1 => (do return (← p) :: (← many p bound)) <|> pure []

/-- One or more values with commas between them, and whether a comma follows the last one. -/
def commaList {α : Type} (p : Parser α) (bound : Nat) : Parser (List α × Bool) := do
  let first ← p
  let rest ← many (do sign ","; p) bound
  let trailing ← maybe (sign ",")
  return (first :: rest, trailing.isSome)

/-- Values with commas between them, or none, up to the closing sign. -/
def commaListUntil {α : Type} (p : Parser α) (close : String) (bound : Nat) : Parser (List α) :=
  (do sign close; return []) <|>
  (do
    let (items, _) ← commaList p bound
    sign close
    return items)

def startsKeyword : List Located → Bool
  | ⟨.name _, _⟩ :: ⟨.sign "=", _⟩ :: _ => true
  | _ => false

end Parser

end NovelScript.Source
