import NovelScript.Source.Token
import NovelScript.Text.Numeral

/-!
# Literals of the source language

Numbers in several bases with underscores between digits, and texts and byte strings with escapes.
All readers take the characters from the start of a literal on and return what is left.
-/

namespace NovelScript.Source

/-! ## Digits -/

def digitOf (c : Char) : Nat :=
  if c.isDigit then c.toNat - '0'.toNat
  else if c.isLower then c.toNat - 'a'.toNat + 10
  else c.toNat - 'A'.toNat + 10

def isDigitOf (base : Nat) (c : Char) : Bool :=
  (c.isDigit || (c.isAlpha && c.toNat < 128)) && digitOf c < base

/-- The value of digits. -/
def numberOf (base : Nat) (digits : List Char) : Nat :=
  digits.foldl (fun n c => base * n + digitOf c) 0

/-- Digits with single underscores between them, and what follows. An underscore must stand before
a digit. -/
def digitRun (base : Nat) : List Char → Option (List Char × List Char)
  | [] => some ([], [])
  | '_' :: c :: rest => if isDigitOf base c then digitRun base (c :: rest) else none
  | c :: rest =>
    if isDigitOf base c then (digitRun base rest).map fun (digits, rest) => (c :: digits, rest)
    else if c = '_' then none
    else some ([], c :: rest)

/-! ## Numbers -/

/-- Whether a number may end here: not before a character of a name, except where a reserved word
that can follow a number starts. -/
def numberEnds (rest : List Char) : Bool :=
  match rest with
  | [] => true
  | c :: _ =>
    !(c.isAlphanum || c == '_' || 128 ≤ c.toNat)
      || ["and", "else", "for", "if", "in", "is", "or", "not"].any fun w => w.toList.isPrefixOf rest

def endNumber (token : Token) (rest : List Char) : Option (Token × List Char) :=
  if numberEnds rest then some (token, rest) else none

/-- A number after its base. -/
def basedNumber (base : Nat) (rest : List Char) : Option (Token × List Char) := do
  let (digits, rest) ← digitRun base rest
  if digits.isEmpty || rest.head?.any Char.isDigit then none
  else endNumber (.int (numberOf base digits)) rest

/-- The exponent at this place, if there is one, and what follows. A letter `e` that no exponent
follows is not taken; a sign after it must be followed by a digit. -/
def exponent (rest : List Char) : Option (Option Int × List Char) :=
  match rest with
  | e :: c :: more =>
    if e ≠ 'e' ∧ e ≠ 'E' then some (none, rest)
    else if c.isDigit then
      (digitRun 10 (c :: more)).map fun (digits, rest) => (some (numberOf 10 digits : Int), rest)
    else if c = '+' ∨ c = '-' then
      if more.head?.any Char.isDigit then
        (digitRun 10 more).map fun (digits, rest) =>
          (some (if c = '-' then -(numberOf 10 digits : Int) else numberOf 10 digits), rest)
      else none
    else some (none, rest)
  | _ => some (none, rest)

/-- The digits behind a point. -/
def fraction (rest : List Char) : Option (Option (List Char) × List Char) :=
  match rest with
  | '.' :: more =>
    if more.head?.any Char.isDigit then
      (digitRun 10 more).map fun (digits, rest) => (some digits, rest)
    else some (some [], more)
  | _ => some (none, rest)

/-- A whole number in decimal digits. It may start with a zero only if it is zero, and then it may
have any number of them. -/
def decimalInt (digits : List Char) : Option Token :=
  if digits.head? = some '0' then (if digits.all (· = '0') then some (.int 0) else none)
  else if Text.maxDigits < digits.length then none
  else some (.int (numberOf 10 digits))

/-- A number in decimal digits: whole, or with a fraction or an exponent, or imaginary. -/
def decimalNumber (chars : List Char) : Option (Token × List Char) := do
  let (digits, rest) ← digitRun 10 chars
  let (point, rest) ← fraction rest
  let (power, rest) ← exponent rest
  let places := point.getD []
  let value := Binary64.ofDecimal (numberOf 10 (digits ++ places))
    (power.getD 0 - places.length)
  match rest with
  | c :: more =>
    if c = 'j' ∨ c = 'J' then endNumber (.imaginary value) more
    else if point.isSome || power.isSome then endNumber (.float value) rest
    else endNumber (← decimalInt digits) rest
  | [] =>
    if point.isSome || power.isSome then some (.float value, [])
    else return (← decimalInt digits, [])

/-- The number at the start. -/
def number (chars : List Char) : Option (Token × List Char) :=
  match chars with
  | '0' :: c :: rest =>
    if c = 'x' ∨ c = 'X' then basedNumber 16 rest
    else if c = 'o' ∨ c = 'O' then basedNumber 8 rest
    else if c = 'b' ∨ c = 'B' then basedNumber 2 rest
    else decimalNumber chars
  | _ => decimalNumber chars

/-! ## Texts -/

/-- The characters up to the closing quote, with their escapes, and what follows the quote. A
backslash takes the next character along. A line may end only inside threefold quotes. -/
def quotedRun (quote : Char) (threefold : Bool) : List Char → Option (List Char × List Char)
  | [] => none
  | '\\' :: c :: rest =>
    (quotedRun quote threefold rest).map fun (text, rest) => ('\\' :: c :: text, rest)
  | c :: rest =>
    if c = quote then
      if !threefold then some ([], rest)
      else if [quote, quote].isPrefixOf rest then some ([], rest.drop 2)
      else (quotedRun quote threefold rest).map fun (text, rest) => (c :: text, rest)
    else if c = '\n' ∧ !threefold then none
    else (quotedRun quote threefold rest).map fun (text, rest) => (c :: text, rest)

/-- What stands between quotes. -/
def quotedContents : List Char → Option (List Char × List Char)
  | [] => none
  | quote :: rest =>
    if [quote, quote].isPrefixOf rest then quotedRun quote true (rest.drop 2)
    else quotedRun quote false rest

/-- Escapes by a letter. -/
def letterEscapes : List (Char × Char) :=
  [('\\', '\\'), ('\'', '\''), ('"', '"'), ('a', '\x07'), ('b', '\x08'), ('f', '\x0c'),
   ('n', '\n'), ('r', '\r'), ('t', '\t'), ('v', '\x0b')]

/-- Escapes by a number, with their digits. -/
def numberEscapes (isText : Bool) : List (Char × Nat) :=
  if isText then [('x', 2), ('u', 4), ('U', 8)] else [('x', 2)]

/-- What an escape stands for, and what follows it; the characters start after the backslash. The
end of a line is dropped, and an unknown escape stands for itself. -/
def escapeAt (isText : Bool) : List Char → Option (List Sign × List Char)
  | [] => some ([.char '\\'], [])
  | c :: rest =>
    if c = '\n' then some ([], rest)
    else match letterEscapes.lookup c with
      | some meant => some ([.char meant], rest)
      | none =>
        match (numberEscapes isText).lookup c with
        | some count =>
          let digits := rest.take count
          if digits.length = count ∧ digits.all (isDigitOf 16) then
            (Sign.ofPoint? (numberOf 16 digits)).map fun meant => ([meant], rest.drop count)
          else none
        | none =>
          if isDigitOf 8 c then
            let digits := c :: (rest.take 2).takeWhile (isDigitOf 8)
            let n := numberOf 8 digits
            (Sign.ofPoint? (if isText then n else n % 256)).map fun meant =>
              ([meant], rest.drop (digits.length - 1))
          else if c = 'N' ∧ isText then none
          else some ([.char '\\', .char c], rest)

/-- Replaces the escapes. The fuel is the number of characters, of which each step takes one. -/
def unescape (isText : Bool) : (fuel : Nat) → List Char → Option (List Sign)
  | 0, _ => some []
  | _ + 1, [] => some []
  | fuel + 1, c :: rest =>
    if c = '\\' then do
      let (meant, rest) ← escapeAt isText rest
      return meant ++ (← unescape isText fuel rest)
    else (unescape isText fuel rest).map (.char c :: ·)

/-- The signs of a literal. -/
def literalContents (isText raw : Bool) (contents : List Char) : Option (List Sign) :=
  if raw then some (contents.map .char) else unescape isText contents.length contents

/-- The token of a literal with the given marks before its quote. A byte string holds ASCII only. -/
def literalToken (marks contents : List Char) : Option Token :=
  let raw := marks.any fun c => c = 'r' ∨ c = 'R'
  if marks.any fun c => c = 'b' ∨ c = 'B' then
    if contents.all fun c => c.toNat < 128 then
      (literalContents false raw contents).map fun signs =>
        .bytes (signs.map fun s => UInt8.ofNat s.point)
    else none
  else (literalContents true raw contents).map fun signs =>
    .text ⟨signs⟩ (marks.head? == some 'u')

def literalMarks : List (List Char) :=
  [[], ['r'], ['u'], ['b'], ['b', 'r'], ['r', 'b']]

/-- The marks before a literal. -/
def marksBefore (chars : List Char) : Option (List Char) :=
  let marks := (chars.take 3).takeWhile fun c => "rRuUbB".toList.contains c
  match chars.drop marks.length with
  | c :: _ =>
    if (c = '"' ∨ c = '\'') ∧ literalMarks.contains (marks.map Char.toLower) then some marks
    else none
  | [] => none

end NovelScript.Source
