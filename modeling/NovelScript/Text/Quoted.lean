import NovelScript.Bytes
import NovelScript.Text.Hidden
import NovelScript.Text.Wording

/-!
# Quoted text

How a text or a byte string is written between quotes: the quote is `'`, unless the text holds `'`
and no `"`; the quote and the backslash are escaped, and so is every character that has no visible
form.
-/

namespace NovelScript.Text

/-! ## Digits -/

def hexPadded (width n : Nat) : String :=
  let digits := Nat.toDigits 16 n
  String.ofList (List.replicate (width - digits.length) '0' ++ digits)

def padLeft (width : Nat) (s : String) : String :=
  String.ofList (List.replicate (width - s.length) ' ') ++ s

def padRight (width : Nat) (s : String) : String :=
  s ++ String.ofList (List.replicate (width - s.length) ' ')

/-! ## Visible characters -/

def isVisible (c : Char) : Bool :=
  if c.toNat < 0x7F then 0x20 ≤ c.toNat else !hiddenRanges.contains c.toNat

/-! ## Escapes -/

def escapeByNumber (n : Nat) : String :=
  if n < 0x100 then "\\x" ++ hexPadded 2 n
  else if n < 0x10000 then "\\u" ++ hexPadded 4 n
  else "\\U" ++ hexPadded 8 n

/-- The escape of a backslash or of a character without a visible form. -/
def escapeChar (c : Char) : String :=
  if c = '\\' then "\\\\"
  else if c = '\n' then "\\n"
  else if c = '\r' then "\\r"
  else if c = '\t' then "\\t"
  else escapeByNumber c.toNat

/-- The quote that surrounds a text, by which characters the text holds. -/
def quoteFor (holds : Char → Bool) : Char :=
  if holds '\'' && !holds '"' then '"' else '\''

/-- A character between quotes. -/
def quoteChar (quote c : Char) : String :=
  if c = quote then String.ofList ['\\', c]
  else if c = '\\' || !isVisible c then escapeChar c
  else c.toString

def quoteSign (quote : Char) : Sign → String
  | .char c => quoteChar quote c
  | .half d => escapeByNumber (Sign.half d).point

/-- A wording between quotes. -/
def quotedWording (w : Wording) : String :=
  let quote := quoteFor w.contains
  quote.toString ++ String.join (w.signs.map (quoteSign quote)) ++ quote.toString

def quoted (s : String) : String := quotedWording (Wording.ofString s)

def quoteByte (quote : Char) (b : UInt8) : String :=
  let c := Char.ofNat b.toNat
  if c = quote || c = '\\' then String.ofList ['\\', c]
  else if b < 0x20 || b ≥ 0x7F then escapeChar c
  else c.toString

/-- A byte string between quotes, marked by a leading `b`. -/
def quotedBytes (bytes : Bytes) : String :=
  let quote := quoteFor fun c => bytes.contains (UInt8.ofNat c.toNat)
  "b" ++ quote.toString ++ String.join (bytes.map (quoteByte quote)) ++ quote.toString

/-! ## Lists -/

def bracketed (items : List String) : String :=
  "[" ++ ", ".intercalate items ++ "]"

end NovelScript.Text
