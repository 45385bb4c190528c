/-!
# Wordings

What a text says, as a list of signs. An escape in a text literal may name a code point from D800 to
DFFF. Such a code point is half of a pair and no character, so a wording can be more than a string.
Strings are the wordings without halves, and only these can be encoded.
-/

namespace NovelScript

/-- A character, or half of one. -/
inductive Sign where
  | char (c : Char)
  /-- Half of a pair, by the distance from the first one. -/
  | half (distance : Fin 0x800)
  deriving DecidableEq

namespace Sign

def firstHalf : Nat := 0xD800

def point : Sign → Nat
  | char c => c.toNat
  | half d => firstHalf + d.val

def ofPoint? (n : Nat) : Option Sign :=
  if n.isValidChar then some (char (Char.ofNat n))
  else if h : firstHalf ≤ n ∧ n - firstHalf < 0x800 then some (half ⟨n - firstHalf, h.2⟩)
  else none

def char? : Sign → Option Char
  | char c => some c
  | half _ => none

/-- The character that shows a sign. Halves are all shown alike. -/
def shown : Sign → Char
  | char c => c
  | half _ => '�'

end Sign

/-- A text that may have halves of characters. -/
structure Wording where
  signs : List Sign
  deriving DecidableEq, Inhabited

namespace Wording

instance : EmptyCollection Wording := ⟨⟨[]⟩⟩

instance : Append Wording := ⟨fun a b => ⟨a.signs ++ b.signs⟩⟩

def ofChars (cs : List Char) : Wording := ⟨cs.map .char⟩

def ofString (s : String) : Wording := ofChars s.toList

/-- The text, if no half is in it. -/
def string? (w : Wording) : Option String := (w.signs.mapM Sign.char?).map String.ofList

/-- The text as it is shown. -/
def shown (w : Wording) : String := String.ofList (w.signs.map Sign.shown)

def length (w : Wording) : Nat := w.signs.length

def isEmpty (w : Wording) : Bool := w.signs.isEmpty

def contains (w : Wording) (c : Char) : Bool := w.signs.contains (.char c)

def join (ws : List Wording) : Wording := ⟨ws.flatMap signs⟩

def intercalate (between : Wording) (ws : List Wording) : Wording :=
  ⟨between.signs.intercalate (ws.map signs)⟩

end Wording

end NovelScript
