import NovelScript.Text.Lower.Table

/-!
# Lower case

Names are compared without regard to case. A capital letter becomes its small letter, or two
characters; the Greek sigma has a form of its own at the end of a word.
-/

namespace NovelScript.Text

/-- Whether a cased character follows. -/
def facesCased : List Char → Bool
  | [] => false
  | c :: rest =>
    if passedRanges.contains c.toNat then facesCased rest else casedRanges.contains c.toNat

/-- The small sigma between the characters before it, last first, and those behind it. -/
def lowerSigma (before after : List Char) : Char :=
  if facesCased before && !facesCased after then 'ς' else 'σ'

def lowerChar (c : Char) : List Char :=
  if c.toNat < 0x80 then [c.toLower]
  else ((lowerTable.find? c.toNat).map (·.map Char.ofNat)).getD [c]

/-- The small forms of characters, where `before` holds those before them, last first. -/
def lowerChars (before : List Char) : List Char → List Char
  | [] => []
  | c :: after =>
    (if c = 'Σ' then [lowerSigma before after] else lowerChar c) ++ lowerChars (c :: before) after

/-- A text in lower case. -/
def lower (text : String) : String := String.ofList (lowerChars [] text.toList)

end NovelScript.Text
