import NovelScript.Text.Normal.Class
import NovelScript.Text.Normal.Composition
import NovelScript.Text.Normal.Decomposition

/-!
# Normal form

The same letters can be spelled in several ways: as one character or as a letter and marks, wide or
narrow, styled or plain. The normal form takes characters apart, puts marks in the order of their
classes, and joins what makes one character.
-/

namespace NovelScript.Text

/-! ## Korean syllables -/

def syllableBase : Nat := 0xAC00

def syllableCount : Nat := 11172

def leadBase : Nat := 0x1100

def leadCount : Nat := 19

def vowelBase : Nat := 0x1161

def vowelCount : Nat := 21

def tailBase : Nat := 0x11A7

def tailCount : Nat := 28

def isAmong (first count n : Nat) : Bool := first ≤ n && n < first + count

/-- The letters of a syllable. -/
def syllableLetters (n : Nat) : List Nat :=
  let index := n - syllableBase
  let lead := leadBase + index / (vowelCount * tailCount)
  let vowel := vowelBase + index % (vowelCount * tailCount) / tailCount
  let tail := index % tailCount
  if tail = 0 then [lead, vowel] else [lead, vowel, tailBase + tail]

/-- The Korean syllable of two parts: a consonant and a vowel, or an open syllable and a
consonant. -/
def syllable? (first second : Nat) : Option Nat :=
  if isAmong leadBase leadCount first && isAmong vowelBase vowelCount second then
    some (syllableBase + ((first - leadBase) * vowelCount + (second - vowelBase)) * tailCount)
  else if isAmong syllableBase syllableCount first && (first - syllableBase) % tailCount == 0 &&
      isAmong (tailBase + 1) (tailCount - 1) second then
    some (first + (second - tailBase))
  else none

/-! ## Decomposition -/

/-- What a character is made of, down to `depth` characters that two others make. -/
def decomposedTo : (depth : Nat) → Nat → List Nat
  | 0, n => (decompositions.find? n).getD [n]
  | depth + 1, n =>
    match compositions.find? fun made => made.whole == n with
    | some made => decomposedTo depth made.letter ++ decomposedTo depth made.mark
    | none => (decompositions.find? n).getD [n]

/-- What a character is made of. A letter carries at most three marks. -/
def decomposed (n : Nat) : List Nat :=
  if n < 0x80 then [n]
  else if isAmong syllableBase syllableCount n then syllableLetters n
  else decomposedTo 3 n

/-- The class of a mark; 0 for characters that are no marks or keep their place. -/
def combiningClass (n : Nat) : Nat :=
  if n < 0x300 then 0
  else ((classRanges.find? fun (_, ranges) => ranges.contains n).map Prod.fst).getD 0

/-- Appends a character to characters that are given last first. A mark goes before the marks of
higher classes. -/
def appendOrdered (n : Nat) : List Nat → List Nat
  | [] => [n]
  | last :: before =>
    if 0 < combiningClass n ∧ combiningClass n < combiningClass last then
      last :: appendOrdered n before
    else n :: last :: before

def ordered (points : List Nat) : List Nat :=
  (points.foldl (fun before n => appendOrdered n before) []).reverse

/-! ## Composition -/

def pair? (first second : Nat) : Option Nat :=
  match syllable? first second with
  | some whole => some whole
  | none =>
    (compositions.find? fun made => made.letter == first && made.mark == second).map
      Composition.whole

/-- Joins a character with the marks behind it. `kept` are marks that did not join, last first, and
`highest` is the class of the last one: a mark of that class cannot pass it. -/
def joined (starter : Nat) (kept : List Nat) (highest : Nat) : List Nat → List Nat
  | [] => starter :: kept.reverse
  | n :: rest =>
    let number := combiningClass n
    match if kept.isEmpty || highest < number then pair? starter n else none with
    | some whole => joined whole kept highest rest
    | none =>
      if number = 0 then starter :: (kept.reverse ++ joined n [] 0 rest)
      else joined starter (n :: kept) number rest

/-- Points joined where they can be. -/
def composed : List Nat → List Nat
  | [] => []
  | n :: rest => joined n [] 0 rest

/-- The form that names are compared in. -/
def normalForm (cs : List Char) : List Char :=
  if cs.all fun c => c.toNat < 0x80 then cs
  else (composed (ordered (cs.flatMap fun c => decomposed c.toNat))).map Char.ofNat

end NovelScript.Text
