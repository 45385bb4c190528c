import NovelScript.Bytes

/-!
# Code pages of one and two bytes

A code page maps single bytes, and pairs of a lead and a trail byte, to characters. The pages of two
bytes here are parts of the whole ones: the Japanese page has the ASCII range, half-width and full
katakana, hiragana, Greek, Cyrillic and some signs, the Chinese page four characters. They only
serve as defaults. Whatever reads or writes texts takes its codec as a parameter, and what is proved
of it holds for every codec.
-/

namespace NovelScript.Text

/-- Codes that follow each other, mapped to characters that follow each other. -/
structure CodeRange where
  firstCode : Nat
  firstChar : Nat
  count : Nat

namespace CodeRange

def char? (r : CodeRange) (code : Nat) : Option Char :=
  if r.firstCode ≤ code ∧ code < r.firstCode + r.count then
    some (Char.ofNat (r.firstChar + (code - r.firstCode)))
  else none

def code? (r : CodeRange) (c : Char) : Option Nat :=
  if r.firstChar ≤ c.toNat ∧ c.toNat < r.firstChar + r.count then
    some (r.firstCode + (c.toNat - r.firstChar))
  else none

end CodeRange

/-- A code page: its single bytes, and its pairs as codes with the lead byte on top. -/
structure CodePage where
  single : List CodeRange
  double : List CodeRange

namespace CodePage

/-- The bytes of a character. -/
def encodeChar? (page : CodePage) (c : Char) : Option Bytes :=
  match page.single.findSome? (·.code? c) with
  | some code => some [UInt8.ofNat code]
  | none =>
    (page.double.findSome? (·.code? c)).map fun code =>
      [UInt8.ofNat (code / 256), UInt8.ofNat (code % 256)]

def encode? (page : CodePage) (cs : List Char) : Option Bytes :=
  (cs.mapM page.encodeChar?).map List.flatten

/-- Characters in reverse. -/
def decodeReverse (page : CodePage) : List Char → Bytes → Option (List Char)
  | acc, [] => some acc
  | acc, b :: rest =>
    match page.single.findSome? (·.char? b.toNat) with
    | some c => decodeReverse page (c :: acc) rest
    | none =>
      match rest with
      | [] => none
      | t :: rest =>
        match page.double.findSome? (·.char? (b.toNat * 256 + t.toNat)) with
        | some c => decodeReverse page (c :: acc) rest
        | none => none

def decode? (page : CodePage) (bytes : Bytes) : Option (List Char) :=
  (page.decodeReverse [] bytes).map List.reverse

def ascii : CodePage := ⟨[⟨0, 0, 0x80⟩], []⟩

def latin1 : CodePage := ⟨[⟨0, 0, 0x100⟩], []⟩

def japanese : CodePage where
  single :=
    [⟨0, 0, 0x81⟩, ⟨0xA1, 0xFF61, 63⟩, ⟨0xA0, 0xF8F0, 1⟩, ⟨0xFD, 0xF8F1, 3⟩]
  double :=
    [⟨0x829F, 0x3041, 83⟩, ⟨0x8340, 0x30A1, 63⟩, ⟨0x8380, 0x30E0, 23⟩,
     ⟨0x8140, 0x3000, 3⟩, ⟨0x815B, 0x30FC, 1⟩, ⟨0x8175, 0x300C, 1⟩,
     ⟨0x93FA, 0x65E5, 1⟩, ⟨0x967B, 0x672C, 1⟩, ⟨0x8CEA, 0x8A9E, 1⟩, ⟨0x955C, 0x8868, 1⟩,
     ⟨0x945C, 0x80FD, 1⟩, ⟨0x95CF, 0x5909, 1⟩, ⟨0x9094, 0x6570, 1⟩,
     ⟨0x839F, 0x391, 17⟩, ⟨0x83B0, 0x3A3, 7⟩, ⟨0x83BF, 0x3B1, 17⟩, ⟨0x83D0, 0x3C3, 7⟩,
     ⟨0x8446, 0x401, 1⟩, ⟨0x8440, 0x410, 6⟩, ⟨0x8447, 0x416, 26⟩, ⟨0x8470, 0x430, 6⟩,
     ⟨0x8476, 0x451, 1⟩, ⟨0x8477, 0x436, 8⟩, ⟨0x8480, 0x43E, 18⟩]

def chinese : CodePage where
  single := [⟨0, 0, 0x80⟩]
  double := [⟨0xD6D0, 0x4E2D, 1⟩, ⟨0xCEC4, 0x6587, 1⟩, ⟨0xC4E3, 0x4F60, 1⟩, ⟨0xBAC3, 0x597D, 1⟩]

end CodePage

end NovelScript.Text
