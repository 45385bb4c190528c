import NovelScript.Bytes

/-!
# Unicode encodings

Strict readers of UTF-8 and of little-endian UTF-16, and their writers. A reader gives no text at
all if any part of its input is not well formed.
-/

namespace NovelScript.Text

/-! ## UTF-8 -/

/-- The bits of a byte that continues a character. -/
def continuation? (lo hi : UInt8) (b : UInt8) : Option Nat :=
  if lo ≤ b ∧ b ≤ hi then some (b.toNat % 64) else none

def utf8Reverse : List Char → Bytes → Option (List Char)
  | acc, [] => some acc
  | acc, b :: rest =>
    if b < 0x80 then utf8Reverse (Char.ofNat b.toNat :: acc) rest
    else if 0xC2 ≤ b ∧ b ≤ 0xDF then
      match rest with
      | b1 :: rest =>
        match continuation? 0x80 0xBF b1 with
        | some x => utf8Reverse (Char.ofNat (b.toNat % 32 * 64 + x) :: acc) rest
        | none => none
      | [] => none
    else if 0xE0 ≤ b ∧ b ≤ 0xEF then
      match rest with
      | b1 :: b2 :: rest =>
        let lo := if b = 0xE0 then 0xA0 else 0x80
        let hi := if b = 0xED then 0x9F else 0xBF
        match continuation? lo hi b1, continuation? 0x80 0xBF b2 with
        | some x, some y => utf8Reverse (Char.ofNat ((b.toNat % 16 * 64 + x) * 64 + y) :: acc) rest
        | _, _ => none
      | _ => none
    else if 0xF0 ≤ b ∧ b ≤ 0xF4 then
      match rest with
      | b1 :: b2 :: b3 :: rest =>
        let lo := if b = 0xF0 then 0x90 else 0x80
        let hi := if b = 0xF4 then 0x8F else 0xBF
        match continuation? lo hi b1, continuation? 0x80 0xBF b2, continuation? 0x80 0xBF b3 with
        | some x, some y, some z =>
          utf8Reverse (Char.ofNat (((b.toNat % 8 * 64 + x) * 64 + y) * 64 + z) :: acc) rest
        | _, _, _ => none
      | _ => none
    else none

def utf8Decode? (bytes : Bytes) : Option (List Char) :=
  (utf8Reverse [] bytes).map List.reverse

def utf8Encode (cs : List Char) : Bytes :=
  cs.flatMap String.utf8EncodeChar

/-! ## UTF-16 -/

def utf16Reverse : List Char → Bytes → Option (List Char)
  | acc, [] => some acc
  | acc, a :: b :: rest =>
    let unit := a.toNat + 256 * b.toNat
    if unit < 0xD800 ∨ 0xE000 ≤ unit then utf16Reverse (Char.ofNat unit :: acc) rest
    else if unit < 0xDC00 then
      match rest with
      | c :: d :: rest =>
        let low := c.toNat + 256 * d.toNat
        if 0xDC00 ≤ low ∧ low < 0xE000 then
          utf16Reverse (Char.ofNat (0x10000 + (unit - 0xD800) * 0x400 + (low - 0xDC00)) :: acc) rest
        else none
      | _ => none
    else none
  | _, [_] => none

def utf16Decode? (bytes : Bytes) : Option (List Char) :=
  (utf16Reverse [] bytes).map List.reverse

def utf16EncodeChar (c : Char) : Bytes :=
  let n := c.toNat
  if n < 0x10000 then Bytes.ofNat 2 n
  else
    Bytes.ofNat 2 (0xD800 + (n - 0x10000) / 0x400) ++ Bytes.ofNat 2 (0xDC00 + (n - 0x10000) % 0x400)

def utf16Encode (cs : List Char) : Bytes :=
  cs.flatMap utf16EncodeChar

end NovelScript.Text
