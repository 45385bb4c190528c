import NovelScript.Proofs.Outcome
import NovelScript.Text.Codec

/-!
# UTF-8 is read as it is written

The reader of UTF-8 is strict: the first byte of a character tells how many follow, and the second
one must not make the character shorter than it is written, or half of a pair. What is written for
a character passes these checks, one lemma for each number of bytes, so a text is read as it was.
-/

namespace NovelScript.Text

open List

variable {acc : List Char} {rest : Bytes} {b b1 b2 b3 : UInt8} {x y z : Nat} {n : Nat}

/-! ## Bytes of one character -/

theorem utf8Reverse_one (h : b.toNat < 128) :
    utf8Reverse acc (b :: rest) = utf8Reverse (Char.ofNat b.toNat :: acc) rest := by
  rw [utf8Reverse.eq_def]
  simp only [UInt8.lt_iff_toNat_lt, UInt8.reduceToNat]
  rw [if_pos h]

theorem utf8Reverse_two (h : 194 ≤ b.toNat ∧ b.toNat ≤ 223)
    (hx : continuation? 0x80 0xBF b1 = some x) :
    utf8Reverse acc (b :: b1 :: rest) =
      utf8Reverse (Char.ofNat (b.toNat % 32 * 64 + x) :: acc) rest := by
  rw [utf8Reverse.eq_def]
  simp only [UInt8.lt_iff_toNat_lt, UInt8.le_iff_toNat_le, UInt8.reduceToNat, hx]
  rw [if_neg (by omega), if_pos h]

theorem utf8Reverse_three (h : 224 ≤ b.toNat ∧ b.toNat ≤ 239)
    (hx : continuation? (if b = 0xE0 then 0xA0 else 0x80) (if b = 0xED then 0x9F else 0xBF) b1 =
      some x) (hy : continuation? 0x80 0xBF b2 = some y) :
    utf8Reverse acc (b :: b1 :: b2 :: rest) =
      utf8Reverse (Char.ofNat ((b.toNat % 16 * 64 + x) * 64 + y) :: acc) rest := by
  rw [utf8Reverse.eq_def]
  simp only [UInt8.lt_iff_toNat_lt, UInt8.le_iff_toNat_le, UInt8.reduceToNat, hx, hy]
  rw [if_neg (by omega), if_neg (by omega), if_pos h]

theorem utf8Reverse_four (h : 240 ≤ b.toNat ∧ b.toNat ≤ 244)
    (hx : continuation? (if b = 0xF0 then 0x90 else 0x80) (if b = 0xF4 then 0x8F else 0xBF) b1 =
      some x) (hy : continuation? 0x80 0xBF b2 = some y)
    (hz : continuation? 0x80 0xBF b3 = some z) :
    utf8Reverse acc (b :: b1 :: b2 :: b3 :: rest) =
      utf8Reverse (Char.ofNat (((b.toNat % 8 * 64 + x) * 64 + y) * 64 + z) :: acc) rest := by
  rw [utf8Reverse.eq_def]
  simp only [UInt8.lt_iff_toNat_lt, UInt8.le_iff_toNat_le, UInt8.reduceToNat, hx, hy, hz]
  rw [if_neg (by omega), if_neg (by omega), if_neg (by omega), if_pos h]

/-! ## Characters -/

theorem toNat_ofNat_byte (h : n < 256) : (UInt8.ofNat n).toNat = n := by
  rw [UInt8.toNat_ofNat']
  omega

/-- A continuation byte gives its bits back. -/
theorem continuation?_ofNat {lo hi : UInt8} (hn : n < 64) (hlo : lo.toNat ≤ n + 128)
    (hhi : n + 128 ≤ hi.toNat) : continuation? lo hi (UInt8.ofNat (n + 128)) = some n := by
  have hrange : lo ≤ UInt8.ofNat (n + 128) ∧ UInt8.ofNat (n + 128) ≤ hi := by
    rw [UInt8.le_iff_toNat_le, UInt8.le_iff_toNat_le, toNat_ofNat_byte (by omega)]
    exact ⟨hlo, hhi⟩
  rw [continuation?, if_pos hrange, toNat_ofNat_byte (by omega), Option.some.injEq]
  omega

theorem continuation?_plain (hn : n < 64) :
    continuation? 0x80 0xBF (UInt8.ofNat (n + 128)) = some n := by
  refine continuation?_ofNat hn ?_ ?_
  · show 128 ≤ n + 128
    omega
  · show n + 128 ≤ 191
    omega

theorem toNat_ite_eq {value : UInt8} (hb : b.toNat = n) (lo hi : UInt8) :
    (if b = value then lo else hi).toNat = if n = value.toNat then lo.toNat else hi.toNat := by
  have hsame : b = value ↔ n = value.toNat := by rw [← hb, UInt8.toNat_inj]
  by_cases h : b = value
  · rw [if_pos h, if_pos (hsame.mp h)]
  · rw [if_neg h, if_neg fun heq => h (hsame.mpr heq)]

/-- **The bytes of a character are read as the character.** -/
theorem utf8Reverse_encodeChar (c : Char) (acc : List Char) (rest : Bytes) :
    utf8Reverse acc (String.utf8EncodeChar c ++ rest) = utf8Reverse (c :: acc) rest := by
  have hvalid : c.toNat < 0xD800 ∨ 0xDFFF < c.toNat ∧ c.toNat < 0x110000 := c.valid
  have hback {n : Nat} (h : n = c.toNat) : Char.ofNat n = c := by rw [h, Char.ofNat_toNat]
  have hv : c.val.toNat = c.toNat := rfl
  unfold String.utf8EncodeChar
  rw [hv]
  generalize c.toNat = v at *
  dsimp only
  -- One case for each number of bytes.
  by_cases h1 : v ≤ 127
  · have hb := toNat_ofNat_byte (n := v) (by omega)
    rw [if_pos h1, singleton_append, utf8Reverse_one (by omega), hb, hback rfl]
  by_cases h2 : v ≤ 2047
  · have hb := toNat_ofNat_byte (n := v / 64 % 32 + 192) (by omega)
    rw [if_neg h1, if_pos h2, cons_append, singleton_append,
      utf8Reverse_two (by omega) (continuation?_plain (by omega)), hb, hback (by omega)]
  by_cases h3 : v ≤ 65535
  · have hb := toNat_ofNat_byte (n := v / 4096 % 16 + 224) (by omega)
    have hsecond : continuation? (if UInt8.ofNat (v / 4096 % 16 + 224) = 0xE0 then 0xA0 else 0x80)
        (if UInt8.ofNat (v / 4096 % 16 + 224) = 0xED then 0x9F else 0xBF)
        (UInt8.ofNat (v / 64 % 64 + 128)) = some (v / 64 % 64) := by
      refine continuation?_ofNat (by omega) ?_ ?_ <;> rw [toNat_ite_eq hb] <;>
        simp only [UInt8.reduceToNat] <;> split <;> omega
    rw [if_neg h1, if_neg h2, if_pos h3, cons_append, cons_append, singleton_append,
      utf8Reverse_three (by omega) hsecond (continuation?_plain (by omega)), hb, hback (by omega)]
  · have hb := toNat_ofNat_byte (n := v / 262144 % 8 + 240) (by omega)
    have hsecond : continuation? (if UInt8.ofNat (v / 262144 % 8 + 240) = 0xF0 then 0x90 else 0x80)
        (if UInt8.ofNat (v / 262144 % 8 + 240) = 0xF4 then 0x8F else 0xBF)
        (UInt8.ofNat (v / 4096 % 64 + 128)) = some (v / 4096 % 64) := by
      refine continuation?_ofNat (by omega) ?_ ?_ <;> rw [toNat_ite_eq hb] <;>
        simp only [UInt8.reduceToNat] <;> split <;> omega
    rw [if_neg h1, if_neg h2, if_neg h3, cons_append, cons_append, cons_append,
      singleton_append, utf8Reverse_four (by omega) hsecond (continuation?_plain (by omega))
        (continuation?_plain (by omega)), hb, hback (by omega)]

/-! ## Texts -/

/-- Encoded characters are decoded. -/
theorem utf8Reverse_encode (cs acc : List Char) :
    utf8Reverse acc (utf8Encode cs) = some (cs.reverse ++ acc) := by
  induction cs generalizing acc with
  | nil => rfl
  | cons c cs ih =>
    rw [utf8Encode, flatMap_cons, utf8Reverse_encodeChar]
    rw [utf8Encode] at ih
    rw [ih, reverse_cons, append_assoc, singleton_append]

end NovelScript.Text

namespace NovelScript

/-- A codec gives every text back that it has bytes for. -/
def Codec.Faithful (codec : Codec) : Prop :=
  ∀ s bytes, codec.encode s = .ok bytes → codec.decode bytes = .ok s

/-- Unicode loses no text. -/
theorem Codec.faithful_utf8 : Codec.utf8.Faithful := by
  intro s bytes h
  cases h
  show (orFault (Text.utf8Decode? _) _).map String.ofList = _
  rw [Text.utf8Decode?, Text.utf8Reverse_encode, List.append_nil, Option.map_some,
    List.reverse_reverse]
  simp [orFault, Except.map]

end NovelScript
