import NovelScript.Proofs.Text.Unicode

/-!
# Bytes that are read are written again

A codec that gives a text for some bytes need not give these bytes for the text: a page may have two
codes for one character. Codecs without such codes are told apart here (`Codec.Reencodes`). The
pages whose codes are the numbers of their characters are among them, and so is UTF-8, since its
reader takes no character in more bytes than it needs.
-/

namespace NovelScript.Text

open List

variable {b b1 : UInt8} {n x : Nat} {acc result : List Char} {bytes : Bytes} {c : Char}

/-! ## Bytes of one character -/

theorem toNat_ofNat_char {v : Nat} (h : v < 0xD800 ∨ 0xDFFF < v ∧ v < 0x110000) :
    (Char.ofNat v).toNat = v := by
  have hvalid : v.isValidChar := h
  rw [Char.ofNat, dif_pos hvalid]
  rfl

theorem ofNat_byte_eq (h : n = b.toNat) : UInt8.ofNat n = b := by
  rw [h, UInt8.ofNat_toNat]

theorem toNat_of_continuation? {lo hi : UInt8} (hlo : 128 ≤ lo.toNat) (hhi : hi.toNat ≤ 191)
    (h : continuation? lo hi b = some x) :
    (b.toNat = x + 128 ∧ x < 64) ∧ lo.toNat ≤ x + 128 ∧ x + 128 ≤ hi.toNat := by
  unfold continuation? at h
  split at h
  · next hrange =>
    rw [UInt8.le_iff_toNat_le, UInt8.le_iff_toNat_le] at hrange
    cases h
    omega
  · cases h

theorem toNat_of_continuation?_ite {first least lo greatest hi : UInt8} (hlo : 128 ≤ lo.toNat)
    (hhi : hi.toNat ≤ 191)
    (h : continuation? (if first = least then lo else 0x80)
      (if first = greatest then hi else 0xBF) b = some x) :
    (b.toNat = x + 128 ∧ x < 64) ∧ (first.toNat = least.toNat → lo.toNat ≤ x + 128) ∧
      (first.toNat = greatest.toNat → x + 128 ≤ hi.toNat) := by
  obtain ⟨hb, hleast, hgreatest⟩ := toNat_of_continuation?
    (by rw [toNat_ite_eq rfl]; split <;> [exact hlo; decide])
    (by rw [toNat_ite_eq rfl]; split <;> [exact hhi; decide]) h
  rw [toNat_ite_eq rfl] at hleast hgreatest
  refine ⟨hb, fun heq => ?_, fun heq => ?_⟩
  · rwa [if_pos heq] at hleast
  · rwa [if_pos heq] at hgreatest

theorem encodeChar_two (hb : 194 ≤ b.toNat ∧ b.toNat ≤ 223) (h1 : b1.toNat = x + 128 ∧ x < 64) :
    String.utf8EncodeChar (Char.ofNat (b.toNat % 32 * 64 + x)) = [b, b1] := by
  have hv : (Char.ofNat (b.toNat % 32 * 64 + x)).val.toNat = b.toNat % 32 * 64 + x :=
    toNat_ofNat_char (by omega)
  unfold String.utf8EncodeChar
  rw [hv]
  dsimp only
  rw [if_neg (by omega), if_pos (by omega), ofNat_byte_eq (b := b) (by omega),
    ofNat_byte_eq (b := b1) (by omega)]

/-- The second byte of three keeps a character out that two bytes are enough for, and halves of
pairs. -/
theorem encodeChar_three {b2 : UInt8} {y : Nat} (hb : 224 ≤ b.toNat ∧ b.toNat ≤ 239)
    (h1 : b1.toNat = x + 128 ∧ x < 64) (hlo : b.toNat = 224 → 160 ≤ x + 128)
    (hhi : b.toNat = 237 → x + 128 ≤ 159) (h2 : b2.toNat = y + 128 ∧ y < 64) :
    String.utf8EncodeChar (Char.ofNat ((b.toNat % 16 * 64 + x) * 64 + y)) = [b, b1, b2] := by
  have hv : (Char.ofNat ((b.toNat % 16 * 64 + x) * 64 + y)).val.toNat =
      (b.toNat % 16 * 64 + x) * 64 + y := toNat_ofNat_char (by omega)
  unfold String.utf8EncodeChar
  rw [hv]
  dsimp only
  rw [if_neg (by omega), if_neg (by omega), if_pos (by omega), ofNat_byte_eq (b := b) (by omega),
    ofNat_byte_eq (b := b1) (by omega), ofNat_byte_eq (b := b2) (by omega)]

/-- The second byte of four keeps a character out that three bytes are enough for, and what is no
character at all. -/
theorem encodeChar_four {b2 b3 : UInt8} {y z : Nat} (hb : 240 ≤ b.toNat ∧ b.toNat ≤ 244)
    (h1 : b1.toNat = x + 128 ∧ x < 64) (hlo : b.toNat = 240 → 144 ≤ x + 128)
    (hhi : b.toNat = 244 → x + 128 ≤ 143) (h2 : b2.toNat = y + 128 ∧ y < 64)
    (h3 : b3.toNat = z + 128 ∧ z < 64) :
    String.utf8EncodeChar (Char.ofNat (((b.toNat % 8 * 64 + x) * 64 + y) * 64 + z)) =
      [b, b1, b2, b3] := by
  have hv : (Char.ofNat (((b.toNat % 8 * 64 + x) * 64 + y) * 64 + z)).val.toNat =
      ((b.toNat % 8 * 64 + x) * 64 + y) * 64 + z := toNat_ofNat_char (by omega)
  unfold String.utf8EncodeChar
  rw [hv]
  dsimp only
  rw [if_neg (by omega), if_neg (by omega), if_neg (by omega), ofNat_byte_eq (b := b) (by omega),
    ofNat_byte_eq (b := b1) (by omega), ofNat_byte_eq (b := b2) (by omega),
    ofNat_byte_eq (b := b3) (by omega)]

theorem encodeChar_one (hb : b.toNat < 128) : String.utf8EncodeChar (Char.ofNat b.toNat) = [b] := by
  have hv : (Char.ofNat b.toNat).val.toNat = b.toNat := toNat_ofNat_char (by omega)
  unfold String.utf8EncodeChar
  rw [hv]
  dsimp only
  rw [if_pos (by omega), ofNat_byte_eq rfl]

/-! ## Texts -/

theorem utf8Encode_reverse_cons (c : Char) (acc : List Char) :
    utf8Encode (c :: acc).reverse = utf8Encode acc.reverse ++ String.utf8EncodeChar c := by
  simp [utf8Encode]

/-- Bytes that are decoded are those of the characters. -/
theorem utf8Encode_of_utf8Reverse (h : utf8Reverse acc bytes = some result) :
    utf8Encode result.reverse = utf8Encode acc.reverse ++ bytes := by
  fun_induction utf8Reverse acc bytes with
  | case1 acc =>
    cases h
    rw [append_nil]
  | case2 acc b rest hb ih =>
    rw [ih h, utf8Encode_reverse_cons, encodeChar_one hb, append_assoc]
    rfl
  | case3 acc b _ hb b1 rest x hx ih =>
    have h1 := (toNat_of_continuation? (by decide) (by decide) hx).1
    rw [ih h, utf8Encode_reverse_cons, encodeChar_two hb h1, append_assoc]
    rfl
  | case6 acc b _ _ hb b1 b2 rest lo hi x y hy hx ih =>
    obtain ⟨h1, hlo, hhi⟩ := toNat_of_continuation?_ite (by decide) (by decide) hx
    have h2 := (toNat_of_continuation? (by decide) (by decide) hy).1
    rw [ih h, utf8Encode_reverse_cons, encodeChar_three hb h1 hlo hhi h2, append_assoc]
    rfl
  | case9 acc b _ _ _ hb b1 b2 b3 rest lo hi x y z hz hy hx ih =>
    obtain ⟨h1, hlo, hhi⟩ := toNat_of_continuation?_ite (by decide) (by decide) hx
    have h2 := (toNat_of_continuation? (by decide) (by decide) hy).1
    have h3 := (toNat_of_continuation? (by decide) (by decide) hz).1
    rw [ih h, utf8Encode_reverse_cons, encodeChar_four hb h1 hlo hhi h2 h3, append_assoc]
    rfl
  | _ => cases h

/-! ## Pages -/

/-- The page of the first characters, whose codes are their numbers. -/
def directPage (n : Nat) : CodePage := ⟨[⟨0, 0, n⟩], []⟩

theorem encodeChar?_of_directPage (hn : n ≤ 0x100)
    (h : (directPage n).single.findSome? (·.char? b.toNat) = some c) :
    (directPage n).encodeChar? c = some [b] := by
  have hchar : (directPage n).single.findSome? (·.char? b.toNat) =
      if b.toNat < n then some (Char.ofNat b.toNat) else none := by
    simp [directPage, CodeRange.char?]
  rw [hchar] at h
  split at h
  · next hlt =>
    cases h
    have hback : (Char.ofNat b.toNat).toNat = b.toNat := toNat_ofNat_char (by omega)
    have hcode : (directPage n).single.findSome? (·.code? (Char.ofNat b.toNat)) = some b.toNat := by
      simp [directPage, CodeRange.code?, hback, hlt]
    rw [CodePage.encodeChar?, hcode]
    simp
  · cases h

theorem encode?_reverse_cons (page : CodePage) {code : Bytes}
    (hacc : page.encode? acc.reverse = some bytes) (hc : page.encodeChar? c = some code) :
    page.encode? (c :: acc).reverse = some (bytes ++ code) := by
  obtain ⟨codes, hcodes, rfl⟩ := Option.map_eq_some_iff.mp hacc
  rw [reverse_cons, CodePage.encode?, mapM_append, hcodes]
  simp [hc]

/-- Characters of a direct page have the bytes that they came from. -/
theorem encode?_of_decodeReverse (hn : n ≤ 0x100) {before : Bytes}
    (h : (directPage n).decodeReverse acc bytes = some result)
    (hacc : (directPage n).encode? acc.reverse = some before) :
    (directPage n).encode? result.reverse = some (before ++ bytes) := by
  induction bytes generalizing acc before with
  | nil =>
    rw [CodePage.decodeReverse] at h
    cases h
    rw [append_nil, hacc]
  | cons b rest ih =>
    rw [CodePage.decodeReverse.eq_def] at h
    dsimp only at h
    split at h
    · next c hc =>
      rw [ih h (encode?_reverse_cons _ hacc (encodeChar?_of_directPage hn hc)), append_assoc,
        singleton_append]
    · -- a direct page has no pairs
      split at h
      · cases h
      · cases h

end NovelScript.Text

namespace NovelScript.Codec

/-- Whatever a codec decodes it encodes as the same bytes. -/
def Reencodes (codec : Codec) : Prop :=
  ∀ bytes s, codec.decode bytes = .ok s → codec.encode s = .ok bytes

/-- A codec reencodes if its tables do. -/
theorem reencodes_ofPartial {encode? : List Char → Option Bytes}
    {decode? : Bytes → Option (List Char)}
    (h : ∀ bytes cs, decode? bytes = some cs → encode? cs = some bytes) :
    (ofPartial encode? decode?).Reencodes := by
  intro bytes s hs
  change (orFault (decode? bytes) _).map String.ofList = .ok s at hs
  cases hcs : decode? bytes with
  | none =>
    rw [hcs] at hs
    cases hs
  | some cs =>
    rw [hcs] at hs
    cases hs
    change orFault (encode? (String.ofList cs).toList) _ = _
    rw [String.toList_ofList, h bytes cs hcs]
    rfl

/-- Unicode bytes are encoded again. -/
theorem reencodes_utf8 : utf8.Reencodes := by
  refine reencodes_ofPartial fun bytes cs h => ?_
  obtain ⟨result, hresult, rfl⟩ := Option.map_eq_some_iff.mp h
  rw [Function.comp_apply, Text.utf8Encode_of_utf8Reverse hresult]
  rfl

/-- So are the bytes of a direct page. -/
theorem reencodes_directPage {n : Nat} (hn : n ≤ 0x100) :
    (ofPage (Text.directPage n)).Reencodes := by
  refine reencodes_ofPartial fun bytes cs h => ?_
  obtain ⟨result, hresult, rfl⟩ := Option.map_eq_some_iff.mp h
  exact Text.encode?_of_decodeReverse hn hresult rfl

theorem reencodes_ascii : ascii.Reencodes := reencodes_directPage (n := 0x80) (by decide)

theorem reencodes_latin1 : latin1.Reencodes := reencodes_directPage (n := 0x100) (by decide)

end NovelScript.Codec
