import NovelScript.Checksum
import NovelScript.Position
import NovelScript.Proofs.Outcome

/-!
# Numbers, records, keys and checksums of byte strings

A number that fits its width is read back from its bytes, with and without sign. A record is its
fields one after another, so that each field is found again at the sum of the widths before it. The
combination with a key is undone by combining once more. A checksum fits four bytes, and the one
that is written is the one that is expected.
-/

namespace NovelScript

open List

variable {b : Bytes} {fields : List (Nat × Int)}

namespace Bytes

variable {width offset count : Nat} {n : Int} {b bytes : Bytes} (rest : Bytes) (key data : Bytes)

/-! ## Numbers -/

/-- A number that fits is read from its bytes. -/
theorem toNat_ofNat : ∀ {width n : Nat}, n < 256 ^ width → toNat (ofNat width n) = n
  | 0, n, h => by
    have hn : n = 0 := by simpa using h
    rw [hn]
    rfl
  | w + 1, n, h => by
    have hdiv : n / 256 < 256 ^ w := Nat.div_lt_of_lt_mul (by rw [Nat.pow_succ'] at h; exact h)
    have hbyte : (UInt8.ofNat (n % 256)).toNat = n % 256 :=
      UInt8.toNat_ofNat_of_lt (Nat.mod_lt _ (by decide))
    rw [ofNat, toNat, toNat_ofNat hdiv, hbyte]
    omega

theorem toNat_lt : ∀ bytes : Bytes, toNat bytes < 256 ^ bytes.length
  | [] => by simp [toNat]
  | b :: rest => by
    have hrest := toNat_lt rest
    have hb := b.toNat_lt
    rw [toNat, length_cons, Nat.pow_succ']
    omega

theorem unsigned?_eq_some :
    unsigned? width n = some b ↔ (0 ≤ n ∧ n < (256 ^ width : Nat)) ∧ b = ofNat width n.toNat := by
  unfold unsigned?
  rw [Nat.pow_eq]
  split
  · next h => rw [Option.some_inj, and_iff_right h, eq_comm]
  · next h => exact ⟨fun hb => absurd hb (by simp), fun hb => absurd hb.1 h⟩

theorem signed?_eq_some :
    signed? width n = some b ↔
      (-((256 ^ width : Nat) : Int) ≤ 2 * n ∧ 2 * n < (256 ^ width : Nat)) ∧
        b = ofNat width (n % ((256 ^ width : Nat) : Int)).toNat := by
  simp only [signed?, Nat.pow_eq]
  split
  · next h => rw [Option.some_inj, and_iff_right h, eq_comm]
  · next h => exact ⟨fun hb => absurd hb (by simp), fun hb => absurd hb.1 h⟩

theorem length_signed? (h : signed? width n = some b) : b.length = width := by
  rw [(signed?_eq_some.mp h).2, length_ofNat]

/-- So is one with a sign. -/
theorem toInt_signed? (h : signed? width n = some b) : toInt b = n := by
  obtain ⟨hfits, rfl⟩ := signed?_eq_some.mp h
  have hpos : 0 < 256 ^ width := Nat.pow_pos (by decide)
  have hrem : 0 ≤ n % ((256 ^ width : Nat) : Int) ∧
      n % ((256 ^ width : Nat) : Int) < (256 ^ width : Nat) :=
    ⟨Int.emod_nonneg _ (by omega), Int.emod_lt_of_pos _ (by omega)⟩
  simp only [toInt, length_ofNat, Nat.pow_eq]
  rw [toNat_ofNat (by omega)]
  -- the remainder is the number itself or, for a negative one, the number plus the modulus
  by_cases hneg : n < 0
  · have hadd : n % ((256 ^ width : Nat) : Int) = n + (256 ^ width : Nat) := by
      rw [← Int.add_emod_right, Int.emod_eq_of_lt (by omega) (by omega)]
    rw [hadd, if_neg (by omega)]
    omega
  · have hsame : n % ((256 ^ width : Nat) : Int) = n := Int.emod_eq_of_lt (by omega) (by omega)
    rw [hsame, if_pos (by omega)]
    omega

/-! ## Fields -/

theorem field_head {n : Nat} (h : n < 256 ^ width) : field (ofNat width n ++ rest) 0 width = n := by
  unfold field
  rw [drop_zero, take_left' (length_ofNat width n), toNat_ofNat h]

/-- A field behind bytes. -/
theorem field_append (count : Nat) (h : bytes.length ≤ offset) :
    field (bytes ++ rest) offset count = field rest (offset - bytes.length) count := by
  unfold field
  rw [drop_append, drop_eq_nil_of_le h, nil_append]

theorem field_append_left (h : offset + count ≤ bytes.length) :
    field (bytes ++ rest) offset count = field bytes offset count := by
  unfold field
  rw [drop_append_of_le_length (by omega),
    take_append_of_le_length (by rw [length_drop]; omega)]

/-- A field between bytes. -/
theorem field_middle (before : Bytes) (after : Bytes) (h : offset + count ≤ bytes.length) :
    field (before ++ bytes ++ after) (before.length + offset) count = field bytes offset count := by
  rw [append_assoc, field_append _ _ (Nat.le_add_right _ _), Nat.add_sub_cancel_left,
    field_append_left after h]

theorem toNat_replicate_zero : ∀ n : Nat, toNat (replicate n 0) = 0
  | 0 => rfl
  | n + 1 => by
    rw [replicate_succ, toNat, toNat_replicate_zero n]
    rfl

theorem field_replicate_zero (n offset count : Nat) : field (replicate n 0) offset count = 0 := by
  rw [field, drop_replicate, take_replicate, toNat_replicate_zero]

theorem field_tail {n : Nat} (count : Nat) (h : width ≤ offset) :
    field (ofNat width n ++ rest) offset count = field rest (offset - width) count := by
  rw [field_append rest count (by rw [length_ofNat]; exact h), length_ofNat]

/-! ## Keys -/

theorem xor_xor_byte (a k : UInt8) : a ^^^ k ^^^ k = a := by
  rw [UInt8.xor_assoc, UInt8.xor_self, UInt8.xor_zero]

theorem cyclicXor_go_go (key left data : Bytes) :
    cyclicXor.go key left (cyclicXor.go key left data) = data := by
  fun_induction cyclicXor.go key left data with
  | case1 => simp [cyclicXor.go]
  | case2 b rest hkey => simp [cyclicXor.go, hkey]
  | case3 b rest k ks hkey ih =>
    subst hkey
    simp only [cyclicXor.go, xor_xor_byte, ih]
  | case4 k ks b rest ih => simp only [cyclicXor.go, xor_xor_byte, ih]

/-- What is hidden twice is open. -/
theorem cyclicXor_cyclicXor : cyclicXor key (cyclicXor key data) = data :=
  cyclicXor_go_go key key data

theorem length_cyclicXor_go (key left data : Bytes) :
    (cyclicXor.go key left data).length = data.length := by
  fun_induction cyclicXor.go key left data with
  | case1 | case2 => rfl
  | case3 b rest k ks hkey ih =>
    subst hkey
    rw [length_cons, length_cons, ih]
  | case4 k ks b rest ih => rw [length_cons, length_cons, ih]

/-- Hiding keeps the length. -/
@[simp] theorem length_cyclicXor : (cyclicXor key data).length = data.length :=
  length_cyclicXor_go key key data

end Bytes

/-! ## Checksums -/

theorem Hash.written_lt (hash : Hash) (data : Bytes) : hash.written data < 256 ^ 4 := by
  unfold Hash.written
  cases hash data with
  | none => decide
  | some h => exact h.toNat_lt

theorem Hash.mismatch_written (hash : Hash) (data : Bytes) :
    hash.mismatch data (hash.written data) = none := by
  unfold Hash.mismatch Hash.written
  cases hash data with
  | none => rfl
  | some h => simp

/-! ## Sizes -/

@[simp] theorem total_eq_sum : ∀ sizes : List Nat, total sizes = sizes.sum
  | [] => rfl
  | n :: rest => by rw [total, sum_cons, total_eq_sum rest]

/-- Pieces with a byte at least are no more than the bytes. -/
theorem length_le_length_flatten {pieces : List Bytes} (h : ∀ piece ∈ pieces, 0 < piece.length) :
    pieces.length ≤ pieces.flatten.length := by
  induction pieces with
  | nil => exact Nat.le_refl 0
  | cons piece rest ih =>
    have hpiece := h piece mem_cons_self
    have hrest := ih fun b hb => h b (mem_cons_of_mem _ hb)
    rw [length_cons, flatten_cons, length_append]
    omega

theorem mapM_length_ok {α : Type} {f : α → Except Fault Bytes} {size : α → Nat} :
    ∀ {l : List α}, (∀ a ∈ l, ∃ b, f a = .ok b ∧ b.length = size a) →
      ∃ chunks, l.mapM f = .ok chunks ∧ chunks.flatten.length = total (l.map size)
  | [], _ => ⟨[], rfl, rfl⟩
  | a :: l, h => by
    obtain ⟨b, hb, hlength⟩ := h a mem_cons_self
    obtain ⟨chunks, hchunks, hlengths⟩ := mapM_length_ok (forall_mem_cons.mp h).2
    refine ⟨b :: chunks, ?_, ?_⟩
    · rw [mapM_cons, hb, ok_bind, hchunks]
      rfl
    · rw [flatten_cons, length_append, hlength, hlengths]
      rfl

/-! ## Records -/

theorem putUnsigned_ok {width : Nat} {n : Int} (h : 0 ≤ n ∧ n < (256 ^ width : Nat)) :
    putUnsigned width n = .ok (Bytes.ofNat width n.toNat) :=
  orFault_eq_ok.mpr (Bytes.unsigned?_eq_some.mpr ⟨h, rfl⟩)

theorem putRecord_nil : putRecord [] = .ok b ↔ b = [] := by
  simp [putRecord, eq_comm]

/-- A record starts with its first field. -/
theorem putRecord_cons {width : Nat} {n : Int} :
    putRecord ((width, n) :: fields) = .ok b ↔
      (0 ≤ n ∧ n < (256 ^ width : Nat)) ∧
        ∃ rest, putRecord fields = .ok rest ∧ b = Bytes.ofNat width n.toNat ++ rest := by
  simp only [putRecord, mapM_cons, putUnsigned, bind_eq_ok, orFault_eq_ok, pure_eq_ok,
    Except.ok.injEq, Bytes.unsigned?_eq_some]
  constructor
  · rintro ⟨_, ⟨_, ⟨hfits, rfl⟩, others, hothers, rfl⟩, rfl⟩
    exact ⟨hfits, _, ⟨others, hothers, rfl⟩, by simp⟩
  · rintro ⟨hfits, _, ⟨others, hothers, rfl⟩, rfl⟩
    exact ⟨_, ⟨_, ⟨hfits, rfl⟩, others, hothers, rfl⟩, by simp⟩

theorem putRecord_append {fields' : List (Nat × Int)} (h : putRecord (fields ++ fields') = .ok b) :
    ∃ head tail, putRecord fields = .ok head ∧ putRecord fields' = .ok tail ∧ b = head ++ tail := by
  induction fields generalizing b with
  | nil => exact ⟨[], b, putRecord_nil.mpr rfl, h, rfl⟩
  | cons field fields ih =>
    obtain ⟨hfits, rest, hrest, rfl⟩ := putRecord_cons.mp h
    obtain ⟨head, tail, hhead, htail, rfl⟩ := ih hrest
    exact ⟨_, tail, putRecord_cons.mpr ⟨hfits, head, hhead, rfl⟩, htail, by simp⟩

/-- The widths of the fields make the length of a record. -/
theorem length_putRecord : ∀ {fields : List (Nat × Int)} {b : Bytes}, putRecord fields = .ok b →
    b.length = (fields.map Prod.fst).sum
  | [], b, h => by simp [putRecord_nil.mp h]
  | (width, n) :: fields, b, h => by
    obtain ⟨-, rest, hrest, rfl⟩ := putRecord_cons.mp h
    simp [length_putRecord hrest]

/-- Each field of a record holds its number. -/
theorem field_putRecord : ∀ {fields : List (Nat × Int)} {b : Bytes}, putRecord fields = .ok b →
    ∀ (i : Nat) {width : Nat} {n : Int}, fields[i]? = some (width, n) →
      (b.field ((fields.take i).map Prod.fst).sum width : Int) = n
  | [], _, _, _, _, _, h => by simp at h
  | (w, m) :: fields, b, hb, 0, width, n, h => by
    obtain ⟨hfits, rest, -, rfl⟩ := putRecord_cons.mp hb
    obtain ⟨rfl, rfl⟩ : w = width ∧ m = n := by simpa using h
    simp only [take_zero, map_nil, sum_nil]
    rw [Bytes.field_head rest (by omega)]
    omega
  | (w, m) :: fields, b, hb, i + 1, width, n, h => by
    obtain ⟨-, rest, hrest, rfl⟩ := putRecord_cons.mp hb
    simp only [take_succ_cons, map_cons, sum_cons]
    rw [Bytes.field_tail rest width (Nat.le_add_right _ _), Nat.add_sub_cancel_left]
    exact field_putRecord hrest i (by simpa using h)

/-- Numbers that fit their fields are written. -/
theorem putRecord_ok : ∀ {fields : List (Nat × Int)},
    (∀ f ∈ fields, 0 ≤ f.2 ∧ f.2 < (256 ^ f.1 : Nat)) → ∃ b, putRecord fields = .ok b
  | [], _ => ⟨[], putRecord_nil.mpr rfl⟩
  | (w, m) :: fields, h => by
    obtain ⟨rest, hrest⟩ := putRecord_ok (forall_mem_cons.mp h).2
    exact ⟨_, putRecord_cons.mpr ⟨h _ mem_cons_self, rest, hrest, rfl⟩⟩

end NovelScript
