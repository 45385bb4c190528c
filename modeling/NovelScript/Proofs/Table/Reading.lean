import NovelScript.Proofs.Instruction.RoundTrip

/-!
# Reading whole tables

A table is a header, a number of records and nothing more. Readers of tables end with the check that
all bytes are passed. `Exhausts` and `Covers` are what `Takes` and `Sound` become for such a reader:
the first says that it gives a result for bytes, the second what the bytes and a result have to do
with each other.
-/

namespace NovelScript

open List Bytes

variable {α β : Type}

theorem exists_forall₂ {R : α → β → Prop} {l : List α} (h : ∀ a ∈ l, ∃ b, R a b) :
    ∃ r, Forall₂ R l r := by
  induction l with
  | nil => exact ⟨[], .nil⟩
  | cons a l ih =>
    obtain ⟨ha, hl⟩ := forall_mem_cons.mp h
    obtain ⟨b, hb⟩ := ha
    obtain ⟨r, hr⟩ := ih hl
    exact ⟨b :: r, .cons hb hr⟩

theorem Bytes.length_flatMap_ofNat (width : Nat) (numbers : List Nat) :
    (numbers.flatMap (Bytes.ofNat width)).length = width * numbers.length := by
  induction numbers with
  | nil => rfl
  | cons n numbers ih =>
    rw [flatMap_cons, length_append, length_ofNat, ih, length_cons,
      Nat.mul_succ, Nat.add_comm]

theorem Bytes.field_flatMap {width : Nat} {numbers : List Nat} {i n : Nat} (rest : Bytes)
    (hi : numbers[i]? = some n) (hn : n < 256 ^ width) :
    Bytes.field (numbers.flatMap (Bytes.ofNat width) ++ rest) (width * i) width = n := by
  induction numbers generalizing i with
  | nil => cases hi
  | cons m numbers ih =>
    rw [flatMap_cons, append_assoc]
    cases i with
    | zero =>
      cases hi
      exact field_head _ hn
    | succ i =>
      rw [Nat.mul_succ, field_tail _ _ (Nat.le_add_left _ _), Nat.add_sub_cancel]
      exact ih hi

/-- The fields of some widths that stand one after another in a record. -/
def fieldsFrom (record : Bytes) : (offset : Nat) → List Nat → List (Nat × Int)
  | _, [] => []
  | offset, width :: widths =>
    (width, record.field offset width) :: fieldsFrom record (offset + width) widths

/-- Fields up to the end of a record are written as it is. -/
theorem putRecord_fieldsFrom (record : Bytes) : ∀ (offset : Nat) (widths : List Nat),
    offset + widths.sum = record.length →
    putRecord (fieldsFrom record offset widths) = .ok (record.drop offset)
  | offset, [], h => by
    rw [sum_nil, Nat.add_zero] at h
    rw [h, drop_length]
    rfl
  | offset, width :: widths, h => by
    rw [sum_cons] at h
    have hlength : ((record.drop offset).take width).length = width := by
      rw [length_take, length_drop]
      omega
    have hlt := toNat_lt ((record.drop offset).take width)
    have hback := ofNat_toNat ((record.drop offset).take width)
    rw [hlength, ← Bytes.field] at hlt hback
    refine putRecord_cons.mpr ⟨⟨Int.natCast_nonneg _, Int.ofNat_lt.mpr hlt⟩, _,
      putRecord_fieldsFrom record (offset + width) widths (by omega), ?_⟩
    rw [Int.toNat_natCast, hback, ← drop_drop, take_append_drop]

namespace Reader

variable {bytes : Bytes}
variable {r : Reader α} {k : α → Reader β} {a : α} {P : Bytes → α → Prop}

/-! ## Bytes that are taken -/

theorem takes_byte (b : UInt8) : Takes byte [b] b.toNat := by
  intro c rest hc
  rw [byte, hc]
  rfl

/-- Eight bytes are a number. -/
theorem takes_double (h : bytes.length = 8) : Takes double bytes ⟨UInt64.ofNat bytes.toNat⟩ :=
  takes_map (fun b : Bytes => (⟨UInt64.ofNat b.toNat⟩ : Binary64)) (takes_take h)

/-- Items are read one by one. -/
theorem takes_repeated {pieces : List Bytes} {values : List α}
    (h : Forall₂ (Takes r) pieces values) :
    Takes (repeated r values.length) pieces.flatten values := by
  induction h with
  | nil => exact takes_pure []
  | cons hhead _ ih => exact takes_bind hhead (takes_map _ ih)

/-- A reader gives a result for all the bytes that are left. -/
def Exhausts (r : Reader α) (bytes : Bytes) (a : α) : Prop :=
  ∀ c : Cursor, c.rest = bytes → c.pos + bytes.length = c.size → ∃ c', r c = .ok a c'

theorem exhausts_finished (version : Int) (a : α) :
    Exhausts (do finished version; return a) [] a := by
  intro c _ hend
  refine ⟨c, runBind_eq_ok.mpr ⟨(), c, ?_, rfl⟩⟩
  rw [finished, if_pos (by simpa using hend)]

/-- A reader that ends the file may follow others. -/
theorem exhausts_bind {bytes' : Bytes} {b : β} (hr : Takes r bytes a)
    (hk : Exhausts (k a) bytes' b) :
    Exhausts (r >>= k) (bytes ++ bytes') b := by
  intro c hc hend
  rw [length_append] at hend
  obtain ⟨c', hc'⟩ := hk { c with pos := c.pos + bytes.length, rest := bytes' } rfl
    (by simp only; omega)
  exact ⟨c', runBind_eq_ok.mpr ⟨a, _, hr c bytes' hc, hc'⟩⟩

/-- A reader that exhausts the file succeeds. -/
theorem Exhausts.runOn (h : Exhausts r bytes a) : r.runOn bytes = .ok a := by
  obtain ⟨c', hc'⟩ := h (Cursor.start bytes) rfl (Nat.zero_add _)
  rw [Reader.runOn, hc']

/-! ## Bytes that were read -/

theorem sound_require (holds : Bool) (fault : Fault) :
    Sound (require holds fault : Reader Unit) fun bytes _ => bytes = [] ∧ holds = true := by
  intro c a c' h
  obtain ⟨hholds, rfl⟩ := runRequire_eq_ok.mp h
  exact ⟨[], rfl, rfl, rfl, hholds⟩

theorem sound_unsigned (n : Nat) : Sound (unsigned n) fun bytes k =>
    bytes.length = n ∧ k = bytes.toNat := by
  refine (sound_map _ (sound_take n)).imp ?_
  rintro bytes k ⟨_, rfl, hlength, rfl⟩
  exact ⟨hlength, rfl⟩

theorem sound_signed (n : Nat) : Sound (signed n) fun bytes k =>
    bytes.length = n ∧ k = bytes.toInt := by
  refine (sound_map _ (sound_take n)).imp ?_
  rintro bytes k ⟨_, rfl, hlength, rfl⟩
  exact ⟨hlength, rfl⟩

theorem sound_double : Sound double fun bytes x =>
    bytes.length = 8 ∧ x = ⟨UInt64.ofNat bytes.toNat⟩ := by
  refine (sound_map _ (sound_take 8)).imp ?_
  rintro bytes x ⟨_, rfl, hlength, rfl⟩
  exact ⟨hlength, rfl⟩

/-- Items that were read were stored one by one. -/
theorem sound_repeated (hr : Sound r P) (n : Nat) :
    Sound (repeated r n) fun bytes values =>
      values.length = n ∧ ∃ pieces, bytes = pieces.flatten ∧ Forall₂ P pieces values := by
  induction n with
  | zero =>
    refine (sound_pure []).imp ?_
    rintro bytes values ⟨rfl, rfl⟩
    exact ⟨rfl, [], rfl, .nil⟩
  | succ n ih =>
    refine (sound_bind hr fun a => sound_map _ ih).imp ?_
    rintro bytes values ⟨a, first, second, rfl, ha, rest, rfl, hlength, pieces, rfl, hpieces⟩
    exact ⟨by rw [length_cons, hlength], first :: pieces, rfl, .cons ha hpieces⟩

/-- All the bytes that are left and the result of a reader have a property, whenever it succeeds. -/
def Covers (r : Reader α) (P : Bytes → α → Prop) : Prop :=
  ∀ c a c', c.pos + c.rest.length = c.size → r c = .ok a c' → P c.rest a

theorem covers_finished (version : Int) (a : α) :
    Covers (do finished version; return a) fun bytes b => bytes = [] ∧ b = a := by
  intro c b c' hc h
  obtain ⟨_, c₁, hfinished, hpure⟩ := of_runBind h
  unfold finished at hfinished
  split at hfinished
  · next hend =>
    refine ⟨length_eq_zero_iff.mp (by omega), (runPure_eq_ok.mp hpure).1⟩
  · cases hfinished

/-- What covers the rest of a file may follow others. -/
theorem covers_bind {Q : α → Bytes → β → Prop} (hr : Sound r P) (hk : ∀ a, Covers (k a) (Q a)) :
    Covers (r >>= k) fun bytes b =>
      ∃ a first second, bytes = first ++ second ∧ P first a ∧ Q a second b := by
  intro c b c' hc h
  obtain ⟨a, c₁, h₁, h₂⟩ := of_runBind h
  obtain ⟨first, hrest, hc₁, hP⟩ := hr c a c₁ h₁
  refine ⟨a, first, c₁.rest, hrest, hP, hk a c₁ b c' ?_ h₂⟩
  rw [hrest, length_append] at hc
  rw [hc₁]
  simp only
  omega

/-- What was read covers the file. -/
theorem Covers.of_runOn (h : Covers r P) (hr : r.runOn bytes = .ok a) : P bytes a := by
  unfold runOn at hr
  split at hr
  · next c' hrun =>
    cases hr
    exact h (Cursor.start bytes) _ c' (Nat.zero_add _) hrun
  · cases hr

end Reader

/-! ## Headers -/

namespace Table

open Reader

variable {size : Nat} {signature : String} {header : Bytes} {version : Int}

/-- What a header of a supported version says. -/
structure IsHeader (size : Nat) (signature : String) (header : Bytes) (version : Int) : Prop where
  length : header.length = size
  starts : header.take 4 = Bytes.ofAscii signature
  states : version = header.field 4 4
  supported : 200 ≤ version ∧ version < 600

/-- A header tells its version. -/
theorem takes_readHeader (name : String) (h : IsHeader size signature header version) :
    Takes (readHeader size signature name none) header (header, version) := by
  have hsupported : isSupportedVersion version = true := by
    simp [isSupportedVersion, h.supported]
  refine takes_last (takes_take h.length) (takes_step (takes_require ?_) ?_)
  · rw [h.starts]
    exact beq_self_eq_true _
  · simp only [chosenVersion, ← h.states]
    exact takes_step (takes_require hsupported) (takes_pure _)

/-- A header that is read has its signature and version. -/
theorem sound_readHeader (size : Nat) (signature name : String) :
    Sound (readHeader size signature name none) fun bytes result =>
      result.1 = bytes ∧ IsHeader size signature bytes result.2 := by
  refine (sound_bind (sound_take size) fun header => sound_bind (sound_require _ _) fun _ =>
    sound_bind (sound_require _ _) fun _ => sound_pure _).imp ?_
  rintro bytes result ⟨header, first, _, rfl, ⟨hlength, rfl⟩, _, _, _, rfl, ⟨rfl, hsignature⟩,
    _, _, _, rfl, ⟨rfl, hsupported⟩, rfl, rfl⟩
  simp only [append_nil]
  exact ⟨trivial, hlength, beq_iff_eq.mp hsignature, rfl,
    by simpa [isSupportedVersion] using hsupported⟩

theorem IsHeader.eq_append (h : IsHeader size signature header version) (hsize : 8 ≤ size) :
    header = Bytes.ofAscii signature ++ Bytes.ofNat 4 version.toNat ++ header.drop 8 := by
  have hfour : ((header.drop 4).take 4).length = 4 := by
    rw [length_take, length_drop, h.length]
    omega
  have hversion : Bytes.ofNat 4 version.toNat = (header.drop 4).take 4 := by
    have hback := ofNat_toNat ((header.drop 4).take 4)
    rwa [hfour, ← Bytes.field, ← Int.toNat_natCast (Bytes.field header 4 4), ← h.states] at hback
  rw [← h.starts, hversion, append_assoc]
  conv_lhs => rw [← take_append_drop 4 header, ← take_append_drop 4 (header.drop 4), drop_drop]

theorem putHeader_ok (signature : String) (h : 200 ≤ version ∧ version < 600) :
    putHeader signature none version
      = .ok (Bytes.ofAscii signature ++ Bytes.ofNat 4 version.toNat) := by
  rw [putHeader, chosenVersion, putUnsigned_ok (by omega)]
  rfl

theorem isHeader_written (h : 200 ≤ version ∧ version < 600)
    (hsignature : (Bytes.ofAscii signature).length = 4) {more : Bytes}
    (hsize : 8 + more.length = size) :
    IsHeader size signature (Bytes.ofAscii signature ++ Bytes.ofNat 4 version.toNat ++ more)
      version where
  length := by
    rw [length_append, length_append, hsignature, length_ofNat]
    omega
  starts := by rw [append_assoc, take_left' hsignature]
  states := by
    rw [append_assoc, field_append _ _ (by omega), hsignature,
      field_head _ (by omega)]
    omega
  supported := h

/-- The number behind the version is the last field of a header. -/
theorem field_written (version : Int) {width count : Nat}
    (hsignature : (Bytes.ofAscii signature).length = 4) (hcount : count < 256 ^ width) :
    Bytes.field (Bytes.ofAscii signature ++ Bytes.ofNat 4 version.toNat ++ Bytes.ofNat width count)
      8 width = count := by
  rw [field_append _ _ (by simp [hsignature]), ← append_nil (Bytes.ofNat width _)]
  have hoffset : 8 - (Bytes.ofAscii signature ++ Bytes.ofNat 4 version.toNat).length = 0 := by
    simp [hsignature]
  rw [hoffset]
  exact field_head [] hcount

end Table

end NovelScript
