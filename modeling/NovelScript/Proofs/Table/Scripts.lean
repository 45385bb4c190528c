import NovelScript.Proofs.Table.Reading
import NovelScript.Table.Scripts

/-!
# Script lists and their bytes

A script list is read back as it was written. Each entry has its place in the list as its number,
which the reader counts for itself. The counts of an entry are signed, and there is one more of them
from the version on that counts texts; old lists have no place for a number of texts, so that it
must be zero there.
-/

namespace NovelScript

open List Reader Bytes

/-- An entry at a place of a list whose values fit into their fields and whose path is not changed
by the codec. -/
structure ScriptEntry.Storable (codec : Codec) (version : Int) (place : Nat) (e : ScriptEntry) :
    Prop where
  number : e.number = place
  path : ∃ bytes, codec.encode e.path = .ok bytes ∧ codec.decode bytes = .ok e.path
  time : 0 ≤ e.time ∧ e.time < 2 ^ 64
  variableCount : -2 ^ 31 ≤ e.variableCount ∧ e.variableCount < 2 ^ 31
  labelCount : -2 ^ 31 ≤ e.labelCount ∧ e.labelCount < 2 ^ 31
  textCount : -2 ^ 31 ≤ e.textCount ∧ e.textCount < 2 ^ 31
  noTexts : ScriptList.countsTexts version = false → e.textCount = 0

namespace ScriptList

variable {codec : Codec} {version : Int} {place : Nat} {e : ScriptEntry} {bytes : Bytes}

/-! ## Counts -/

theorem putSigned_ok {n : Int} (h : -2 ^ 31 ≤ n ∧ n < 2 ^ 31) :
    ∃ bytes, putSigned 4 n = .ok bytes :=
  ⟨_, orFault_eq_ok.mpr (signed?_eq_some.mpr ⟨by omega, rfl⟩)⟩

theorem signedField_flatten {numbers : List Int} {pieces : List Bytes}
    (h : numbers.mapM (putSigned 4) = .ok pieces) : pieces.flatten.length = 4 * numbers.length ∧
      ∀ (before : Bytes) {i : Nat} {n : Int}, numbers[i]? = some n →
        Bytes.signedField (before ++ pieces.flatten) (before.length + 4 * i) 4 = n := by
  replace h := mapM_eq_ok.mp h
  induction h with
  | nil => exact ⟨rfl, fun _ _ _ hi => by cases hi⟩
  | @cons m piece numbers pieces hpiece _ ih =>
    have hsigned := orFault_eq_ok.mp hpiece
    have hlength := length_signed? hsigned
    refine ⟨?_, fun before i n hi => ?_⟩
    · rw [flatten_cons, length_append, hlength, ih.1, length_cons, Nat.mul_succ, Nat.add_comm]
    rw [flatten_cons]
    cases i with
    | zero =>
      cases hi
      rw [Bytes.signedField, Nat.mul_zero, Nat.add_zero, drop_left, take_left' hlength]
      exact toInt_signed? hsigned
    | succ i =>
      have hnext := ih.2 (before ++ piece) hi
      rwa [length_append, hlength, append_assoc, Nat.add_assoc, Nat.add_comm 4,
        ← Nat.mul_succ] at hnext

/-! ## Entries -/

/-- The counts of an entry. -/
def counts (version : Int) (e : ScriptEntry) : List Int :=
  [e.variableCount, e.labelCount] ++ if countsTexts version then [e.textCount] else []

theorem fits_of_mem_counts (h : e.Storable codec version place) {n : Int}
    (hn : n ∈ counts version e) : -2 ^ 31 ≤ n ∧ n < 2 ^ 31 := by
  unfold counts at hn
  have hthree : n ∈ [e.variableCount, e.labelCount, e.textCount] := by
    split at hn
    · exact hn
    · exact mem_append_left [e.textCount] hn
  simp only [mem_cons, not_mem_nil, or_false] at hthree
  rcases hthree with rfl | rfl | rfl
  · exact h.variableCount
  · exact h.labelCount
  · exact h.textCount

/-- An entry is its path, its fields and its counts. -/
theorem putEntry_eq_ok : putEntry codec version e = .ok bytes ↔
    ∃ path head time pieces, codec.encode e.path = .ok path ∧
      putRecord [(4, e.number), (4, path.length)] = .ok head ∧ putUnsigned 8 e.time = .ok time ∧
      (counts version e).mapM (putSigned 4) = .ok pieces ∧
      bytes = head ++ path ++ time ++ pieces.flatten := by
  simp only [putEntry, counts, bind_eq_ok, pure_eq_ok, Except.ok.injEq, eq_comm (a := bytes)]
  constructor
  · rintro ⟨path, hpath, head, hhead, time, htime, pieces, hpieces, rfl⟩
    exact ⟨path, head, time, pieces, hpath, hhead, htime, hpieces, rfl⟩
  · rintro ⟨path, head, time, pieces, hpath, hhead, htime, hpieces, rfl⟩
    exact ⟨path, hpath, head, hhead, time, htime, pieces, hpieces, rfl⟩

theorem field_time {time : Bytes} (hfits : 0 ≤ e.time ∧ e.time < 2 ^ 64)
    (htime : putUnsigned 8 e.time = .ok time) (rest : Bytes) :
    ((time ++ rest).field 0 8 : Int) = e.time ∧ time.length = 8 := by
  obtain ⟨-, rfl⟩ := unsigned?_eq_some.mp (orFault_eq_ok.mp htime)
  rw [field_head _ (by omega), Int.toNat_of_nonneg hfits.1]
  exact ⟨rfl, length_ofNat _ _⟩

/-- **An entry is read back.** -/
theorem takes_readEntry (h : e.Storable codec version place)
    (hbytes : putEntry codec version e = .ok bytes) :
    Takes (readEntry codec version place) bytes e := by
  obtain ⟨path, head, time, pieces, hpath, hhead, htime, hpieces, rfl⟩ := putEntry_eq_ok.mp hbytes
  obtain ⟨_, hencode, hdecode⟩ := h.path
  obtain rfl : path = _ := Except.ok.inj (hpath.symm.trans hencode)
  have hnumber : (head.field 0 4 : Int) = e.number := field_putRecord hhead 0 rfl
  have hlength : (head.field 4 4 : Int) = path.length := field_putRecord hhead 1 rfl
  rw [h.number] at hnumber
  obtain ⟨htimeField, htimeLength⟩ := field_time h.time htime pieces.flatten
  obtain ⟨hsize, hcounts⟩ := signedField_flatten hpieces
  replace hcounts {i : Nat} {n : Int} := hcounts time (i := i) (n := n)
  rw [htimeLength] at hcounts
  have hvariables := hcounts (i := 0) rfl
  have hlabels := hcounts (i := 1) rfl
  rw [append_assoc, append_assoc]
  refine takes_bind (takes_take (length_putRecord hhead)) (takes_step (takes_require ?_) ?_)
  · rw [Int.natCast_inj.mp hnumber, beq_self_eq_true]
  refine takes_bind (takes_text (Int.natCast_inj.mp hlength).symm hdecode) ?_
  split
  · next htexts =>
    have hlast := hcounts (i := 2) (n := e.textCount) (by simp [counts, htexts])
    refine takes_last (takes_take ?_) ?_
    · simp [htimeLength, hsize, counts, htexts]
    · rw [htimeField, hvariables, hlabels, hlast, ← h.number]
      exact takes_pure _
  · next htexts =>
    refine takes_last (takes_take ?_) ?_
    · simp [htimeLength, hsize, counts, htexts]
    · rw [htimeField, hvariables, hlabels, ← h.number, ← h.noTexts (Bool.eq_false_iff.mpr htexts)]
      exact takes_pure _

/-! ## Lists -/

theorem putEntry_ok (h : e.Storable codec version place) (hplace : place < 256 ^ 4)
    (hshort : ∀ path, codec.encode e.path = .ok path → path.length < 256 ^ 4) :
    ∃ bytes, putEntry codec version e = .ok bytes := by
  obtain ⟨path, hpath, -⟩ := h.path
  have hlength := hshort path hpath
  obtain ⟨head, hhead⟩ : ∃ head, putRecord [(4, e.number), (4, path.length)] = .ok head := by
    refine putRecord_ok ?_
    simp only [forall_mem_cons, h.number]
    exact ⟨by omega, by omega, by simp⟩
  have htime := h.time
  obtain ⟨pieces, hpieces⟩ := exists_forall₂ fun _ hn => putSigned_ok (fits_of_mem_counts h hn)
  exact ⟨_, putEntry_eq_ok.mpr ⟨path, head, _, pieces, hpath, hhead, putUnsigned_ok (by omega),
    mapM_eq_ok.mpr hpieces, rfl⟩⟩

/-- Entries from a place on are written and read back. -/
theorem takes_readEntries {scripts : List ScriptEntry} (start : Nat)
    (h : ∀ (i : Nat) e, scripts[i]? = some e → e.Storable codec version (start + i))
    (hplaces : start + scripts.length ≤ 256 ^ 4)
    (hshort : ∀ e ∈ scripts, ∀ path, codec.encode e.path = .ok path → path.length < 256 ^ 4) :
    ∃ pieces, scripts.mapM (putEntry codec version) = .ok pieces ∧
      Takes (readEntries codec version start scripts.length) pieces.flatten scripts := by
  induction scripts generalizing start with
  | nil => exact ⟨[], rfl, takes_pure []⟩
  | cons e scripts ih =>
    obtain ⟨heShort, hshort⟩ := forall_mem_cons.mp hshort
    rw [length_cons] at hplaces
    have he : e.Storable codec version start := h 0 e rfl
    obtain ⟨bytes, hbytes⟩ := putEntry_ok he (by omega) heShort
    obtain ⟨pieces, hpieces, htakes⟩ := ih (start + 1)
      (fun i e hi => by rw [Nat.add_right_comm]; exact h (i + 1) e hi) (by omega) hshort
    refine ⟨bytes :: pieces, ?_, takes_bind (takes_readEntry he hbytes) (takes_map _ htakes)⟩
    rw [mapM_eq_ok] at hpieces ⊢
    exact .cons hbytes hpieces

variable {scripts : List ScriptEntry} {file : Bytes}

/-- A list is its header and its entries. -/
theorem write_eq_ok : write codec none none ⟨version, scripts⟩ = .ok file ↔
    (200 ≤ version ∧ version < 600) ∧ scripts.length < 256 ^ 4 ∧
      ∃ pieces, scripts.mapM (putEntry codec version) = .ok pieces ∧
        file = Bytes.ofAscii "YSTL" ++ Bytes.ofNat 4 version.toNat ++
          Bytes.ofNat 4 scripts.length ++
          pieces.flatten := by
  unfold write
  dsimp only [chosenVersion]
  by_cases hversion : 200 ≤ version ∧ version < 600
  · rw [requireVersion_eq_ok hversion, ok_bind, Table.putHeader_ok "YSTL" hversion, ok_bind]
    simp only [bind_eq_ok, putUnsigned, orFault_eq_ok, unsigned?_eq_some, pure_eq_ok,
      Except.ok.injEq]
    constructor
    · rintro ⟨_, ⟨hcount, rfl⟩, pieces, hpieces, rfl⟩
      exact ⟨hversion, by omega, pieces, hpieces, rfl⟩
    · rintro ⟨-, hcount, pieces, hpieces, rfl⟩
      exact ⟨_, ⟨by omega, rfl⟩, pieces, hpieces, rfl⟩
  · refine iff_of_false (fun h => ?_) fun h => hversion h.1
    obtain ⟨_, hsupported, -⟩ := of_bind h
    exact hversion (by simpa [requireVersion, isSupportedVersion] using hsupported)

theorem length_of_putEntry {bytes path : Bytes} (hbytes : putEntry codec version e = .ok bytes)
    (hpath : codec.encode e.path = .ok path) : path.length < 256 ^ 4 := by
  obtain ⟨_, head, -, -, hencode, hhead, -⟩ := putEntry_eq_ok.mp hbytes
  obtain rfl := Except.ok.inj (hpath.symm.trans hencode)
  obtain ⟨-, rest, hrest, -⟩ := putRecord_cons.mp hhead
  exact Int.ofNat_lt.mp (putRecord_cons.mp hrest).1.2

/-- Entries that are taken make the list. -/
theorem read_of_takes (hversion : 200 ≤ version ∧ version < 600) (hcount : scripts.length < 256 ^ 4)
    (h : Takes (readEntries codec version 0 scripts.length) bytes scripts) :
    read codec none (Bytes.ofAscii "YSTL" ++ Bytes.ofNat 4 version.toNat ++
      Bytes.ofNat 4 scripts.length ++ bytes) = .ok ⟨version, scripts⟩ := by
  have hheader : Table.IsHeader 12 "YSTL" (Bytes.ofAscii "YSTL" ++ Bytes.ofNat 4 version.toNat ++
      Bytes.ofNat 4 scripts.length) version :=
    Table.isHeader_written hversion (by decide) (by rw [length_ofNat])
  have hfield : Bytes.field (Bytes.ofAscii "YSTL" ++ Bytes.ofNat 4 version.toNat ++
      Bytes.ofNat 4 scripts.length) 8 4 = scripts.length := Table.field_written version rfl hcount
  refine (exhausts_bind (Table.takes_readHeader "yst_list.ybn" hheader) ?_).runOn
  simp only [hfield]
  rw [← append_nil bytes]
  exact exhausts_bind h (exhausts_finished _ _)

/-- **A script list is read back as it was written.** It can be written exactly if its version is
supported and the number of its entries and the length of each path fit into four bytes. -/
theorem read_write_scripts (codec : Codec) (version : Int) {scripts : List ScriptEntry}
    (h : ∀ (i : Nat) e, scripts[i]? = some e → e.Storable codec version i) :
    ((∃ file, write codec none none ⟨version, scripts⟩ = .ok file) ↔
      (200 ≤ version ∧ version < 600) ∧ scripts.length < 256 ^ 4 ∧
        ∀ e ∈ scripts, ∀ path, codec.encode e.path = .ok path → path.length < 256 ^ 4) ∧
    ∀ file, write codec none none ⟨version, scripts⟩ = .ok file →
      read codec none file = .ok ⟨version, scripts⟩ := by
  have hshort {file : Bytes} (hwrite : write codec none none ⟨version, scripts⟩ = .ok file) :
      ∀ e ∈ scripts, ∀ path, codec.encode e.path = .ok path → path.length < 256 ^ 4 := by
    obtain ⟨-, -, pieces, hpieces, -⟩ := write_eq_ok.mp hwrite
    intro e he path hpath
    obtain ⟨bytes, -, hbytes⟩ := exists_of_mem_forall₂_right (mapM_eq_ok.mp hpieces).flip he
    exact length_of_putEntry hbytes hpath
  refine ⟨⟨fun ⟨file, hwrite⟩ => ?_, fun ⟨hversion, hcount, hpaths⟩ => ?_⟩, fun file hwrite => ?_⟩
  · obtain ⟨hversion, hcount, -⟩ := write_eq_ok.mp hwrite
    exact ⟨hversion, hcount, hshort hwrite⟩
  · obtain ⟨pieces, hpieces, -⟩ := takes_readEntries 0
      (fun i e hi => by rw [Nat.zero_add]; exact h i e hi) (by omega) hpaths
    exact ⟨_, write_eq_ok.mpr ⟨hversion, hcount, pieces, hpieces, rfl⟩⟩
  · obtain ⟨hversion, hcount, pieces, hpieces, rfl⟩ := write_eq_ok.mp hwrite
    obtain ⟨_, hsame, htakes⟩ := takes_readEntries 0
      (fun i e hi => by rw [Nat.zero_add]; exact h i e hi) (by omega) (hshort hwrite)
    obtain rfl := Except.ok.inj (hpieces.symm.trans hsame)
    exact read_of_takes hversion hcount htakes

/-- Entries with the least and the largest values that fit. -/
def sampleScripts : List ScriptEntry :=
  [⟨0, "a/b.yst", 2 ^ 64 - 1, -2 ^ 31, 2 ^ 31 - 1, -1⟩, ⟨1, "", 0, -5, 0, 7⟩]

theorem read_write_scripts_sampleScripts :
    (∀ (i : Nat) e, sampleScripts[i]? = some e → e.Storable Codec.ascii 474 i) ∧
    ∃ file, write Codec.ascii none none ⟨474, sampleScripts⟩ = .ok file ∧
      read Codec.ascii none file = .ok ⟨474, sampleScripts⟩ := by
  have hfirst : Codec.ascii.encode "a/b.yst" = .ok [97, 47, 98, 46, 121, 115, 116] := by
    decide +kernel
  have hsecond : Codec.ascii.encode "" = .ok [] := by decide +kernel
  have hstorable : ∀ (i : Nat) e, sampleScripts[i]? = some e → e.Storable Codec.ascii 474 i := by
    intro i e hi
    rcases i with _ | _ | i
    · cases hi
      exact ⟨rfl, ⟨_, hfirst, by decide +kernel⟩, by decide, by decide, by decide, by decide,
        by decide⟩
    · cases hi
      exact ⟨rfl, ⟨_, hsecond, by decide +kernel⟩, by decide, by decide, by decide, by decide,
        by decide⟩
    · cases hi
  have hshort : ∀ e ∈ sampleScripts, ∀ path, Codec.ascii.encode e.path = .ok path →
      path.length < 256 ^ 4 := by
    simp only [sampleScripts, List.forall_mem_cons]
    refine ⟨fun path h => ?_, fun path h => ?_, by simp⟩
    · cases hfirst.symm.trans h
      decide
    · cases hsecond.symm.trans h
      decide
  obtain ⟨hwrites, hreads⟩ := read_write_scripts Codec.ascii 474 hstorable
  obtain ⟨file, hfile⟩ := hwrites.mpr ⟨by decide, by decide, hshort⟩
  exact ⟨hstorable, file, hfile, hreads file hfile⟩

end ScriptList

end NovelScript
