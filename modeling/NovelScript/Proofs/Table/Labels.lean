import NovelScript.Proofs.Table.Reading
import NovelScript.Table.Labels

/-!
# Label tables and their index

A label table that was written is read back with its labels in the order of the hashes of their
names. The index in front of them has, for each top byte, the number of labels whose hash has a
smaller one (`getElem?_index`). Since the labels are in the order of their hashes, that is the
position of the first label with the top byte (`countP_le_iff`), and looking a name up from there
finds what looking through all labels would find (`lookUp_eq_findIdx?`).
-/

namespace NovelScript

open List

/-! ## Stable sorting -/

section

variable {α : Type}
variable {key : α → Nat} {items : List α} {j : Nat} {a : α}

/-- The items of a list in the order of a key, those with the same key in their order. -/
structure StablySorted (key : α → Nat) (items sorted : List α) : Prop where
  perm : sorted.Perm items
  ordered : sorted.Pairwise fun a b => key a ≤ key b
  stable : ∀ k, (sorted.filter fun a => key a == k) = items.filter fun a => key a == k

theorem stablySorted_mergeSort (key : α → Nat) (items : List α) :
    StablySorted key items (items.mergeSort fun a b => key a ≤ key b) := by
  have htrans (a b c : α) : decide (key a ≤ key b) = true → decide (key b ≤ key c) = true →
      decide (key a ≤ key c) = true := by
    simp only [decide_eq_true_eq]
    exact Nat.le_trans
  have htotal (a b : α) : (decide (key a ≤ key b) || decide (key b ≤ key a)) = true := by
    simpa using Nat.le_total (key a) (key b)
  have hperm := mergeSort_perm items fun a b => key a ≤ key b
  refine ⟨hperm, ?_, fun k => ?_⟩
  · simpa using pairwise_mergeSort htrans htotal items
  · -- Items with one key are in order from the start, so sorting keeps them as a sublist.
    have hsame : (items.filter fun a => key a == k).Pairwise
        fun a b => decide (key a ≤ key b) = true := by
      refine List.Pairwise.imp_of_mem ?_ (pairwise_of_forall fun _ _ => trivial)
      intro a b ha hb _
      have hka := beq_iff_eq.mp (mem_filter.mp ha).2
      have hkb := beq_iff_eq.mp (mem_filter.mp hb).2
      rw [hka, hkb]
      exact decide_eq_true (Nat.le_refl k)
    have hsublist := sublist_mergeSort htrans htotal hsame filter_sublist
    have hfiltered := hsublist.filter fun a => key a == k
    rw [filter_filter] at hfiltered
    simp only [Bool.and_self] at hfiltered
    exact (hfiltered.eq_of_length (hperm.filter _).length_eq.symm).symm

/-- In the order of a key, the items below a bound come first, so their number is where the others
start. -/
theorem countP_le_iff (bound : Nat) (h : items.Pairwise fun a b => key a ≤ key b)
    (hj : items[j]? = some a) : (items.countP fun b => key b < bound) ≤ j ↔ bound ≤ key a := by
  induction items generalizing j with
  | nil => cases hj
  | cons b items ih =>
    obtain ⟨hb, hrest⟩ := pairwise_cons.mp h
    by_cases hlt : key b < bound
    · rw [countP_cons_of_pos (by simpa using hlt)]
      cases j with
      | zero =>
        cases hj
        omega
      | succ j => rw [Nat.succ_le_succ_iff, ih hrest hj]
    · -- nothing behind a first item that is not below the bound is below it
      have hnone : (b :: items).countP (fun b => key b < bound) = 0 := by
        rw [countP_eq_zero]
        intro c hc
        rcases mem_cons.mp hc with rfl | hc
        · simpa using hlt
        · have hbc := hb c hc
          simp only [decide_eq_true_eq]
          omega
      rw [hnone]
      rcases mem_cons.mp (mem_of_getElem? hj) with rfl | ha
      · omega
      · have hba := hb a ha
        omega

/-- Of keys of four bytes in their order, those with one top byte stand from the number of smaller
ones to the number of those that are not larger. -/
theorem topByte_eq_iff (h : items.Pairwise fun a b => key a ≤ key b)
    (hlt : ∀ a ∈ items, key a < 256 ^ 4) {i : Nat} (hi : i < 256) (hj : items[j]? = some a) :
    key a / 2 ^ 24 = i ↔ (items.countP fun b => key b < i * 2 ^ 24) ≤ j ∧
      j < if i = 255 then items.length else items.countP fun b => key b < (i + 1) * 2 ^ 24 := by
  have hbelow := countP_le_iff (i * 2 ^ 24) h hj
  have hnext := countP_le_iff ((i + 1) * 2 ^ 24) h hj
  have hj' := (List.getElem?_eq_some_iff.mp hj).1
  have ha := hlt a (mem_of_getElem? hj)
  split <;> omega

end

namespace LabelTable

/-! ## The index -/

/-- Each count is that of the hashes with a top byte. -/
theorem getElem?_topByteCounts (hashes : List Nat) {i : Nat} (hi : i < 256) :
    (topByteCounts hashes)[i]? = some (hashes.countP fun h => h / 0x1000000 = i) := by
  suffices h : ∀ (counts : List Nat) (n : Nat), counts[i]? = some n →
      (hashes.foldl (fun counts h => counts.modify (h / 0x1000000) (· + 1)) counts)[i]?
        = some (n + hashes.countP fun h => h / 0x1000000 = i) by
    have hzero := h (replicate 256 0) 0 (by rw [getElem?_replicate, if_pos hi])
    rwa [Nat.zero_add] at hzero
  induction hashes with
  | nil => exact fun counts n hn => hn
  | cons h hashes ih =>
    intro counts n hn
    rw [foldl_cons, countP_cons]
    by_cases htop : h / 0x1000000 = i
    · rw [ih _ (n + 1) (by rw [htop, getElem?_modify_eq, hn]; rfl)]
      simp only [htop, decide_true, if_true]
      congr 1
      omega
    · rw [ih _ n (by rw [getElem?_modify_ne _ _ htop, hn])]
      simp [htop]

theorem length_topByteCounts (hashes : List Nat) : (topByteCounts hashes).length = 256 := by
  suffices h : ∀ counts : List Nat,
      (hashes.foldl (fun counts h => counts.modify (h / 0x1000000) (· + 1)) counts).length
        = counts.length from (h _).trans length_replicate
  induction hashes with
  | nil => exact fun _ => rfl
  | cons h hashes ih =>
    intro counts
    rw [foldl_cons, ih, length_modify]

theorem length_runningSums (start : Nat) (sizes : List Nat) :
    (runningSums start sizes).length = sizes.length := by
  induction sizes generalizing start with
  | nil => rfl
  | cons n rest ih => rw [runningSums, length_cons, ih, length_cons]

theorem length_index (hashes : List Nat) : (index hashes).length = 256 := by
  rw [index, length_runningSums, length_topByteCounts]

theorem getElem?_runningSums {sizes : List Nat} (sum : Nat → Nat)
    (h : ∀ i < sizes.length, sizes[i]? = some (sum (i + 1) - sum i) ∧ sum i ≤ sum (i + 1)) :
    ∀ i < sizes.length, (runningSums (sum 0) sizes)[i]? = some (sum i) := by
  induction sizes generalizing sum with
  | nil => exact fun i hi => absurd hi (Nat.not_lt_zero i)
  | cons n rest ih =>
    intro i hi
    cases i with
    | zero => rfl
    | succ i =>
      have hstart : sum 0 + n = sum 1 := by
        obtain ⟨hn, hle⟩ := h 0 (Nat.succ_pos _)
        obtain rfl : n = sum 1 - sum 0 := Option.some.inj hn
        exact Nat.add_sub_cancel' hle
      rw [runningSums, getElem?_cons_succ, hstart]
      refine ih (fun i => sum (i + 1)) (fun i hi => ?_) i (Nat.lt_of_succ_lt_succ hi)
      exact h (i + 1) (Nat.succ_lt_succ hi)

/-- **An entry of the index.** It is the number of hashes with a smaller top byte. -/
theorem getElem?_index (hashes : List Nat) {i : Nat} (hi : i < 256) :
    (index hashes)[i]? = some (hashes.countP fun h => h < i * 2 ^ 24) := by
  -- Hashes below the next top byte are those below this one and those with this one.
  have hsplit (i : Nat) : hashes.countP (fun h => h < (i + 1) * 2 ^ 24)
      = hashes.countP (fun h => h < i * 2 ^ 24) + hashes.countP fun h => h / 0x1000000 = i := by
    induction hashes with
    | nil => rfl
    | cons h hashes ih =>
      rw [countP_cons, countP_cons, countP_cons, ih]
      simp only [decide_eq_true_eq]
      split <;> split <;> split <;> omega
  have hlength := length_topByteCounts hashes
  have hsums : ∀ i < (topByteCounts hashes).length, (topByteCounts hashes)[i]?
      = some (hashes.countP (fun h => h < (i + 1) * 2 ^ 24)
        - hashes.countP (fun h => h < i * 2 ^ 24)) ∧
      hashes.countP (fun h => h < i * 2 ^ 24) ≤ hashes.countP (fun h => h < (i + 1) * 2 ^ 24) := by
    intro i hi
    rw [getElem?_topByteCounts hashes (by omega), hsplit i]
    exact ⟨congrArg some (by omega), by omega⟩
  have h := getElem?_runningSums (fun i => hashes.countP fun h => h < i * 2 ^ 24) hsums i (by omega)
  simpa [index] using h

end LabelTable

/-! ## One label -/

/-- A label that a table can hold: its name survives the encoding and is short enough, and its
numbers fit their fields. -/
structure Label.Storable (codec : Codec) (l : Label) : Prop where
  name : ∃ bytes, l.name.Survives codec bytes ∧ bytes.length ≤ 255
  position : 0 ≤ l.position ∧ l.position < 256 ^ 4
  script : 0 ≤ l.script ∧ l.script < 256 ^ 2
  ifDepth : 0 ≤ l.ifDepth ∧ l.ifDepth < 256
  loopDepth : 0 ≤ l.loopDepth ∧ l.loopDepth < 256

namespace LabelTable

open Reader

/-- The bytes of a name, or none. -/
def nameBytes (codec : Codec) (name : Wording) : Bytes :=
  (codec.encodeWording name).toOption.getD []

/-- The hash of a name. -/
def nameHash (codec : Codec) (hash : Hash) (name : Wording) : Nat :=
  hash.written (nameBytes codec name)

/-- A label with the hash of its name. -/
def withHash (codec : Codec) (hash : Hash) (l : Label) : Label :=
  { l with hash := nameHash codec hash l.name }

/-- A label as it is written. -/
def hashedFor (codec : Codec) (hash : Hash) (l : Label) : Hashed :=
  ⟨nameBytes codec l.name, nameHash codec hash l.name, l⟩

section

variable {codec : Codec} {l : Label}

theorem nameBytes_of_storable (h : l.Storable codec) :
    codec.encodeWording l.name = .ok (nameBytes codec l.name) ∧
      (nameBytes codec l.name).length ≤ 255 ∧
      ∃ text, codec.decode (nameBytes codec l.name) = .ok text ∧ l.name = .ofString text := by
  obtain ⟨bytes, ⟨text, hname, hencode, hdecode⟩, hshort⟩ := h.name
  have hbytes : nameBytes codec l.name = bytes := by
    rw [nameBytes, hname, Codec.encodeWording_ofString, hencode]
    rfl
  rw [hbytes]
  refine ⟨?_, hshort, text, hdecode, hname⟩
  rw [hname, Codec.encodeWording_ofString, hencode]

theorem hashed_eq (hash : Hash) (h : l.Storable codec) :
    hashed codec hash l = .ok (hashedFor codec hash l) := by
  rw [hashed, (nameBytes_of_storable h).1]
  rfl

/-- **A label is read back with its hash filled in.** -/
theorem takes_readLabel (hash : Hash) (h : l.Storable codec) :
    ∃ bytes, putLabel (hashedFor codec hash l) = .ok bytes ∧
      Takes (readLabel codec hash) bytes (withHash codec hash l) := by
  obtain ⟨-, hshort, text, hdecode, hname⟩ := nameBytes_of_storable h
  generalize hbytes : nameBytes codec l.name = name at hshort hdecode
  have hhash : nameHash codec hash l.name = hash.written name := by rw [nameHash, hbytes]
  have hwritten := hash.written_lt name
  obtain ⟨hposition, hscript, hif, hloop⟩ :=
    And.intro h.position (And.intro h.script (And.intro h.ifDepth h.loopDepth))
  obtain ⟨record, hrecord⟩ : ∃ record, putRecord [(4, (hash.written name : Int)), (4, l.position),
      (2, l.script), (1, l.ifDepth), (1, l.loopDepth)] = .ok record := by
    refine putRecord_ok ?_
    simp only [forall_mem_cons]
    exact ⟨by omega, by omega, by omega, by omega, by omega, by simp⟩
  have hlength : Bytes.unsigned? 1 (name.length : Int) = some [UInt8.ofNat name.length] := by
    refine Bytes.unsigned?_eq_some.mpr ⟨by omega, ?_⟩
    rw [Int.toNat_natCast, Bytes.ofNat, Bytes.ofNat, Nat.mod_eq_of_lt (by omega)]
  refine ⟨[UInt8.ofNat name.length] ++ name ++ record, ?_, ?_⟩
  · simp only [putLabel, hashedFor, hbytes, hhash, hlength, hrecord, orFault, ok_bind, pure_eq_ok]
  · have hfirst : (record.field 0 4 : Int) = hash.written name := field_putRecord hrecord 0 rfl
    have hsecond : (record.field 4 4 : Int) = l.position := field_putRecord hrecord 1 rfl
    have hthird : (record.field 8 2 : Int) = l.script := field_putRecord hrecord 2 rfl
    have hfourth : (record.field 10 1 : Int) = l.ifDepth := field_putRecord hrecord 3 rfl
    have hfifth : (record.field 11 1 : Int) = l.loopDepth := field_putRecord hrecord 4 rfl
    have hstored : record.field 0 4 = hash.written name := Int.ofNat_inj.mp hfirst
    have hbyte : (UInt8.ofNat name.length).toNat = name.length :=
      UInt8.toNat_ofNat_of_lt' (Nat.lt_succ_of_le hshort)
    rw [append_assoc]
    refine takes_bind (takes_byte _) ?_
    rw [hbyte]
    refine takes_bind (takes_take rfl) (takes_last (takes_take (length_putRecord hrecord)) ?_)
    simp only [hstored, hash.mismatch_written]
    refine takes_step (takes_ofExcept hdecode) ?_
    rw [hsecond, hthird, hfourth, hfifth, ← hname, ← hhash]
    exact takes_pure _

end

/-! ## Looking names up -/

/-- Looks a name up as the engine does: the labels are gone through from the position that the index
has for the top byte of the hash. -/
def lookUp (index : Nat → Nat) (labels : List Label) (hash : Nat) (name : Wording) : Option Nat :=
  let first := index (hash / 2 ^ 24)
  ((labels.drop first).findIdx? fun l => l.name == name).map (· + first)

section

variable {index : Nat → Nat} {labels : List Label}
  (hordered : labels.Pairwise fun a b => a.hash ≤ b.hash)
  (hindex : ∀ i < 256, index i = labels.countP fun l => l.hash < i * 2 ^ 24)
include hordered hindex

/-- The index tells where the labels of a top byte stand. -/
theorem topByte_eq_iff_index (hlt : ∀ l ∈ labels, l.hash < 256 ^ 4) {i j : Nat} {l : Label}
    (hi : i < 256) (hj : labels[j]? = some l) :
    l.hash / 2 ^ 24 = i ↔ index i ≤ j ∧ j < if i = 255 then labels.length else index (i + 1) := by
  have hnext : (if i = 255 then labels.length else index (i + 1))
      = if i = 255 then labels.length else labels.countP fun b => b.hash < (i + 1) * 2 ^ 24 := by
    split
    · rfl
    · exact hindex (i + 1) (by omega)
  rw [hindex i hi, hnext]
  exact topByte_eq_iff hordered hlt hi hj

/-- Nothing is missed before the position in the index, since labels of the same name have the same
hash. -/
theorem lookUp_eq_findIdx? {hash : Nat} (hlt : hash < 256 ^ 4) {name : Wording}
    (hhash : ∀ l ∈ labels, l.name = name → l.hash = hash) :
    lookUp index labels hash name = labels.findIdx? fun l => l.name == name := by
  have htop := hindex (hash / 2 ^ 24) (by omega)
  unfold lookUp
  dsimp only
  generalize index (hash / 2 ^ 24) = first at htop
  have hle : first ≤ labels.length := htop ▸ countP_le_length
  have hbefore : (labels.take first).findIdx? (fun l => l.name == name) = none := by
    rw [findIdx?_eq_none_iff]
    intro l hl
    obtain ⟨j, hj⟩ := mem_iff_getElem?.mp hl
    have hearly : j < first := by
      have hlength := (List.getElem?_eq_some_iff.mp hj).1
      rw [length_take] at hlength
      omega
    rw [getElem?_take_of_lt hearly] at hj
    refine beq_false_of_ne fun hname => ?_
    have hsame := hhash l (mem_of_getElem? hj) hname
    have hposition := (countP_le_iff (hash / 2 ^ 24 * 2 ^ 24) hordered hj).mpr
      (by rw [hsame]; exact Nat.div_mul_le_self hash _)
    omega
  conv_rhs => rw [← take_append_drop first labels, findIdx?_append, hbefore]
  rw [length_take, Nat.min_eq_left hle]
  simp

end

theorem exists_findIdx? {labels : List Label} {l : Label} (hl : l ∈ labels) :
    ∃ j found, (labels.findIdx? fun found => found.name == l.name) = some j ∧
      labels[j]? = some found ∧ found.name = l.name := by
  cases hfind : labels.findIdx? fun found => found.name == l.name with
  | none =>
    have hne := findIdx?_eq_none_iff.mp hfind l hl
    exact absurd (beq_self_eq_true l.name) (Bool.eq_false_iff.mp hne)
  | some j =>
    obtain ⟨hj, hname, -⟩ := findIdx?_eq_some_iff_getElem.mp hfind
    exact ⟨j, labels[j], rfl, getElem?_eq_getElem hj, eq_of_beq hname⟩

/-! ## Tables -/

/-- The index that a file stores. -/
def storedIndex (file : Bytes) (i : Nat) : Nat := file.field (12 + 4 * i) 4

/-- The hash that a table of a version goes by, unless another one is given. -/
def hashOf (version : Int) (hash : Option Hash) : Hash :=
  hash.getD (Checksum.ofNames version).value

/-- Labels by their hashes. -/
def inOrder (codec : Codec) (hash : Hash) (labels : List Label) : List Label :=
  labels.mergeSort fun a b => nameHash codec hash a.name ≤ nameHash codec hash b.name

theorem stablySorted_inOrder (codec : Codec) (hash : Hash) (labels : List Label) :
    StablySorted Label.hash (labels.map (withHash codec hash))
      ((inOrder codec hash labels).map (withHash codec hash)) := by
  have hmap : (inOrder codec hash labels).map (withHash codec hash)
      = (labels.map (withHash codec hash)).mergeSort fun a b => a.hash ≤ b.hash :=
    map_mergeSort fun _ _ _ _ => rfl
  rw [hmap]
  exact stablySorted_mergeSort Label.hash _

/-- The bytes of a table. -/
def tableBytes (version : Int) (hashes : List Nat) (pieces : List Bytes) : Bytes :=
  Bytes.ofAscii "YSLB" ++ Bytes.ofNat 4 version.toNat ++ Bytes.ofNat 4 pieces.length ++
    ((index hashes).flatMap (Bytes.ofNat 4) ++ pieces.flatten)

section

variable {version : Int} (hversion : 200 ≤ version ∧ version < 600) {codec : Codec}
  {given : Option Hash} {hash : Hash} (hhash : hashOf version given = hash) {pieces : List Bytes}
include hversion hhash

/-- Labels that can be stored are written in order. -/
theorem write_ok {labels : List Label} (hlabels : ∀ l ∈ labels, l.Storable codec)
    (hcount : labels.length < 256 ^ 4)
    (hpieces : Forall₂ (fun l b => putLabel (hashedFor codec hash l) = .ok b)
      (inOrder codec hash labels) pieces) :
    write codec version none given labels = .ok (tableBytes version
      (((inOrder codec hash labels).map (withHash codec hash)).map Label.hash) pieces) := by
  have hentries : labels.mapM (hashed codec hash) = .ok (labels.map (hashedFor codec hash)) :=
    mapM_ok fun l hl => hashed_eq hash (hlabels l hl)
  -- Sorting by the hash commutes with hashing.
  have hmerge : (inOrder codec hash labels).map (hashedFor codec hash)
      = (labels.map (hashedFor codec hash)).mergeSort fun a b => a.hash ≤ b.hash :=
    map_mergeSort fun _ _ _ _ => rfl
  have hbody : ((inOrder codec hash labels).map (hashedFor codec hash)).mapM putLabel
      = .ok pieces := by
    rw [mapM_eq_ok, forall₂_map_left_iff]
    exact hpieces
  have hhashes : ((inOrder codec hash labels).map (hashedFor codec hash)).map (·.hash)
      = ((inOrder codec hash labels).map (withHash codec hash)).map Label.hash := by
    rw [map_map, map_map]
    rfl
  have hlength : (inOrder codec hash labels).length = pieces.length := hpieces.length_eq
  have hsize : putUnsigned 4 (pieces.length : Int) = .ok (Bytes.ofNat 4 pieces.length) := by
    rw [inOrder, length_mergeSort] at hlength
    exact putUnsigned_ok (by omega)
  change (requireVersion version >>= fun _ =>
    labels.mapM (hashed codec (hashOf version given)) >>= _) = _
  rw [hhash, requireVersion_eq_ok hversion, ok_bind, hentries, ok_bind, ← hmerge]
  dsimp only
  rw [length_map, hlength, Table.putHeader_ok "YSLB" hversion, ok_bind, hsize, ok_bind, hbody,
    ok_bind, hhashes, tableBytes, ← append_assoc, pure_eq_ok]

/-- A table is read back label by label. The index is passed. -/
theorem read_tableBytes (hashes : List Nat) {labels : List Label} (hcount : pieces.length < 256 ^ 4)
    (h : Forall₂ (Takes (readLabel codec hash)) pieces labels) :
    read codec none given (tableBytes version hashes pieces) = .ok ⟨version, labels⟩ := by
  have hheader : Table.IsHeader 12 "YSLB" (Bytes.ofAscii "YSLB" ++ Bytes.ofNat 4 version.toNat ++
      Bytes.ofNat 4 pieces.length) version :=
    Table.isHeader_written hversion (by decide) (by rw [Bytes.length_ofNat])
  have hfield : Bytes.field (Bytes.ofAscii "YSLB" ++ Bytes.ofNat 4 version.toNat ++
      Bytes.ofNat 4 pieces.length) 8 4 = labels.length :=
    (Table.field_written version rfl hcount).trans h.length_eq
  have hindex : ((index hashes).flatMap (Bytes.ofNat 4)).length = 1024 := by
    rw [Bytes.length_flatMap_ofNat, length_index]
  subst hhash
  refine (exhausts_bind (Table.takes_readHeader "YSL" hheader)
    (exhausts_bind (takes_skip hindex) ?_)).runOn
  simp only [hfield]
  rw [← append_nil pieces.flatten]
  exact exhausts_bind (takes_repeated h) (exhausts_finished _ _)

end

theorem storedIndex_tableBytes (version : Int) {labels : List Label} (pieces : List Bytes)
    (hcount : labels.length < 256 ^ 4) {i : Nat} (hi : i < 256) :
    storedIndex (tableBytes version (labels.map Label.hash) pieces) i
      = labels.countP fun l => l.hash < i * 2 ^ 24 := by
  have hhead : (Bytes.ofAscii "YSLB" ++ Bytes.ofNat 4 version.toNat ++
      Bytes.ofNat 4 pieces.length).length = 12 := by simp [Bytes.ofAscii]
  have hentry := getElem?_index (labels.map Label.hash) hi
  rw [countP_map] at hentry
  rw [storedIndex, tableBytes, Bytes.field_append _ _ (by omega), hhead, Nat.add_sub_cancel_left]
  exact Bytes.field_flatMap _ hentry (Nat.lt_of_le_of_lt countP_le_length hcount)

/-- **A label table is read back, and its index leads to every name.** The labels come back in the
order of their hashes, those with the same hash in their old order. The labels with a top byte stand
from its entry in the index to the next one. This holds for every version, codec and hash. -/
theorem read_write_labels {version : Int} (hversion : 200 ≤ version ∧ version < 600) (codec : Codec)
    (hash : Option Hash) {labels : List Label} (hlabels : ∀ l ∈ labels, l.Storable codec)
    (hcount : labels.length < 256 ^ 4) :
    ∃ file sorted,
      write codec version none hash labels = .ok file ∧
      read codec none hash file = .ok ⟨version, sorted⟩ ∧
      StablySorted Label.hash (labels.map (withHash codec (hashOf version hash))) sorted ∧
      (∀ i < 256, storedIndex file i = sorted.countP fun l => l.hash < i * 2 ^ 24) ∧
      (∀ i < 256, ∀ j l, sorted[j]? = some l → (l.hash / 2 ^ 24 = i ↔ storedIndex file i ≤ j ∧
          j < if i = 255 then sorted.length else storedIndex file (i + 1))) ∧
      (∀ name, lookUp (storedIndex file) sorted (nameHash codec (hashOf version hash) name) name
        = sorted.findIdx? fun l => l.name == name) ∧
      ∀ l ∈ labels, ∃ j found,
        lookUp (storedIndex file) sorted (nameHash codec (hashOf version hash) l.name) l.name
          = some j ∧
        sorted[j]? = some found ∧ found.name = l.name := by
  generalize hhash : hashOf version hash = h
  obtain ⟨pieces, hpieces⟩ := exists_forall₂ (l := inOrder codec h labels)
    fun l hl => takes_readLabel h (hlabels l (List.mem_mergeSort.mp hl))
  have hwrite := write_ok hversion hhash hlabels hcount (hpieces.imp fun _ _ hl => hl.1)
  have hpiecesBack : List.Forall₂ (Takes (readLabel codec h)) pieces
      ((inOrder codec h labels).map (withHash codec h)) :=
    List.forall₂_map_right_iff.mpr (hpieces.flip.imp fun _ _ hl => hl.2)
  have hsorted := stablySorted_inOrder codec h labels
  have hfilled : ∀ l ∈ (inOrder codec h labels).map (withHash codec h),
      l.hash = nameHash codec h l.name := List.forall_mem_map.mpr fun _ _ => rfl
  -- From here on only that the labels are sorted and have their hashes counts.
  generalize (inOrder codec h labels).map (withHash codec h) = sorted at *
  have hlength : sorted.length = labels.length := by rw [hsorted.perm.length_eq, List.length_map]
  have hindex : ∀ i < 256, storedIndex (tableBytes version (sorted.map Label.hash) pieces) i
      = sorted.countP fun l => l.hash < i * 2 ^ 24 := fun i hi =>
    storedIndex_tableBytes version pieces (hlength ▸ hcount) hi
  have hread := read_tableBytes hversion hhash (sorted.map Label.hash)
    (by rw [hpiecesBack.length_eq, hlength]; exact hcount) hpiecesBack
  have hlookUp (name : Wording) := lookUp_eq_findIdx? hsorted.ordered hindex
    (show nameHash codec h name < 256 ^ 4 from h.written_lt _)
    fun l hl hname => (hfilled l hl).trans (by rw [hname])
  refine ⟨_, sorted, hwrite, hread, hsorted, hindex, fun i hi j l hl => ?_, hlookUp, fun l hl => ?_⟩
  · exact topByte_eq_iff_index hsorted.ordered hindex
      (fun l hl => hfilled l hl ▸ h.written_lt _) hi hl
  · have hmem : withHash codec h l ∈ sorted := hsorted.perm.mem_iff.mpr (List.mem_map_of_mem hl)
    obtain ⟨j, found, hfind, hfound⟩ := exists_findIdx? hmem
    exact ⟨j, found, (hlookUp l.name).trans hfind, hfound⟩

/-- Two labels of one name around one without a name. -/
def sampleLabels : List Label :=
  [⟨.ofString "b", 5, 1, 0, 0, 0⟩, ⟨.ofString "", 7, 1, 2, 1, 9⟩, ⟨.ofString "a", 8, 0, 0, 0, 0⟩,
   ⟨.ofString "b", 9, 2, 255, 0, 0⟩]

/-- Only the first letter counts. Nothing is known of an empty name. -/
def sampleHash : Hash := fun name => name.head?.map fun b => UInt32.ofNat (b.toNat * 0x2000000)

theorem read_write_labels_sampleLabels :
    (∀ l ∈ sampleLabels, l.Storable Codec.ascii) ∧
    ∃ file sorted,
      write Codec.ascii 500 none (some sampleHash) sampleLabels = .ok file ∧
      read Codec.ascii none (some sampleHash) file = .ok ⟨500, sorted⟩ ∧
      StablySorted Label.hash (sampleLabels.map (withHash Codec.ascii sampleHash)) sorted ∧
      ∀ l ∈ sampleLabels, ∃ j found,
        lookUp (storedIndex file) sorted (nameHash Codec.ascii sampleHash l.name) l.name = some j ∧
        sorted[j]? = some found ∧ found.name = l.name := by
  have hlabels : ∀ l ∈ sampleLabels, l.Storable Codec.ascii := by
    simp only [sampleLabels, List.forall_mem_cons, List.not_mem_nil, false_implies, implies_true,
      and_true]
    refine ⟨⟨⟨[98], ⟨"b", rfl, ?_⟩, ?_⟩, ?_, ?_, ?_, ?_⟩, ⟨⟨[], ⟨"", rfl, ?_⟩, ?_⟩, ?_, ?_, ?_, ?_⟩,
      ⟨⟨[97], ⟨"a", rfl, ?_⟩, ?_⟩, ?_, ?_, ?_, ?_⟩, ⟨⟨[98], ⟨"b", rfl, ?_⟩, ?_⟩, ?_, ?_, ?_, ?_⟩⟩
    all_goals decide +kernel
  obtain ⟨file, sorted, hwrite, hread, hsorted, -, -, -, hfound⟩ :=
    read_write_labels (show (200 : Int) ≤ 500 ∧ (500 : Int) < 600 by decide) Codec.ascii
      (some sampleHash) hlabels (by decide)
  exact ⟨hlabels, file, sorted, hwrite, hread, hsorted, hfound⟩

end LabelTable

end NovelScript
