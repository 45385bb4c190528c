import NovelScript.Archive.Make
import NovelScript.Archive.Read
import NovelScript.Proofs.Bytes

/-!
# Reading back an archive that was made

An archive is read back entry by entry: names, kinds and sizes are the same, and the data is what
the entry holds when it is not compressed.

The two halves meet at the directory. Scrambled names come back because both tables are their own
inverses (`lengthMapOf_involutive`, `sendThrough_nameMapOf`), and the data of an entry stands where
the directory says because the writer adds up the same sizes that it writes
(`readEntries_directory`). Offsets never reach the limit of the reader: a directory whose size fits
its field is too short for that.
-/

namespace NovelScript.Archive

open List

variable {n size : Nat} {bytes data : Bytes} {name : String} {options : ReadOptions} {version : Int}
  {layout : Layout} (key : UInt8)

/-! ## What is stored -/

/-- Whether the data of an entry is stored compressed: it is given so, or it is to be compressed and
gets shorter by it. -/
def isStoredPacked (compress : Bytes → Bytes) (e : Entry) : Bool :=
  e.packing == -1 || (e.packing == 1 && decide ((compress e.data).length < e.data.length))

/-- The bytes that are stored of an entry. -/
def storedFor (compress : Bytes → Bytes) (e : Entry) : Bytes :=
  if e.packing = 1 ∧ (compress e.data).length < e.data.length then compress e.data else e.data

/-- The data of an entry when it is not compressed. -/
def contentOf (e : Entry) : Bytes :=
  if e.packing = -1 then (Inflate.inflate? e.data).getD [] else e.data

/-- The bytes of a name, or none. -/
def encodedName (codec : Codec) (e : Entry) : Bytes := (codec.encode e.name).toOption.getD []

/-- An entry as it is read back. -/
def restored (compress : Bytes → Bytes) (e : Entry) : Entry :=
  { e with packing := if isStoredPacked compress e then 1 else 0, data := contentOf e }

/-- An entry that an archive can hold. The kind is a byte, the name survives its encoding and is
short enough, and the data has the size given for it, if need be once it is inflated. -/
structure Storable (codec : Codec) (e : Entry) : Prop where
  kind : 0 ≤ e.kind ∧ e.kind < 256
  encodes : codec.encode e.name = .ok (encodedName codec e)
  short : (encodedName codec e).length ≤ 255
  decodes : codec.decode (encodedName codec e) = .ok e.name
  packing : e.packing = -1 ∨ e.packing = 0 ∨ e.packing = 1
  inflates : e.packing = -1 → Inflate.inflate? e.data = some (contentOf e)
  size : ((contentOf e).length : Int) = e.size

/-- How long the directory is. -/
def directorySize (codec : Codec) (version : Int) (entries : List Entry) : Nat :=
  total (entries.map fun e =>
    5 + (encodedName codec e).length + (Layout.ofVersion version).entrySize)

/-- How long the stored data is. -/
def storedSize (compress : Bytes → Bytes) (entries : List Entry) : Nat :=
  total (entries.map fun e => (storedFor compress e).length)

/-- All sizes and offsets of an archive fit their fields. -/
structure Fits (codec : Codec) (compress : Bytes → Bytes) (version : Int) (entries : List Entry) :
    Prop where
  sizes : ∀ e ∈ entries, e.size < (256 ^ 4 : Nat)
  stored : ∀ e ∈ entries, (storedFor compress e).length < 256 ^ 4
  directory : (if headerCounted version then headerSize else 0) +
    directorySize codec version entries < 256 ^ 4
  offsets : ∀ i < entries.length,
    headerSize + directorySize codec version entries + storedSize compress (entries.take i) <
      256 ^ (if (Layout.ofVersion version).wideOffsets then 8 else 4)

/-! ## Tables -/

/-- What a table that exchanges pairs has in the place of a number. -/
def partner (pairs : List (Nat × Nat)) (i : Nat) : Nat :=
  match pairs.find? fun (a, b) => a == i || b == i with
  | some (a, b) => if a == i then b else a
  | none => i

theorem getElem?_exchange (pairs : List (Nat × Nat)) {i : Nat} (h : i < 256) :
    (exchange pairs)[i]? = some (UInt8.ofNat (partner pairs i)) := by
  simp only [exchange, getElem?_map, getElem?_range h, Option.map_some, partner]
  cases pairs.find? fun (a, b) => a == i || b == i <;> rfl

/-- Both tables of lengths exchange bytes in pairs. -/
theorem partner_partner : ∀ own ∈ [[(3, 10), (17, 24), (20, 46)], [(3, 72), (17, 25), (46, 50)]],
    ∀ i < 256, partner (own ++ commonPairs) i < 256 ∧
      partner (own ++ commonPairs) (partner (own ++ commonPairs) i) = i := by
  decide +kernel

theorem lengthMapOf_involutive (version : Int) (h : n < 256) :
    ∃ b : UInt8, (lengthMapOf version)[n]? = some b ∧
      (lengthMapOf version)[b.toNat]? = some (UInt8.ofNat n) := by
  obtain ⟨own, hown, htable⟩ :
      ∃ own ∈ [[(3, 10), (17, 24), (20, 46)], [(3, 72), (17, 25), (46, 50)]],
      lengthMapOf version = exchange (own ++ commonPairs) := by
    unfold lengthMapOf
    split
    · exact ⟨_, mem_cons_self, rfl⟩
    · exact ⟨_, mem_cons_of_mem _ mem_cons_self, rfl⟩
  obtain ⟨hlt, hback⟩ := partner_partner own hown n h
  rw [htable]
  refine ⟨_, getElem?_exchange _ h, ?_⟩
  rw [UInt8.toNat_ofNat_of_lt' hlt, getElem?_exchange _ hlt, hback]

theorem length_xorMap : (xorMap key).length = 256 := by simp [xorMap]

theorem xorMap_getD (key b : UInt8) : (xorMap key).getD b.toNat 0 = b ^^^ key := by
  have hb : b.toNat < 256 := b.toNat_lt
  simp [xorMap, hb]

theorem sendThrough_xorMap (data : Bytes) :
    sendThrough (xorMap key) data = .ok (data.map (· ^^^ key)) := by
  unfold sendThrough
  rw [length_xorMap]
  simp only [xorMap_getD]
  rfl

theorem sendThrough_nameMapOf (version : Int) (name : Bytes) :
    ∃ scrambled, sendThrough (nameMapOf version) name = .ok scrambled ∧
      scrambled.length = name.length ∧ sendThrough (nameMapOf version) scrambled = .ok name := by
  obtain ⟨key, hkey⟩ : ∃ key, nameMapOf version = xorMap key := by
    unfold nameMapOf
    split
    · exact ⟨_, rfl⟩
    · split <;> exact ⟨_, rfl⟩
  rw [hkey]
  refine ⟨_, sendThrough_xorMap key name, length_map _, ?_⟩
  rw [sendThrough_xorMap, map_map]
  exact congrArg Except.ok
    ((map_congr_left fun b _ => Bytes.xor_xor_byte b key).trans (map_id name))

/-- Lengths and bytes of names come back through the tables of a layout. -/
structure Layout.Reversible (layout : Layout) : Prop where
  lengths : ∀ {n : Nat}, n < 256 → ∃ b : UInt8, layout.lengthMap[n]? = some b ∧
    layout.lengthMap[b.toNat]? = some (UInt8.ofNat n)
  names : ∀ name : Bytes, ∃ scrambled, sendThrough layout.nameMap name = .ok scrambled ∧
    scrambled.length = name.length ∧ sendThrough layout.nameMap scrambled = .ok name

/-- The layout of every version can be undone. -/
theorem ofVersion_reversible (version : Int) (nameHash fileHash : Option Hash) :
    (Layout.ofVersion version { nameHash, fileHash }).Reversible where
  lengths := lengthMapOf_involutive version
  names := sendThrough_nameMapOf version

/-! ## One entry -/

theorem splitRecord_append (rest : Bytes) (h : bytes.length = n) :
    splitRecord n (bytes ++ rest) = .ok (bytes, rest) := by
  unfold splitRecord
  rw [if_pos (by rw [length_append]; omega), splitAt_eq, take_left' h,
    drop_left' h]

/-- A name is read back. -/
theorem readName_written (hr : layout.Reversible) {codec : Codec}
    {nameBytes head scrambled : Bytes} {length : UInt8}
    (hlength : layout.lengthMap[nameBytes.length]? = some length) (hshort : nameBytes.length ≤ 255)
    (hhead : putRecord [(4, (layout.nameHash.written nameBytes : Int)),
      (1, (255 - length.toNat : Nat))] = .ok head)
    (hscrambled : sendThrough layout.nameMap nameBytes = .ok scrambled)
    (hdecode : codec.decode nameBytes = .ok name) (rest : Bytes) :
    readName layout codec (head ++ (scrambled ++ rest)) = .ok (name, rest) := by
  have hlen : head.length = 5 := length_putRecord hhead
  have hhash : (head.field 0 4 : Int) = layout.nameHash.written nameBytes :=
    field_putRecord hhead 0 rfl
  have hmark : (head.field 4 1 : Int) = (255 - length.toNat : Nat) := field_putRecord hhead 1 rfl
  -- The length and the name are each sent back by the table that changed them.
  obtain ⟨b, hb, hback⟩ := hr.lengths (show nameBytes.length < 256 by omega)
  obtain rfl : b = length := Option.some.inj (hb.symm.trans hlength)
  obtain ⟨s, hs, hslen, hsback⟩ := hr.names nameBytes
  obtain rfl : s = scrambled := Except.ok.inj (hs.symm.trans hscrambled)
  have hbyte : b.toNat < 256 := b.toNat_lt
  have htable : tableEntry layout.lengthMap b.toNat = .ok nameBytes.length := by
    unfold tableEntry
    rw [hback, Option.map_some, UInt8.toNat_ofNat_of_lt' (Nat.lt_succ_of_le hshort)]
    rfl
  unfold readName
  rw [splitRecord_append _ hlen, ok_bind]
  simp only [show head.field 0 4 = layout.nameHash.written nameBytes by omega,
    show 255 - head.field 4 1 = b.toNat by omega]
  rw [htable, ok_bind]
  simp only [splitAt_eq, take_left' hslen, drop_left' hslen]
  rw [hsback, ok_bind, Hash.mismatch_written, hdecode, ok_bind]
  rfl

theorem unpack_stored {mark : Nat} {stored : Bytes}
    (hdata : if mark = 0 then data = stored else Inflate.inflate? stored = some data)
    (hsize : data.length = size) : unpack true name mark size stored = .ok (mark, data) := by
  unfold unpack
  rw [if_pos rfl]
  by_cases hmark : mark = 0
  · rw [if_pos hmark] at hdata ⊢
    simp [hdata.symm, hsize, require]
  · rw [if_neg hmark] at hdata ⊢
    simp [hdata, hsize, orFault, require]

/-- A prepared entry is handed out as an entry: its name is decoded, its data is unpacked, and the
rest is as it was. -/
structure Prepared.ReadsAs (options : ReadOptions) (p : Prepared) (e : Entry) : Prop where
  short : p.nameBytes.length ≤ 255
  decodes : options.codec.decode p.nameBytes = .ok p.entry.name
  packing : p.entry.packing = 0 ∨ p.entry.packing = 1
  unpacks : ∀ mark size : Nat, (mark : Int) = p.entry.packing → (size : Int) = p.entry.size →
    unpack options.inflates p.entry.name mark size p.entry.data = .ok (e.packing, e.data)
  kept : { p.entry with packing := e.packing, data := e.data } = e

/-- **An entry of the directory is read back.** Its data stands in the file where the directory
says. -/
theorem readEntry_directoryEntry (hr : layout.Reversible) {p : Prepared}
    {e : Entry} (he : p.ReadsAs options e) (file : Bytes) {offset : Nat}
    (hbytes : directoryEntry layout p offset = .ok bytes) (hoffset : offset < 0x8000000000000000)
    (hfile : (file.drop offset).take p.entry.data.length = p.entry.data) (rest : Bytes) :
    readEntry layout options file (bytes ++ rest) = .ok ((e, p.entry.data.length), rest) := by
  obtain ⟨length, hlength, hbytes⟩ := of_bind hbytes
  obtain ⟨head, hhead, hbytes⟩ := of_bind hbytes
  obtain ⟨scrambled, hscrambled, hbytes⟩ := of_bind hbytes
  obtain ⟨record, hrecord, hbytes⟩ := of_bind hbytes
  cases hbytes
  have hrecordLength : record.length = layout.entrySize := by
    rw [length_putRecord hrecord]
    unfold Layout.entrySize
    cases layout.wideOffsets <;> rfl
  have hkind : (record.field 0 1 : Int) = p.entry.kind := field_putRecord hrecord 0 rfl
  have hmark : (record.field 1 1 : Int) = p.entry.packing := field_putRecord hrecord 1 rfl
  have hstated : (record.field 2 4 : Int) = p.entry.size := field_putRecord hrecord 2 rfl
  have hstored : (record.field 6 4 : Int) = p.entry.data.length := field_putRecord hrecord 3 rfl
  have hplace : (record.field 10 (if layout.wideOffsets then 8 else 4) : Int) = offset :=
    field_putRecord hrecord 4 rfl
  have hhash : (record.field (10 + if layout.wideOffsets then 8 else 4) 4 : Int)
      = layout.fileHash.written p.entry.data := by
    simpa [← Nat.add_assoc] using field_putRecord hrecord 5 rfl
  have hdrop : storedData file offset p.entry.data.length = .ok p.entry.data := by
    unfold storedData
    simp [hoffset, hfile, require]
  -- The mark of a stored entry is zero or one.
  have hone : record.field 1 1 ≤ 1 := by
    rcases he.packing with h | h <;> omega
  unfold readEntry
  simp only [append_assoc]
  rw [readName_written hr (orFault_eq_ok.mp hlength) he.short hhead hscrambled he.decodes, ok_bind]
  simp only []
  rw [splitRecord_append _ hrecordLength, ok_bind]
  simp only [show record.field 6 4 = p.entry.data.length by omega,
    show record.field 10 (if layout.wideOffsets then 8 else 4) = offset by omega,
    show record.field (10 + if layout.wideOffsets then 8 else 4) 4
      = layout.fileHash.written p.entry.data by omega]
  rw [hdrop, ok_bind, Hash.mismatch_written]
  simp only [he.unpacks _ _ hmark hstated, ok_bind, hkind, hstated]
  simp [require, hone, he.kept]

/-- **The directory is read back.** The data of the entries stands in the file one after another. -/
theorem readEntries_of_directory (hr : layout.Reversible) (file : Bytes) {prepared : List Prepared}
    {entries : List Entry} (h : Forall₂ (Prepared.ReadsAs options) prepared entries) :
    ∀ {offset : Nat} {bytes : Bytes}, directory layout offset prepared = .ok bytes →
      file.drop offset = prepared.flatMap (fun p => p.entry.data) →
      offset + total (prepared.map fun p => p.entry.data.length) < 0x8000000000000000 →
      readEntries layout options file prepared.length bytes
        = .ok (zipWith (fun p e => (e, p.entry.data.length)) prepared entries) := by
  induction h with
  | nil => intros; rfl
  | @cons p e prepared entries he _ ih =>
    intro offset bytes hbytes hfile hoffset
    obtain ⟨head, hhead, hbytes⟩ := of_bind hbytes
    obtain ⟨tail, htail, hbytes⟩ := of_bind hbytes
    cases hbytes
    rw [map_cons, total] at hoffset
    have hentry := readEntry_directoryEntry hr he file hhead (by omega)
      (by rw [hfile]; exact take_left) tail
    have hdrop : file.drop (offset + p.entry.data.length)
        = prepared.flatMap fun p => p.entry.data := by
      rw [← drop_drop, hfile]
      exact drop_left
    rw [length_cons, readEntries, hentry, ok_bind]
    simp only [ih htail hdrop (by omega), ok_bind]
    rfl

/-! ## Sizes -/

theorem total_le : ∀ {sizes : List Nat}, (∀ s ∈ sizes, s < n) → total sizes ≤ sizes.length * n
  | [], _ => Nat.zero_le _
  | s :: rest, h => by
    have hrest := total_le (forall_mem_cons.mp h).2
    have hhead := h s mem_cons_self
    rw [total, length_cons, Nat.succ_mul]
    omega

theorem le_total : ∀ {sizes : List Nat}, (∀ s ∈ sizes, n ≤ s) → n * sizes.length ≤ total sizes
  | [], _ => Nat.le_refl _
  | s :: rest, h => by
    have hrest := le_total (forall_mem_cons.mp h).2
    have hhead := h s mem_cons_self
    rw [total, length_cons, Nat.mul_succ]
    omega

theorem Layout.entrySize_ge (layout : Layout) : 18 ≤ layout.entrySize := by
  unfold entrySize
  split <;> omega

/-! ## All entries -/

section

variable {codec : Codec} {compress : Bytes → Bytes} {layout : Layout}
variable {e : Entry} {options : ReadOptions} {entries : List Entry} {version : Int}

/-- An entry ready to be written. -/
def preparedFor (codec : Codec) (compress : Bytes → Bytes) (e : Entry) : Prepared where
  entry := { e with
    packing := if isStoredPacked compress e then 1 else 0, data := storedFor compress e }
  nameBytes := encodedName codec e

theorem contentOf_eq_data (h : e.packing ≠ -1) : contentOf e = e.data := if_neg h

theorem storedFor_restores (h : Storable codec e)
    (hcompress : e.packing = 1 → Inflate.inflate? (compress e.data) = some e.data) :
    if isStoredPacked compress e then Inflate.inflate? (storedFor compress e) = some (contentOf e)
    else contentOf e = storedFor compress e := by
  unfold isStoredPacked storedFor
  rcases h.packing with hp | hp | hp
  · simp [hp, h.inflates hp]
  · simp [hp, contentOf_eq_data]
  · by_cases hshorter : (compress e.data).length < e.data.length
    · simp [hp, hshorter, hcompress hp, contentOf_eq_data]
    · simp [hp, hshorter, contentOf_eq_data]

theorem prepare_eq {options : MakeOptions} (hall : options.compressesAll = false)
    (h : Storable options.codec e) :
    prepare options e = .ok (preparedFor options.codec options.compress e) := by
  have hsize : e.packing ≠ -1 → (e.data.length : Int) = e.size := fun hp => by
    rw [← h.size, contentOf_eq_data hp]
  have hpack : pack options e = .ok (preparedFor options.codec options.compress e).entry := by
    unfold pack preparedFor isStoredPacked storedFor requireSize
    rcases h.packing with hp | hp | hp
    · simp [hp]
    · simp [hp, hall, require, hsize]
    · simp only [hp, hall]
      by_cases hshorter : (options.compress e.data).length < e.data.length
      · simp [hshorter, require, ← hsize (by simp [hp])]
      · simp [hshorter, require, ← hsize (by simp [hp])]
  unfold prepare
  rw [hpack, ok_bind]
  show (options.codec.encode e.name >>= _) = _
  rw [h.encodes]
  rfl

/-- A prepared entry is read back. -/
theorem readsAs_preparedFor (hinflates : options.inflates = true) (h : Storable options.codec e)
    (hcompress : e.packing = 1 → Inflate.inflate? (compress e.data) = some e.data) :
    (preparedFor options.codec compress e).ReadsAs options (restored compress e) where
  short := h.short
  decodes := h.decodes
  packing := by unfold preparedFor; split <;> simp
  unpacks := by
    have hcontent := storedFor_restores h hcompress
    have hsize := h.size
    intro mark size hmark hstated
    have hunpack : unpack true e.name mark size (storedFor compress e)
        = .ok ((mark : Int), contentOf e) := by
      refine unpack_stored ?_ (by simp only [preparedFor] at hstated; omega)
      simp only [preparedFor] at hmark
      cases hpacked : isStoredPacked compress e with
      | true =>
        rw [hpacked, if_pos rfl] at hmark hcontent
        rw [if_neg (by omega)]
        exact hcontent
      | false =>
        simp only [hpacked, Bool.false_eq_true, if_false] at hmark hcontent
        rw [if_pos (by omega)]
        exact hcontent
    rw [hinflates]
    refine hunpack.trans ?_
    rw [hmark]
    rfl
  kept := rfl

/-- A directory is read entry by entry. -/
theorem readEntries_directory (hr : layout.Reversible) (hinflates : options.inflates = true)
    (file : Bytes) {offset : Nat} {bytes : Bytes}
    (hbytes : directory layout offset (entries.map (preparedFor options.codec compress)) = .ok
      bytes) (hstorable : ∀ e ∈ entries, Storable options.codec e)
    (hcompress : ∀ e ∈ entries, e.packing = 1 → Inflate.inflate? (compress e.data) = some e.data)
    (hfile : file.drop offset = entries.flatMap (storedFor compress))
    (hoffset : offset + storedSize compress entries < 0x8000000000000000) :
    readEntries layout options file entries.length bytes
      = .ok (entries.map fun e => (restored compress e, (storedFor compress e).length)) := by
  have hread : Forall₂ (Prepared.ReadsAs options)
      (entries.map (preparedFor options.codec compress)) (entries.map (restored compress)) := by
    rw [forall₂_map_left_iff, forall₂_map_right_iff, forall₂_same]
    exact fun e he => readsAs_preparedFor hinflates (hstorable e he) (hcompress e he)
  have h := readEntries_of_directory hr file hread hbytes
    (by rw [hfile, flatMap_map]; rfl) (by rw [map_map]; exact hoffset)
  rw [length_map, zipWith_map, zipWith_self] at h
  exact h

theorem directoryEntry_ok (hr : layout.Reversible) (p : Prepared) (offset : Nat)
    (hkind : 0 ≤ p.entry.kind ∧ p.entry.kind < 256)
    (hpacking : p.entry.packing = 0 ∨ p.entry.packing = 1) (hshort : p.nameBytes.length ≤ 255)
    (hsize : 0 ≤ p.entry.size ∧ p.entry.size < (256 ^ 4 : Nat))
    (hstored : p.entry.data.length < 256 ^ 4)
    (hoffset : offset < 256 ^ (if layout.wideOffsets then 8 else 4)) :
    ∃ bytes, directoryEntry layout p offset = .ok bytes ∧
      bytes.length = 5 + p.nameBytes.length + layout.entrySize := by
  obtain ⟨length, hlength, -⟩ := hr.lengths (Nat.lt_succ_of_le hshort)
  obtain ⟨scrambled, hscrambled, hscrambledLength, -⟩ := hr.names p.nameBytes
  have hnameHash := Hash.written_lt layout.nameHash p.nameBytes
  have hfileHash := Hash.written_lt layout.fileHash p.entry.data
  obtain ⟨head, hhead⟩ : ∃ head, putRecord [(4, (layout.nameHash.written p.nameBytes : Int)),
      (1, (255 - length.toNat : Nat))] = .ok head := by
    refine putRecord_ok ?_
    simp only [forall_mem_cons]
    exact ⟨by omega, by omega, by simp⟩
  obtain ⟨record, hrecord⟩ : ∃ record, putRecord [(1, p.entry.kind), (1, p.entry.packing),
      (4, p.entry.size), (4, (p.entry.data.length : Int)),
      (if layout.wideOffsets then 8 else 4, (offset : Int)),
      (4, (layout.fileHash.written p.entry.data : Int))] = .ok record := by
    refine putRecord_ok ?_
    simp only [forall_mem_cons]
    exact ⟨by omega, by omega, by omega, by omega,
      ⟨Int.natCast_nonneg _, Int.ofNat_lt.mpr hoffset⟩, by omega, by simp⟩
  refine ⟨head ++ scrambled ++ record, ?_, ?_⟩
  · refine bind_eq_ok.mpr ⟨length, orFault_eq_ok.mpr hlength, bind_eq_ok.mpr ⟨head, hhead,
      bind_eq_ok.mpr ⟨scrambled, hscrambled, bind_eq_ok.mpr ⟨record, hrecord, rfl⟩⟩⟩⟩
  · rw [length_append, length_append, length_putRecord hhead, length_putRecord hrecord,
      hscrambledLength, Layout.entrySize]
    cases layout.wideOffsets <;> simp

/-- Entries that fit are written. -/
theorem directory_ok (nameHash fileHash : Option Hash) :
    ∀ {entries : List Entry} (offset : Nat), (∀ e ∈ entries, Storable codec e) →
      (∀ e ∈ entries, e.size < (256 ^ 4 : Nat)) →
      (∀ e ∈ entries, (storedFor compress e).length < 256 ^ 4) →
      (∀ i < entries.length, offset + storedSize compress (entries.take i) <
        256 ^ (if (Layout.ofVersion version).wideOffsets then 8 else 4)) →
      ∃ bytes, directory (Layout.ofVersion version { nameHash, fileHash }) offset
          (entries.map (preparedFor codec compress)) = .ok bytes ∧
        bytes.length = directorySize codec version entries
  | [], _, _, _, _, _ => ⟨[], rfl, rfl⟩
  | e :: rest, offset, hstorable, hsizes, hstored, hoffsets => by
    have he := hstorable e mem_cons_self
    obtain ⟨head, hhead, hheadLength⟩ := directoryEntry_ok
      (ofVersion_reversible version nameHash fileHash) (preparedFor codec compress e) offset he.kind
      (by unfold preparedFor; split <;> simp) he.short
      ⟨he.size ▸ Int.natCast_nonneg _, hsizes e mem_cons_self⟩ (hstored e mem_cons_self)
      (hoffsets 0 (Nat.succ_pos _))
    -- The rest starts behind the data of this entry.
    obtain ⟨tail, htail, htailLength⟩ := directory_ok nameHash fileHash
      (offset + (storedFor compress e).length)
      (forall_mem_cons.mp hstorable).2
      (forall_mem_cons.mp hsizes).2
      (forall_mem_cons.mp hstored).2
      (fun i hi => by
        simpa [storedSize, Nat.add_assoc] using hoffsets (i + 1) (Nat.succ_lt_succ hi))
    refine ⟨head ++ tail, ?_, ?_⟩
    · rw [map_cons, directory, hhead, ok_bind]
      simp only [preparedFor] at htail ⊢
      rw [htail]
      rfl
    · rw [length_append, hheadLength, htailLength]
      simp [directorySize, preparedFor, Layout.entrySize, Layout.ofVersion]

theorem dataOffset_preparedFor (codec : Codec) (compress : Bytes → Bytes) (version : Int)
    (nameHash fileHash : Option Hash) (entries : List Entry) :
    dataOffset (Layout.ofVersion version { nameHash, fileHash })
      (entries.map (preparedFor codec compress)) =
        headerSize + directorySize codec version entries := by
  unfold dataOffset directorySize
  rw [map_map]
  rfl

theorem length_le_directorySize (codec : Codec) (version : Int) (entries : List Entry) :
    23 * entries.length ≤ directorySize codec version entries := by
  have hentry := (Layout.ofVersion version).entrySize_ge
  have h : 23 * (entries.map fun e =>
      5 + (encodedName codec e).length + (Layout.ofVersion version).entrySize).length
      ≤ directorySize codec version entries :=
    le_total (forall_mem_map.mpr fun _ _ => by omega)
  rwa [length_map] at h

/-- Offsets stay below the limit of the reader: every entry takes space in the directory, whose size
is limited, and so is the size of the data of each. -/
theorem dataEnd_lt {prepared : List Prepared}
    (hstored : ∀ p ∈ prepared, p.entry.data.length < 256 ^ 4)
    (hdirectory : dataOffset layout prepared < headerSize + 256 ^ 4) :
    dataOffset layout prepared + total (prepared.map fun p => p.entry.data.length)
      < 0x8000000000000000 := by
  have hentry := layout.entrySize_ge
  have hcount : 23 * (prepared.map fun p => 5 + p.nameBytes.length + layout.entrySize).length
      ≤ total (prepared.map fun p => 5 + p.nameBytes.length + layout.entrySize) :=
    le_total (forall_mem_map.mpr fun _ _ => by omega)
  have hdata := total_le (forall_mem_map.mpr hstored)
  rw [length_map] at hcount hdata
  unfold dataOffset headerSize at *
  omega

theorem offset_lt (h : Fits codec compress version entries) :
    headerSize + directorySize codec version entries + storedSize compress entries
      < 0x8000000000000000 := by
  have hdirectory := h.directory
  have hoffset := dataOffset_preparedFor codec compress version none none entries
  have hlt := dataEnd_lt (forall_mem_map.mpr fun e he => h.stored e he)
    (show dataOffset (Layout.ofVersion version) (entries.map (preparedFor codec compress)) < _ by
      rw [hoffset]; omega)
  rwa [hoffset, map_map] at hlt

end

/-! ## Archives -/

theorem length_signature : signature.length = 4 := by decide

theorem header_ok {count : Nat} (hversion : 0 ≤ version ∧ version < 600) (hcount : count < 256 ^ 4)
    (hsize : (if headerCounted version then headerSize else 0) + size < 256 ^ 4) :
    ∃ head, header version count (headerSize + size) = .ok head ∧
      head.length = headerSize ∧ head.take 4 = signature ∧ head.drop 16 = replicate 16 0 ∧
      (head.field 4 4 : Int) = version ∧ head.field 8 4 = count ∧
      head.field 12 4 = (if headerCounted version then headerSize else 0) + size := by
  have hstated :
      (if headerCounted version then headerSize + size else headerSize + size - headerSize)
      = (if headerCounted version then headerSize else 0) + size := by
    cases headerCounted version <;> simp
  obtain ⟨fields, hfields⟩ : ∃ fields, putRecord [(4, version), (4, (count : Int)),
      (4, (((if headerCounted version then headerSize else 0) + size : Nat) : Int))]
        = .ok fields := by
    refine putRecord_ok ?_
    simp only [forall_mem_cons]
    exact ⟨by omega, by omega, by omega, by simp⟩
  have hlength : fields.length = 12 := length_putRecord hfields
  -- Four bytes of signature stand before the fields.
  have hfield : ∀ offset, offset + 4 ≤ 12 →
      Bytes.field (signature ++ fields ++ replicate 16 0) (4 + offset) 4
        = fields.field offset 4 := by
    intro offset hoffset
    have hmiddle := Bytes.field_middle signature (replicate 16 0)
      (show offset + 4 ≤ fields.length by omega)
    exact hmiddle
  have hfirst : (fields.field 0 4 : Int) = version := field_putRecord hfields 0 rfl
  have hsecond : (fields.field 4 4 : Int) = count := field_putRecord hfields 1 rfl
  have hthird : (fields.field 8 4 : Int) = _ := field_putRecord hfields 2 rfl
  refine ⟨signature ++ fields ++ replicate 16 0, ?_, ?_, ?_, ?_, ?_, ?_, ?_⟩
  · unfold header
    simp only [hstated]
    exact bind_eq_ok.mpr ⟨fields, hfields, rfl⟩
  · simp [length_signature, hlength, headerSize]
  · rw [append_assoc, take_left' length_signature]
  · rw [drop_left' (by rw [length_append, length_signature, hlength])]
  · rw [hfield 0 (by omega), hfirst]
  · rw [show (8 : Nat) = 4 + 4 from rfl, hfield 4 (by omega)]
    omega
  · rw [show (12 : Nat) = 4 + 8 from rfl, hfield 8 (by omega)]
    omega

/-- A file with a header and a directory is read. -/
theorem read_of_header (hversion : 200 ≤ version ∧ version < 600) (hgiven : options.version = none)
    {head directory : Bytes} {entries : List (Entry × Nat)} (hlength : head.length = headerSize)
    (hsignature : head.take 4 = signature) (hpadding : head.drop 16 = replicate 16 0)
    (hfound : (head.field 4 4 : Int) = version)
    (hstated : head.field 12 4 = (if headerCounted version then headerSize else 0) +
      directory.length)
    (hentries : readEntries (Layout.ofVersion version options.choices) options
      (head ++ directory ++ data) (head.field 8 4) directory = .ok entries) :
    read options (head ++ directory ++ data) = .ok ⟨version, entries⟩ := by
  have hchosen : chosenVersion options.version (head.field 4 4) = version := by
    rw [hgiven, hfound]
    rfl
  unfold read
  rw [append_assoc, splitRecord_append _ hlength, ok_bind]
  simp only [hsignature, hpadding, hchosen, hstated, requireVersion_eq_ok hversion,
    Nat.add_sub_cancel_left, take_left]
  rw [append_assoc] at hentries
  simp [require, hentries]

/-- **An archive is read back as it was made.** This holds for every version, codec and choice of
checksums. The packing mark is one exactly for data that was given compressed and for data that gets
shorter by being compressed. -/
theorem read_make {version : Int} (hversion : 200 ≤ version ∧ version < 600) (codec : Codec)
    (nameHash fileHash : Option Hash) (compress : Bytes → Bytes) {entries : List Entry}
    (hstorable : ∀ e ∈ entries, Storable codec e)
    (hcompress : ∀ e ∈ entries, e.packing = 1 → Inflate.inflate? (compress e.data) = some e.data)
    (hfits : Fits codec compress version entries) :
    ∃ file log,
      make { codec, choices := { nameHash, fileHash }, compress } version entries
        = .ok (file, log) ∧
      read { codec, choices := { nameHash, fileHash } } file = .ok
        ⟨version, entries.map fun e => (restored compress e, (storedFor compress e).length)⟩ := by
  have hcount := length_le_directorySize codec version entries
  have hsize := hfits.directory
  obtain ⟨head, hhead, hlength, hsignature, hpadding, hfound, hcounted, hstated⟩ :=
    header_ok (show 0 ≤ version ∧ version < 600 by omega)
      (show entries.length < 256 ^ 4 by omega) hfits.directory
  obtain ⟨bytes, hbytes, hbytesLength⟩ := directory_ok nameHash fileHash
    (headerSize + directorySize codec version entries) hstorable hfits.sizes hfits.stored
    hfits.offsets
  -- The file is the header, the directory and the data.
  obtain ⟨log, hmake⟩ : ∃ log, make { codec, choices := { nameHash, fileHash }, compress } version
      entries = .ok (head ++ bytes ++ entries.flatMap (storedFor compress), log) := by
    unfold make
    rw [requireVersion_eq_ok hversion, ok_bind, mapM_ok fun e he => prepare_eq rfl (hstorable e he),
      ok_bind]
    simp only [dataOffset_preparedFor, List.length_map, hhead, hbytes, ok_bind, List.flatMap_map]
    exact ⟨_, rfl⟩
  refine ⟨_, log, hmake, read_of_header hversion rfl hlength hsignature hpadding hfound
    (hbytesLength ▸ hstated) ?_⟩
  rw [hcounted]
  refine readEntries_directory (ofVersion_reversible version nameHash fileHash) rfl _ hbytes
    hstorable hcompress (List.drop_left' ?_) (offset_lt hfits)
  rw [List.length_append, hlength, hbytesLength]

theorem read_make_three :
    ∃ file log,
      make
        { codec := Codec.ascii
          compress := fun _ => [120, 156, 75, 76, 196, 7, 0, 176, 79, 11, 95] }
        500 [⟨"x.txt", 3, 0, [1, 2], 2⟩, ⟨"y", 255, -1, [120, 156, 3, 0, 0, 0, 0, 1], 0⟩,
          ⟨"z.bmp", 0, 1, List.replicate 30 97, 30⟩] = .ok (file, log) ∧
      read { codec := Codec.ascii } file = .ok ⟨500,
        [(⟨"x.txt", 3, 0, [1, 2], 2⟩, 2), (⟨"y", 255, 1, [], 0⟩, 8),
          (⟨"z.bmp", 0, 1, List.replicate 30 97, 30⟩, 11)]⟩ := by
  have hempty : Inflate.inflate? [120, 156, 3, 0, 0, 0, 0, 1] = some [] := by decide +kernel
  have hcompress : Inflate.inflate? [120, 156, 75, 76, 196, 7, 0, 176, 79, 11, 95]
      = some (List.replicate 30 97) := by decide +kernel
  have hcontent : contentOf ⟨"y", 255, -1, [120, 156, 3, 0, 0, 0, 0, 1], 0⟩ = [] := by
    simp [contentOf, hempty]
  have hstorable : ∀ e ∈ ([⟨"x.txt", 3, 0, [1, 2], 2⟩,
      ⟨"y", 255, -1, [120, 156, 3, 0, 0, 0, 0, 1], 0⟩,
      ⟨"z.bmp", 0, 1, List.replicate 30 97, 30⟩] : List Entry), Storable Codec.ascii e := by
    simp only [List.forall_mem_cons]
    refine ⟨?_, ?_, ?_, by simp⟩
    · constructor <;> decide
    · exact ⟨by decide, by decide, by decide, by decide, by decide,
        fun _ => hempty.trans (by rw [hcontent]), by rw [hcontent]; rfl⟩
    · constructor <;> decide
  have hversion : 200 ≤ (500 : Int) ∧ (500 : Int) < 600 := by decide
  obtain ⟨file, log, hmake, hread⟩ := read_make hversion Codec.ascii none none
    (fun _ => [120, 156, 75, 76, 196, 7, 0, 176, 79, 11, 95]) hstorable
    (by simp [hcompress]) (by constructor <;> decide)
  refine ⟨file, log, hmake, hread.trans ?_⟩
  simp only [List.map_cons, List.map_nil, restored, hcontent]
  rfl

end NovelScript.Archive
