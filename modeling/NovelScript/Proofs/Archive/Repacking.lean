import NovelScript.Proofs.Archive.RoundTrip

/-!
# Making an archive again

An archive that is read without inflating its data and made again has the same bytes, whatever the
compressor is: none of the entries that are handed out asks for it.

All that making an archive needs to know of its entries is in their prepared forms, and reading
hands out entries whose prepared forms are the same (`prepare_unopened`). So nothing of the second
run has to be looked at but the preparation (`make_eq_ok`). That the reader accepts the archive
follows from the success of the writer, which has checked that all numbers fit their fields.
-/

namespace NovelScript.Archive

open List

variable {e : Entry} {options : MakeOptions} {p : Prepared} {version : Int} {layout : Layout}

/-! ## Prepared entries -/

namespace Prepared

/-- What preparing an entry makes sure of: the name is encoded, and data that is stored as it is has
the size stated. -/
structure Packed (codec : Codec) (p : Prepared) : Prop where
  encodes : codec.encode p.entry.name = .ok p.nameBytes
  packing : p.entry.packing = 0 ∨ p.entry.packing = 1
  size : p.entry.packing = 0 → (p.entry.data.length : Int) = p.entry.size

/-- The entry that a prepared one is handed out as when its data is not inflated. -/
def unopened (p : Prepared) : Entry :=
  { p.entry with packing := if p.entry.packing = 0 then 0 else -1 }

end Prepared

theorem requireSize_eq_ok {u : Unit} : requireSize e = .ok u ↔ (e.data.length : Int) = e.size := by
  rw [requireSize, require_eq_ok, beq_iff_eq]

/-- **What is stored for an entry.** Only its packing mark and its data change, and only data that
is asked to be compressed and gets shorter. -/
theorem pack_eq_ok {stored : Entry} (h : pack options e = .ok stored) :
    stored.name = e.name ∧ (stored.packing = 0 ∨ stored.packing = 1) ∧
      (stored.packing = 0 → (stored.data.length : Int) = stored.size) := by
  unfold pack at h
  dsimp only at h
  generalize (if e.packing = 0 ∧ options.compressesAll = true then 1 else e.packing) = packing at h
  split at h
  · cases h
    exact ⟨rfl, .inr rfl, fun hzero => absurd hzero Int.one_ne_zero⟩
  · split at h
    · obtain ⟨_, hsize, h⟩ := of_bind h
      cases h
      exact ⟨rfl, .inl rfl, fun _ => requireSize_eq_ok.mp hsize⟩
    · split at h
      · obtain ⟨_, hsize, h⟩ := of_bind h
        split at h
        · cases h
          exact ⟨rfl, .inr rfl, fun hzero => absurd hzero Int.one_ne_zero⟩
        · cases h
          exact ⟨rfl, .inl rfl, fun _ => requireSize_eq_ok.mp hsize⟩
      · cases h

/-- Preparing packs the data and keeps the name. -/
theorem packed_of_prepare (h : prepare options e = .ok p) :
    p.Packed options.codec ∧ p.entry.name = e.name := by
  obtain ⟨stored, hpack, h⟩ := of_bind h
  obtain ⟨bytes, hbytes, h⟩ := of_bind h
  cases h
  obtain ⟨hname, hpacking, hsize⟩ := pack_eq_ok hpack
  exact ⟨⟨hbytes, hpacking, hsize⟩, hname⟩

/-- An entry that is handed out unopened is prepared as it was, without the compressor. -/
theorem prepare_unopened (hall : options.compressesAll = false) (hp : p.Packed options.codec) :
    prepare options p.unopened = .ok p := by
  have hpack : pack options p.unopened = .ok p.entry := by
    obtain ⟨⟨name, kind, packing, data, size⟩, nameBytes⟩ := p
    rcases hp.packing with rfl | rfl
    · have hsize : requireSize ⟨name, kind, 0, data, size⟩ = .ok () :=
        requireSize_eq_ok.mpr (hp.size rfl)
      simp [pack, Prepared.unopened, hall, hsize]
    · simp [pack, Prepared.unopened]
  rw [prepare, hpack, ok_bind, hp.encodes]
  rfl

/-- Without unpacking an entry is read as it is stored. -/
theorem readsAs_unopened {options : ReadOptions} (hinflates : options.inflates = false)
    (hp : p.Packed options.codec) (hshort : p.nameBytes.length ≤ 255)
    (hdecodes : options.codec.decode p.nameBytes = .ok p.entry.name) :
    p.ReadsAs options p.unopened where
  short := hshort
  decodes := hdecodes
  packing := hp.packing
  unpacks := by
    intro mark size hmark _
    have hzero : mark = 0 ↔ p.entry.packing = 0 := by omega
    rw [hinflates, unpack, if_neg Bool.false_ne_true]
    simp only [hzero, Prepared.unopened]
  kept := rfl

/-! ## What a writer that succeeds has checked -/

/-- **The steps of making an archive.** After the preparation nothing depends on the entries. -/
theorem make_eq_ok {entries : List Entry} {file : Bytes} {log : String} :
    make options version entries = .ok (file, log) ↔
      (requireVersion version : Except Fault Unit) = .ok () ∧
      ∃ prepared, entries.mapM (prepare options) = .ok prepared ∧
      ∃ head bytes,
        header version prepared.length
          (dataOffset (Layout.ofVersion version options.choices) prepared) = .ok head ∧
        directory (Layout.ofVersion version options.choices)
          (dataOffset (Layout.ofVersion version options.choices) prepared) prepared = .ok bytes ∧
        file = head ++ bytes ++ prepared.flatMap (fun p => p.entry.data) ∧
        log = String.join (prepared.map fun p => logLine p.entry p.entry.data.length) ++
          "writing\n" := by
  simp only [make, bind_eq_ok, pure_eq_ok, Except.ok.injEq, Prod.mk.injEq]
  constructor
  · rintro ⟨_, hversion, prepared, hprepared, head, hhead, bytes, hbytes, rfl, rfl⟩
    exact ⟨hversion, prepared, hprepared, head, bytes, hhead, hbytes, rfl, rfl⟩
  · rintro ⟨hversion, prepared, hprepared, head, bytes, hhead, hbytes, rfl, rfl⟩
    exact ⟨(), hversion, prepared, hprepared, head, hhead, bytes, hbytes, rfl, rfl⟩

theorem supported_of_requireVersion (h : (requireVersion version : Except Fault Unit) = .ok ()) :
    200 ≤ version ∧ version < 600 := by
  rw [requireVersion, require_eq_ok] at h
  simpa [isSupportedVersion] using h

/-- A header that can be written has room for the number of entries and the size of the
directory. -/
theorem header_fits {count size : Nat} {head : Bytes}
    (h : header version count (headerSize + size) = .ok head) :
    count < 256 ^ 4 ∧ (if headerCounted version then headerSize else 0) + size < 256 ^ 4 := by
  obtain ⟨fields, hfields, -⟩ := of_bind h
  obtain ⟨-, fields, hfields, -⟩ := putRecord_cons.mp hfields
  obtain ⟨hcount, fields, hfields, -⟩ := putRecord_cons.mp hfields
  obtain ⟨hsize, -⟩ := putRecord_cons.mp hfields
  refine ⟨by omega, ?_⟩
  cases hcounted : headerCounted version with
  | true =>
    simp only [hcounted, if_true] at hsize ⊢
    omega
  | false =>
    simp only [hcounted, Bool.false_eq_true, if_false] at hsize ⊢
    omega

theorem directoryEntry_fits (hr : layout.Reversible) (htable : layout.lengthMap.length = 256)
    {offset : Nat} {bytes : Bytes} (h : directoryEntry layout p offset = .ok bytes) :
    p.nameBytes.length ≤ 255 ∧ p.entry.data.length < 256 ^ 4 ∧
      bytes.length = 5 + p.nameBytes.length + layout.entrySize := by
  obtain ⟨length, hlength, h⟩ := of_bind h
  obtain ⟨head, hhead, h⟩ := of_bind h
  obtain ⟨scrambled, hscrambled, h⟩ := of_bind h
  obtain ⟨record, hrecord, h⟩ := of_bind h
  cases h
  have hshort := (List.getElem?_eq_some_iff.mp (orFault_eq_ok.mp hlength)).1
  have hstored : (record.field 6 4 : Int) = p.entry.data.length := field_putRecord hrecord 3 rfl
  have hlt : record.field 6 4 < 256 ^ 4 := by
    refine Nat.lt_of_lt_of_le (Bytes.toNat_lt _) (Nat.pow_le_pow_right (by decide) ?_)
    exact length_take_le _ _
  obtain ⟨s, hs, hslength, -⟩ := hr.names p.nameBytes
  obtain rfl : s = scrambled := Except.ok.inj (hs.symm.trans hscrambled)
  refine ⟨by omega, by omega, ?_⟩
  rw [length_append, length_append, length_putRecord hhead, length_putRecord hrecord,
    hslength, Layout.entrySize]
  cases layout.wideOffsets <;> simp

/-- A directory that can be written has room for all names and data, and is as long as its entries
say. -/
theorem directory_fits (hr : layout.Reversible) (htable : layout.lengthMap.length = 256) :
    ∀ {prepared : List Prepared} {offset : Nat} {bytes : Bytes},
      directory layout offset prepared = .ok bytes →
      (∀ p ∈ prepared, p.nameBytes.length ≤ 255 ∧ p.entry.data.length < 256 ^ 4) ∧
        headerSize + bytes.length = dataOffset layout prepared
  | [], _, _, h => by
    cases h
    exact ⟨by simp, rfl⟩
  | p :: rest, offset, bytes, h => by
    obtain ⟨head, hhead, h⟩ := of_bind h
    obtain ⟨tail, htail, h⟩ := of_bind h
    cases h
    obtain ⟨hshort, hdata, hlength⟩ := directoryEntry_fits hr htable hhead
    obtain ⟨hrest, htailLength⟩ := directory_fits hr htable htail
    refine ⟨forall_mem_cons.mpr ⟨⟨hshort, hdata⟩, hrest⟩, ?_⟩
    rw [dataOffset] at htailLength ⊢
    rw [length_append, hlength, map_cons, total]
    omega

theorem length_lengthMapOf (version : Int) : (lengthMapOf version).length = 256 := by
  unfold lengthMapOf exchange
  split <;> simp

/-! ## Archives -/

/-- **An archive that was made is made again from what is read.** The data is not inflated, none of
the entries that are handed out asks for compression, and any compressor gives the same bytes and
the same log. This holds for every version, codec and choice of checksums. -/
theorem make_unopened (codec : Codec) (nameHash fileHash : Option Hash) (compressesAll : Bool)
    (compress : Bytes → Bytes) {version : Int} {entries : List Entry} {file : Bytes} {log : String}
    (hmake : make { codec, choices := { nameHash, fileHash }, compressesAll, compress } version
      entries = .ok (file, log))
    (hnames : ∀ e ∈ entries, ∀ bytes, codec.encode e.name = .ok bytes →
      codec.decode bytes = .ok e.name) :
    ∃ contents,
      read { codec, choices := { nameHash, fileHash }, inflates := false } file = .ok contents ∧
      contents.version = version ∧
      (∀ e ∈ contents.entries.map Prod.fst, e.packing = 0 ∨ e.packing = -1) ∧
      ∀ compress' : Bytes → Bytes,
        make { codec, choices := { nameHash, fileHash }, compress := compress' } version
          (contents.entries.map Prod.fst) = .ok (file, log) := by
  obtain ⟨hversion, prepared, hprepared, head, bytes, hhead, hbytes, rfl, rfl⟩ :=
    make_eq_ok.mp hmake
  have hr := ofVersion_reversible version nameHash fileHash
  have hsupported := supported_of_requireVersion hversion
  have hpacked : ∀ p ∈ prepared, p.Packed codec ∧ codec.decode p.nameBytes = .ok p.entry.name := by
    intro p hp
    obtain ⟨e, he, hprepare⟩ := exists_of_mem_forall₂_right (mapM_eq_ok.mp hprepared) hp
    obtain ⟨hpacked, hname⟩ := packed_of_prepare hprepare
    refine ⟨hpacked, ?_⟩
    rw [hname]
    exact hnames e he _ (hname ▸ hpacked.encodes)
  obtain ⟨hfits, hlength⟩ := directory_fits hr (length_lengthMapOf version) hbytes
  -- The header says what the reader looks for.
  rw [← hlength] at hhead
  obtain ⟨hcount, hsize⟩ := header_fits hhead
  obtain ⟨head', hhead', hheadLength, hsignature, hpadding, hfound, hcounted, hstated⟩ :=
    header_ok (by omega) hcount hsize
  obtain rfl : head' = head := Except.ok.inj (hhead'.symm.trans hhead)
  have hread : List.Forall₂
      (Prepared.ReadsAs { codec, choices := { nameHash, fileHash }, inflates := false })
      prepared (prepared.map Prepared.unopened) := by
    rw [List.forall₂_map_right_iff, List.forall₂_same]
    exact fun p hp => readsAs_unopened rfl (hpacked p hp).1 (hfits p hp).1 (hpacked p hp).2
  have hentries := readEntries_of_directory hr
    (head' ++ bytes ++ prepared.flatMap fun p => p.entry.data) hread hbytes
    (List.drop_left' (by rw [List.length_append, hheadLength, hlength]))
    (dataEnd_lt (fun p hp => (hfits p hp).2) (by rw [← hlength]; omega))
  rw [List.zipWith_map_right, List.zipWith_self] at hentries
  refine ⟨⟨version, prepared.map fun p => (p.unopened, p.entry.data.length)⟩,
    read_of_header hsupported rfl hheadLength hsignature hpadding hfound hstated
      (by rw [hcounted]; exact hentries), rfl, ?_, fun compress' => ?_⟩
  · simp only [List.map_map, List.forall_mem_map, Function.comp_apply]
    intro p _
    unfold Prepared.unopened
    split <;> simp
  · refine make_eq_ok.mpr ⟨hversion, prepared, ?_, head', bytes, hlength ▸ hhead, hbytes, rfl, rfl⟩
    have hmap : (prepared.map fun p => (p.unopened, p.entry.data.length)).map Prod.fst
        = prepared.map Prepared.unopened := by rw [List.map_map]; rfl
    rw [hmap, mapM_eq_ok, List.forall₂_map_left_iff, List.forall₂_same]
    exact fun p hp => prepare_unopened rfl (hpacked p hp).1

/-- Data that is stored as it is since it does not get shorter, data that is given compressed, and
data that gets shorter. -/
def sampleEntries : List Entry :=
  [⟨"x.txt", 3, 0, [1, 2], 2⟩, ⟨"y", 255, -1, [120, 156, 3, 0, 0, 0, 0, 1], 0⟩,
   ⟨"z.bmp", 0, 1, replicate 30 97, 30⟩]

/-- Compresses everything, and knows the compressed form of thirty letters only. -/
def samplePacker : MakeOptions where
  codec := Codec.ascii
  compressesAll := true
  compress _ := [120, 156, 75, 76, 196, 7, 0, 176, 79, 11, 95]

theorem make_unopened_sampleEntries :
    ∃ file log, make samplePacker 290 sampleEntries = .ok (file, log) ∧
      ∃ contents, read { codec := Codec.ascii, inflates := false } file = .ok contents ∧
        contents.version = 290 ∧
        (∀ e ∈ contents.entries.map Prod.fst, e.packing = 0 ∨ e.packing = -1) ∧
        ∀ compress' : Bytes → Bytes,
          make { codec := Codec.ascii, compress := compress' } 290
            (contents.entries.map Prod.fst) = .ok (file, log) := by
  have hsome : (make samplePacker 290 sampleEntries).toOption.isSome = true := by decide +kernel
  have hnames : ∀ e ∈ sampleEntries,
      Codec.ascii.decode ((Codec.ascii.encode e.name).toOption.getD []) = .ok e.name := by
    decide +kernel
  cases hmake : make samplePacker 290 sampleEntries with
  | error fault =>
    rw [hmake] at hsome
    cases hsome
  | ok result =>
    refine ⟨result.1, result.2, rfl,
      make_unopened _ none none _ _ hmake fun e he bytes hbytes => ?_⟩
    have hname := hnames e he
    rwa [show Codec.ascii.encode e.name = .ok bytes from hbytes] at hname

end NovelScript.Archive
