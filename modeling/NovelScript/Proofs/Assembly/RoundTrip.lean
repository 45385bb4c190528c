import Mathlib.Data.List.Permutation
import NovelScript.Project.Link
import NovelScript.Proofs.Assembly.Fit

/-!
# Reading back an assembled script

A script is its header and its sections, which are combined with a key. The header tells the sizes
by which the sections are cut apart again; the key undoes itself; and the commands are then read
back as they were placed.
-/

namespace NovelScript.Draft

open List Reader Bytes Script

variable {count : Nat} {head expressions : Bytes} {commands : List Command}
  {check : Instr → Except Fault Unit} {a : Assembly} {data : Data}
variable {version : Int} {codec : Codec}

/-! ## The header -/

/-- A header is as long as the reader expects, starts with the signature and has numbers behind it;
those that are not given are zero. -/
structure IsHeader (numbers : List Int) (head : Bytes) : Prop where
  length : head.length = 32
  signature : head.take 4 = Bytes.ofAscii "YSTB"
  words : ∀ i < 7, (head.field (4 + 4 * i) 4 : Int) = numbers.getD i 0

theorem isHeader_of_putRecord {numbers : List Int} {words : Bytes} (hcount : numbers.length ≤ 7)
    (h : putRecord (numbers.map fun n => (4, n)) = .ok words) :
    IsHeader numbers (Bytes.ofAscii "YSTB" ++ words ++
      replicate (32 - (Bytes.ofAscii "YSTB" ++ words).length) 0) := by
  -- All fields are words.
  have hwidths : ∀ l : List Int,
      ((l.map fun n => ((4 : Nat), n)).map Prod.fst).sum = 4 * l.length := by
    intro l
    induction l with
    | nil => rfl
    | cons n l ih =>
      simp only [map_cons, sum_cons, length_cons, ih]
      omega
  have hlength : words.length = 4 * numbers.length := by rw [length_putRecord h, hwidths]
  have hsignature : (Bytes.ofAscii "YSTB").length = 4 := by decide
  refine ⟨?_, ?_, ?_⟩
  · rw [length_append, length_replicate, length_append]
    omega
  · rw [append_assoc, take_left' hsignature]
  · intro i hi
    by_cases hin : i < numbers.length
    · have hnumber : (numbers.map fun n => ((4 : Nat), n))[i]? = some (4, numbers.getD i 0) := by
        simp [hin]
      have hfield := field_putRecord h i hnumber
      rw [← map_take, hwidths, length_take, Nat.min_eq_left (Nat.le_of_lt hin)] at hfield
      have hmiddle := field_middle (Bytes.ofAscii "YSTB")
        (replicate (32 - (Bytes.ofAscii "YSTB" ++ words).length) 0)
        (show 4 * i + 4 ≤ words.length by omega)
      rw [hsignature] at hmiddle
      rw [hmiddle, hfield]
    · rw [field_append _ _ (by rw [length_append]; omega), field_replicate_zero,
        getD_eq_getElem?_getD, getElem?_eq_none (by omega)]
      rfl

/-- A header holds its numbers as words. -/
theorem IsHeader.field_eq {numbers : List Int} (h : IsHeader numbers head) (i : Nat) {n : Nat}
    (hi : i < 7) (hn : numbers.getD i 0 = n) : head.field (4 + 4 * i) 4 = n :=
  Int.ofNat_inj.mp ((h.words i hi).trans hn)

theorem isHeader_of_header {sections : List Bytes} (h : header version count sections = .ok head) :
    IsHeader (version :: statedSizes count sections) head := by
  obtain ⟨words, hwords, h⟩ := of_bind h
  cases h
  refine isHeader_of_putRecord ?_ hwords
  unfold statedSizes
  split <;> simp

/-! ## Sections -/

theorem splitSection_bind {α : Type} {part : Bytes} {n : Nat} (rest : Bytes) (h : part.length = n)
    (f : Bytes × Bytes → Except Fault α) :
    (splitSection n (part ++ rest) >>= f) = f (part, rest) := by
  unfold splitSection
  simp only [splitAt_eq, take_left' h, drop_left' h, h]
  simp [require]

section

variable {table : CommandTable} {version : Int} {codec : Codec} {places : Array Place}
variable {items : List (Command × List (List Piece))} {expressions head : Bytes}
  {sections : List Bytes}

/-- Sections of old versions are read as the commands that were written. -/
theorem readJoined_joinedSections (hforms : HasForms table) (hsplit : isSplit version = false)
    (key : Bytes)
    (hread : ∀ p ∈ keptOf version (placeFrom version {} items), p.Readable table codec expressions)
    (hsections : joinedSections version places (keptOf version (placeFrom version {} items))
      expressions = .ok sections) {count : Nat} (hhead : header version count sections = .ok head) :
    ∃ rs, readJoined head (sections.map (Bytes.cyclicXor key)).flatten key
        (fun e => ⟨table.code, version, codec, codec, e.toArray⟩) = .ok rs ∧
      Forall₂ (Placed.ReadAs table version places)
        (keptOf version (placeFrom version {} items)) rs := by
  obtain ⟨chunks, hchunks, h⟩ := of_bind hsections
  cases h
  rw [mapM_eq_ok] at hchunks
  have hheader := isHeader_of_header hhead
  have hlength : head.field 8 4 = chunks.flatten.length := hheader.field_eq 1 (by decide) rfl
  have hsize : head.field 12 4 = expressions.length := hheader.field_eq 2 (by decide) rfl
  have hoffset : head.field 16 4 = 32 + chunks.flatten.length := hheader.field_eq 3 (by decide) rfl
  have hfirst : head.field 20 4 = 0 := hheader.field_eq 4 (by decide) rfl
  have hsecond : head.field 24 4 = 0 := hheader.field_eq 5 (by decide) rfl
  have hthird : head.field 28 4 = 0 := hheader.field_eq 6 (by decide) rfl
  have hbound : chunks.length ≤ chunks.flatten.length := by
    refine length_le_length_flatten fun chunk hchunk => ?_
    obtain ⟨p, -, hp⟩ := exists_of_mem_forall₂_right hchunks hchunk
    exact length_writeJoined_pos hp
  obtain ⟨rs, c', hrs, hreads⟩ :=
    readCommands_writeJoined hforms hsplit chunks.flatten.length hchunks
    hread hbound
  refine ⟨rs, ?_, hreads⟩
  unfold readJoined
  simp only [hlength, hsize, hoffset, hfirst, hsecond, hthird, map_cons, map_nil, flatten_cons,
    flatten_nil]
  rw [splitSection_bind _ (length_cyclicXor _ _), splitSection_bind _ (length_cyclicXor _ _)]
  simp only [cyclicXor_cyclicXor]
  unfold Reader.runOn Cursor.start
  rw [hrs]
  simp [require]

/-- Sections of new versions are read as the commands that were written. -/
theorem readSplit_splitSections (hforms : HasForms table) (hsplit : isSplit version = true)
    (key : Bytes)
    (hread : ∀ p ∈ keptOf version (placeFrom version {} items), p.Readable table codec expressions)
    (hsections : splitSections version places (keptOf version (placeFrom version {} items))
      expressions = .ok sections)
    (hhead : header version (keptOf version (placeFrom version {} items)).length sections
      = .ok head) :
    ∃ rs, readSplit head (sections.map (Bytes.cyclicXor key)).flatten key
        (fun e => ⟨table.code, version, codec, codec, e.toArray⟩) = .ok rs ∧
      Forall₂ (Placed.ReadAs table version places)
        (keptOf version (placeFrom version {} items)) rs := by
  obtain ⟨records, hrecords, h⟩ := of_bind hsections
  obtain ⟨lines, hlines, h⟩ := of_bind h
  obtain ⟨chunks, hchunks, h⟩ := of_bind h
  cases h
  rw [mapM_eq_ok] at hrecords hlines hchunks
  have hheader := isHeader_of_header hhead
  have hcount : head.field 8 4 = (keptOf version (placeFrom version {} items)).length :=
    hheader.field_eq 1 (by decide) rfl
  have hcommands : head.field 12 4 = records.flatten.length := hheader.field_eq 2 (by decide) rfl
  have harguments : head.field 16 4 = chunks.flatten.length := hheader.field_eq 3 (by decide) rfl
  have hsize : head.field 20 4 = expressions.length := hheader.field_eq 4 (by decide) rfl
  have hlength : head.field 24 4 = lines.flatten.length := hheader.field_eq 5 (by decide) rfl
  have hzero : head.field 28 4 = 0 := hheader.field_eq 6 (by decide) rfl
  have hrecordLengths := length_eq_four_of_putRecord (fun _ => rfl) hrecords
  have hlineLengths := length_eq_four_of_putRecord (fun _ => rfl) hlines
  have hrecordsLength := length_flatten_quads hrecordLengths
  have hlinesLength := length_flatten_quads hlineLengths
  have hmod := length_writeArguments_mod hsplit
    (fun p hp => (hread p hp).arguments.length_eq) hchunks
  rw [hrecords.length_eq] at hcount
  rw [← hlines.length_eq, hrecords.length_eq] at hlinesLength
  obtain ⟨rs, htakes, hreads⟩ := takes_readSplitCommands hforms hsplit hrecords hlines hchunks hread
  refine ⟨rs, ?_, hreads⟩
  unfold readSplit
  simp only [hcount, hcommands.trans hrecordsLength, harguments, hsize,
    hlength.trans hlinesLength, hzero, map_cons, map_nil, flatten_cons, flatten_nil, hmod]
  rw [splitSection_bind _ ((length_cyclicXor _ _).trans hrecordsLength),
    splitSection_bind _ (length_cyclicXor _ _), splitSection_bind _ (length_cyclicXor _ _),
    splitSection_bind _ ((length_cyclicXor _ _).trans hlinesLength)]
  simp only [cyclicXor_cyclicXor, quads_flatten hrecordLengths, quads_flatten hlineLengths]
  have hrun := runOn_of_takes htakes
  rw [show 4 * (Place.index {}) = 0 from rfl] at hrun
  rw [hrun]
  simp [require, noting]

end

/-! ## Scripts -/

theorem keyBytes_eq {key : Int} (h : 0 ≤ key ∧ key < 256 ^ 4) :
    Script.keyBytes key = .ok (Bytes.ofNat 4 key.toNat).reverse :=
  bind_eq_ok.mpr ⟨_, orFault_eq_ok.mpr (Bytes.unsigned?_eq_some.mpr ⟨h, rfl⟩), rfl⟩

/-- **An assembled script is read back**, if its commands can be. -/
theorem read_of_readable {table : CommandTable} (hforms : HasForms table)
    (hversion : 200 ≤ version ∧ version < 600) {key : Int} {keyBytes : Bytes}
    (hkey : Script.keyBytes key = .ok keyBytes)
    (h : assemble version none codec check commands = .ok a)
    (hread : ∀ p ∈ keptOf version a.placed, p.Readable table codec (expressionBytes a.placed)) :
    ∃ rs, Script.read table.code { key := some key, codec }
        (Project.encrypt keyBytes a.segments).flatten = .ok ⟨version, key, rs⟩ ∧
      Forall₂ (Placed.ReadAs table version (placesOf a.placed)) (keptOf version a.placed) rs := by
  obtain ⟨data, -, hplaced, hsections, hhead⟩ := assemble_eq_ok.mp h
  have hheader := isHeader_of_header hhead
  have hfound : (a.header.field 4 4 : Int) = version := hheader.words 0 (by decide)
  have hcommands : ∃ rs, (if version < 300 then
        readJoined a.header (a.sections.map (Bytes.cyclicXor keyBytes)).flatten keyBytes
          fun e => ⟨table.code, version, codec, codec, e.toArray⟩
      else
        readSplit a.header (a.sections.map (Bytes.cyclicXor keyBytes)).flatten keyBytes
          fun e => ⟨table.code, version, codec, codec, e.toArray⟩) = .ok rs ∧
      Forall₂ (Placed.ReadAs table version (placesOf a.placed)) (keptOf version a.placed)
        rs := by
    unfold sectionsOf at hsections
    rw [hplaced] at hread hsections hhead ⊢
    cases hsplit : isSplit version with
    | false =>
      have hlt : version < 300 := by simpa [isSplit] using hsplit
      rw [hsplit] at hsections
      rw [if_pos hlt]
      exact readJoined_joinedSections hforms hsplit keyBytes hread hsections hhead
    | true =>
      have hge : ¬version < 300 := by simpa [isSplit] using hsplit
      rw [hsplit] at hsections
      rw [if_neg hge]
      exact readSplit_splitSections hforms hsplit keyBytes hread hsections hhead
  obtain ⟨rs, hrs, hreads⟩ := hcommands
  refine ⟨rs, ?_, hreads⟩
  show Script.read _ _ (a.header ++ (a.sections.map (Bytes.cyclicXor keyBytes)).flatten) = _
  unfold Script.read
  rw [splitAt_eq, take_left' hheader.length, drop_left' hheader.length]
  simp only [hheader.signature, chosenVersion, hfound, Option.getD_some, Option.getD_none, hkey,
    requireVersion_eq_ok hversion, length_append, hheader.length, ok_bind]
  split at hrs
  · next hlt =>
    rw [if_pos hlt, hrs]
    simp [require]
  · next hge =>
    rw [if_neg hge, hrs]
    simp [require]

theorem inRange_of_fits {a : Argument} (h : a.Fits version codec count) : a.InRange := by
  constructor
  · obtain ⟨hlow, hhigh⟩ := h.type
    rcases (by omega : a.type = 0 ∨ a.type = 1 ∨ a.type = 2 ∨ a.type = 3) with h | h | h | h
    · exact ⟨.unknown, h⟩
    · exact ⟨.int, h⟩
    · exact ⟨.float, h⟩
    · exact ⟨.text, h⟩
  · obtain ⟨hlow, hhigh⟩ := h.assignment
    obtain ⟨n, hn⟩ := Int.eq_ofNat_of_zero_le hlow
    have hcode : ∀ i < 9, ∃ op ∈ Assignment.all, i = op.code := by decide
    obtain ⟨op, -, hop⟩ := hcode n (by omega)
    exact ⟨op, by omega⟩

/-- Data is read as it was encoded. -/
def Data.Rereads (codec : Codec) : Data → Prop
  | .code instructions => ∀ i ∈ instructions, i.reread codec codec = .ok i
  | .text w => ∀ bytes, codec.encodeWording w = .ok bytes → codec.decode bytes = .ok w.shown
  | _ => True

theorem rereads_of_fits (h : data.Fits version codec count) : data.Rereads codec := by
  cases data with
  | code instructions => exact fun i hi => Instr.reread_self (h i hi)
  | text w =>
    obtain ⟨b, s, rfl, hencode, hdecode⟩ := h
    intro bytes hbytes
    rw [Codec.encodeWording_ofString, hencode] at hbytes
    cases hbytes
    rw [hdecode, Wording.shown_ofString]
  | _ => trivial

/-- Data that is reread stands where its bytes are. -/
theorem stands_of_rereads {pieces : List Piece} {span : Span} (h : data.Rereads codec)
    (hpieces : data.pieces codec check = .ok pieces) (hsize : span.size = pieceSize pieces)
    (hslice : (expressions.drop span.offset).take span.size = pieceBytes pieces) :
    Stands codec expressions data span := by
  have hlength : (pieceBytes pieces).length = span.size := by rw [length_pieceBytes, hsize]
  cases data with
  | code instructions =>
    refine ⟨_, hslice, hlength, ?_⟩
    rw [decodeAll_pieceBytes codec hpieces]
    have hmap := mapM_ok (g := id) h
    rw [map_id] at hmap
    exact hmap
  | text w => exact ⟨_, hslice, hlength, h _ (pieces_text_eq_ok hpieces)⟩
  | _ => trivial

/-- A draft whose data is reread can be read. -/
theorem readable_of_rereads {table : CommandTable}
    (h : assemble version none codec check commands = .ok a)
    (hformed : ∀ c ∈ keptCommands version commands, ∃ shapes,
      Formed table c.code (c.arguments.map Argument.data) shapes)
    (harguments : ∀ c ∈ keptCommands version commands, ∀ x ∈ c.arguments, x.InRange ∧ ∀ pieces,
      x.data.pieces codec check = .ok pieces → x.data.Rereads codec) :
    ∀ p ∈ keptOf version a.placed, p.Readable table codec (expressionBytes a.placed) := by
  intro p hp
  obtain ⟨hmem, hkeep⟩ := mem_filter.mp hp
  rw [Bool.not_eq_true'] at hkeep
  have hcommand : p.command ∈ keptCommands version commands :=
    mem_filter.mpr ⟨(encoded_of_assemble h hmem).1, by simp [hkeep]⟩
  refine ⟨hformed _ hcommand, ?_⟩
  have hall := (forall₂_and_left _ _).mpr
    ⟨harguments _ hcommand, slices_of_assemble h hmem hkeep⟩
  refine hall.imp fun x s hx => ?_
  obtain ⟨⟨hrange, hrereads⟩, pieces, hpieces, hsize, hslice⟩ := hx
  exact ⟨hrange, stands_of_rereads (hrereads pieces hpieces) hpieces hsize hslice⟩

/-- **A draft that fits is assembled, and the script is read back command by command**, in either
layout and with any key. Exactly the commands that are not left out are read, in order. The place of
a command, to which jumps refer, counts what stands before it. -/
theorem read_assemble {table : CommandTable} (hforms : HasForms table) {version : Int}
    (hversion : 200 ≤ version ∧ version < 600) {key : Int} (hkey : 0 ≤ key ∧ key < 256 ^ 4)
    (codec : Codec) {check : Instr → Except Fault Unit} {commands : List Command}
    (hcheck : ∀ c ∈ commands, ∀ a ∈ c.arguments, a.data.Accepted check)
    (hformed : ∀ c ∈ keptCommands version commands,
      ∃ shapes, Formed table c.code (c.arguments.map Argument.data) shapes)
    (hfits : Fits version codec commands) :
    ∃ a keyBytes rs, assemble version none codec check commands = .ok a ∧
      Script.keyBytes key = .ok keyBytes ∧
      Script.read table.code { key := some key, codec }
        (Project.encrypt keyBytes a.segments).flatten = .ok ⟨version, key, rs⟩ ∧
      a.placed.map Placed.command = commands ∧
      (∀ before p after, a.placed = before ++ p :: after →
        p.place = ⟨(keptOf version before).length,
          total ((keptOf version before).map fun q => q.command.size version),
          (expressionBytes before).length⟩) ∧
      List.Forall₂ (Placed.ReadAs table version (placesOf a.placed)) (keptOf version a.placed)
        rs := by
  obtain ⟨a, ha⟩ := assemble_ok (show 0 ≤ version ∧ version < 256 ^ 4 by omega) hcheck hfits
  have hkeyBytes := keyBytes_eq hkey
  have hreadable := readable_of_rereads ha hformed fun c hc x hx =>
    have hx := (hfits.each c hc).arguments x hx
    ⟨inRange_of_fits hx, fun _ _ => rereads_of_fits hx.data⟩
  obtain ⟨rs, hread, hrs⟩ := read_of_readable hforms hversion hkeyBytes ha hreadable
  obtain ⟨data, hdata, hplaced, -⟩ := assemble_eq_ok.mp ha
  refine ⟨a, _, rs, ha, hkeyBytes, hread, commands_of_assemble ha, fun before p after hsplit => ?_,
    hrs⟩
  have hplace := place_of_placeFrom (skips_of_encoded hdata) (hplaced ▸ hsplit)
  simpa using hplace

/-- A table of the commands that have forms of their own, and one more. -/
def sampleTable : CommandTable where
  version := 290
  commands := ["IF", "ELSE", "LOOP", "WORD", "RETURNCODE", "IFEND"].map fun name => ⟨name, []⟩
  messages := []
  tail := []

/-- A condition with a text in its first branch and a label in its second. -/
def sampleDraft : List Command :=
  [{ code := 0, line := 1, arguments :=
      [{ type := 1, data := .code [.int .w8 1] }, { data := .jump 2 }, { data := .jump 5 }] },
    { code := 3, line := 2, arguments := [{ data := .text (.ofString "yes") }] },
    { code := 1, line := 2 },
    { code := -1, presence := .label },
    { code := 4, line := 3, arguments := [{ id := 1, data := .number 7 }] },
    { code := 5, line := 3 }]

theorem read_assemble_sampleDraft :
    ∃ a keyBytes rs, assemble 290 none Codec.ascii (fun _ => .ok ()) sampleDraft = .ok a ∧
      Script.keyBytes 0x12345678 = .ok keyBytes ∧
      Script.read sampleTable.code { key := some 0x12345678, codec := Codec.ascii }
        (Project.encrypt keyBytes a.segments).flatten = .ok ⟨290, 0x12345678, rs⟩ ∧
      List.Forall₂ (Placed.ReadAs sampleTable 290 (placesOf a.placed)) (keptOf 290 a.placed)
        rs := by
  have hif : sampleTable.code "IF" = .ok 0 := by cbv
  have helse : sampleTable.code "ELSE" = .ok 1 := by cbv
  have hloop : sampleTable.code "LOOP" = .ok 2 := by cbv
  have hword : sampleTable.code "WORD" = .ok 3 := by cbv
  have hreturn : sampleTable.code "RETURNCODE" = .ok 4 := by cbv
  have hforms : HasForms sampleTable := by
    simp only [HasForms, List.forall_mem_cons]
    exact ⟨⟨_, hif⟩, ⟨_, helse⟩, ⟨_, hloop⟩, ⟨_, hword⟩, ⟨_, hreturn⟩, by simp⟩
  have hother : ∀ name ∈ ["IF", "ELSE", "LOOP", "WORD", "RETURNCODE"],
      sampleTable.code name ≠ .ok 5 := by
    simp [hif, helse, hloop, hword, hreturn]
  have hend : Formed sampleTable 5 (([] : List (List Instr)).map Data.code) _ := .other hother
  have hkept : keptCommands 290 sampleDraft = sampleDraft.eraseIdx 3 := by decide
  have hformed : ∀ c ∈ keptCommands 290 sampleDraft,
      ∃ shapes, Formed sampleTable c.code (c.arguments.map Argument.data) shapes := by
    rw [hkept]
    simp only [sampleDraft, List.eraseIdx, List.forall_mem_cons]
    exact ⟨⟨_, .condition (.inl hif) trivial trivial⟩, ⟨_, .word hword⟩, ⟨_, .otherwise helse⟩,
      ⟨_, .returnCode hreturn⟩, ⟨_, hend⟩, by simp⟩
  have htext : (Wording.ofString "yes").Survives Codec.ascii [121, 101, 115] :=
    ⟨"yes", rfl, by decide, by decide⟩
  have hfits : Fits 290 Codec.ascii sampleDraft := by
    refine ⟨?_, by decide, by decide, by decide⟩
    rw [hkept]
    simp only [sampleDraft, List.eraseIdx, List.forall_mem_cons]
    refine ⟨?_, ?_, ?_, ?_, ?_, by simp⟩
    all_goals
      refine ⟨by decide, by decide, by decide, by decide, ?_⟩
      simp only [List.forall_mem_cons]
    · refine ⟨?_, ?_, ?_, by simp⟩ <;> refine ⟨by decide, by decide, by decide, ?_⟩ <;>
        simp [Data.Fits, Instr.InRange, IntWidth.size]
    · exact ⟨⟨by decide, by decide, by decide, _, htext⟩, by simp⟩
    · simp
    · exact ⟨⟨by decide, by decide, by decide, fun _ => by decide⟩, by simp⟩
    · simp
  have hcheck : ∀ c ∈ sampleDraft, ∀ a ∈ c.arguments, a.data.Accepted fun _ => .ok () := by
    intro c _ a _
    cases a.data <;> simp [Data.Accepted]
  have hkeyFits : (0 : Int) ≤ 0x12345678 ∧ (0x12345678 : Int) < 256 ^ 4 := by decide
  obtain ⟨a, keyBytes, rs, ha, hkey, hread, -, -, hrs⟩ := read_assemble hforms (by decide)
    hkeyFits Codec.ascii hcheck hformed hfits
  exact ⟨a, keyBytes, rs, ha, hkey, hread, hrs⟩

end NovelScript.Draft
