import NovelScript.Proofs.Assembly.Commands

/-!
# Drafts that fit

A draft can be assembled if its numbers fit their fields, its instructions and texts can be encoded,
its jumps stay inside the draft, and its sections are not too long (`Fits`). Nothing else can go
wrong: places and spans are bounded by the sizes of the sections (`bounds_of_mem_placeFrom`).
-/

namespace NovelScript

open List

variable {i : Instr} {codec : Codec}

/-- A codec stores a wording as bytes that it reads as the same wording. -/
def Wording.Survives (codec : Codec) (w : Wording) (b : Bytes) : Prop :=
  ∃ s, w = .ofString s ∧ codec.encode s = .ok b ∧ codec.decode b = .ok s

theorem Wording.string?_ofString (s : String) : (Wording.ofString s).string? = some s := by
  have hmap : ∀ cs : List Char, (cs.map Sign.char).mapM Sign.char? = some cs := by
    intro cs
    induction cs with
    | nil => rfl
    | cons c cs ih => simp [mapM_cons, Sign.char?, ih]
  simp [Wording.string?, Wording.ofString, Wording.ofChars, hmap]

theorem Wording.shown_ofString (s : String) : (Wording.ofString s).shown = s := by
  simp [Wording.shown, Wording.ofString, Wording.ofChars, Function.comp_def, Sign.shown]

theorem Codec.encodeWording_ofString (codec : Codec) (s : String) :
    codec.encodeWording (.ofString s) = codec.encode s := by
  rw [Codec.encodeWording, Wording.string?_ofString]

theorem Wording.eq_ofString {w : Wording} {s : String} (h : w.string? = some s) :
    w = .ofString s := by
  obtain ⟨signs⟩ := w
  obtain ⟨cs, hcs, rfl⟩ := Option.map_eq_some_iff.mp h
  rw [ofString, ofChars, String.toList_ofList, mk.injEq]
  clear h
  induction signs generalizing cs with
  | nil =>
    cases hcs
    rfl
  | cons sign signs ih =>
    rw [mapM_cons] at hcs
    obtain ⟨c, hc, hcs⟩ := Option.bind_eq_some_iff.mp hcs
    obtain ⟨cs', hcs', heq⟩ := Option.bind_eq_some_iff.mp hcs
    cases heq
    cases sign with
    | char c' =>
      cases hc
      rw [ih cs' hcs', map_cons]
    | half => cases hc

theorem Codec.encodeWording_eq_ok {codec : Codec} {w : Wording} {bytes : Bytes}
    (h : codec.encodeWording w = .ok bytes) :
    ∃ s, w = .ofString s ∧ codec.encode s = .ok bytes := by
  unfold encodeWording at h
  split at h
  · next s hs => exact ⟨s, Wording.eq_ofString hs, h⟩
  · obtain ⟨_, -, h⟩ := of_bind h
    cases h

/-- An instruction can be written. -/
def Instr.InRange (codec : Codec) : Instr → Prop
  | .op _ | .float _ => True
  | .access _ _ index => 0 ≤ index ∧ index < (256 ^ 2 : Nat)
  | .int width n =>
    -((256 ^ width.size : Nat) : Int) ≤ 2 * n ∧ 2 * n < (256 ^ width.size : Nat)
  | .text literal => ∃ b, literal.Survives codec b ∧ b.length < 256 ^ 2
  | .raw _ => False

/-- An instruction in range is written. -/
theorem Instr.encode_ok (h : i.InRange codec) : ∃ b, i.encode codec = .ok b := by
  cases i with
  | op o => cases o <;> exact ⟨_, rfl⟩
  | float x => exact ⟨_, rfl⟩
  | access kind mark index =>
    have hindex := Bytes.unsigned?_eq_some.mpr ⟨h, rfl⟩
    exact ⟨_, bind_eq_ok.mpr ⟨_, orFault_eq_ok.mpr hindex, rfl⟩⟩
  | int width n =>
    have hnumber := Bytes.signed?_eq_some.mpr ⟨h, rfl⟩
    exact ⟨_, bind_eq_ok.mpr ⟨_, orFault_eq_ok.mpr hnumber, rfl⟩⟩
  | text literal =>
    obtain ⟨b, ⟨s, rfl, hencode, -⟩, hlt⟩ := h
    have hlength := Bytes.unsigned?_eq_some.mpr
      ⟨show 0 ≤ (b.length : Int) ∧ (b.length : Int) < (256 ^ 2 : Nat) by omega, rfl⟩
    refine ⟨_, bind_eq_ok.mpr ⟨b, ?_, bind_eq_ok.mpr ⟨_, orFault_eq_ok.mpr hlength, rfl⟩⟩⟩
    rw [Codec.encodeWording_ofString, hencode]
  | raw bytes => exact h.elim

/-- It is read as itself. -/
theorem Instr.reread_self (h : i.InRange codec) : i.reread codec codec = .ok i := by
  cases i with
  | text literal =>
    obtain ⟨b, ⟨s, rfl, hencode, hdecode⟩, -⟩ := h
    rw [Instr.reread, Codec.encodeWording_ofString, hencode, ok_bind, hdecode]
    rfl
  | raw bytes => exact h.elim
  | _ => rfl

namespace Draft

variable {count : Nat} {check : Instr → Except Fault Unit} {commands : List Command}
variable {version : Int} {codec : Codec}

/-! ## Conditions -/

/-- Data that can be encoded and is read back, in a draft of so many commands. -/
def Data.Fits (version : Int) (codec : Codec) (count : Nat) : Data → Prop
  | .none => True
  | .number n => isSplit version = true ∨ version = 290 → 0 ≤ n ∧ n < (256 ^ 4 : Nat)
  | .jump target => target < count
  | .text w => ∃ b, w.Survives codec b
  | .bytes _ => True
  | .code instructions => ∀ i ∈ instructions, i.InRange codec

/-- An argument whose fields fit. -/
structure Argument.Fits (version : Int) (codec : Codec) (count : Nat) (a : Argument) : Prop where
  id : 0 ≤ a.id ∧ a.id < 256 ^ 2
  type : 0 ≤ a.type ∧ a.type < 4
  assignment : 0 ≤ a.assignment ∧ a.assignment < 9
  data : a.data.Fits version codec count

/-- A command whose fields fit. -/
structure Command.Fits (version : Int) (codec : Codec) (count : Nat) (c : Command) : Prop where
  code : 0 ≤ c.code ∧ c.code < 256
  argumentCount : c.arguments.length < 256
  line : 0 ≤ c.line ∧ c.line < 256 ^ 4
  parameters : isSplit version = true → 0 ≤ c.parameters ∧ c.parameters < 256 ^ 2
  arguments : ∀ a ∈ c.arguments, a.Fits version codec count

/-- The bytes that stand for data in the expression section. -/
def Data.stored (codec : Codec) : Data → Bytes
  | .text w => (codec.encodeWording w).toOption.getD []
  | .bytes b => b
  | .code instructions => instructions.flatMap fun i => (i.encode codec).toOption.getD []
  | _ => []

/-- The number of bytes of a command in the expression section. -/
def Command.storedSize (version : Int) (codec : Codec) (c : Command) : Nat :=
  if c.presence.isLeftOut version then 0
  else total (c.arguments.map fun a => (a.data.stored codec).length)

/-- The commands that are not left out. -/
def keptCommands (version : Int) (commands : List Command) : List Command :=
  commands.filter fun c => !c.presence.isLeftOut version

/-- A draft whose fields fit: those of its commands, and the sizes of the sections in its header. -/
structure Fits (version : Int) (codec : Codec) (commands : List Command) : Prop where
  each : ∀ c ∈ keptCommands version commands, c.Fits version codec commands.length
  expressions : total (commands.map (Command.storedSize version codec)) < 256 ^ 4
  commandSection : 32 + total ((keptCommands version commands).map (Command.size version)) < 256 ^ 4
  argumentSection : isSplit version = true →
    total ((keptCommands version commands).map fun c =>
      total (c.arguments.map (Argument.size version))) < 256 ^ 4

/-! ## Encoding -/

/-- Data that fits is encoded. -/
theorem pieces_ok {data : Data} (hcheck : data.Accepted check) (h : data.Fits version codec count) :
    ∃ pieces, data.pieces codec check = .ok pieces ∧ pieceBytes pieces = data.stored codec := by
  cases data with
  | none | number n | jump target => exact ⟨[], rfl, rfl⟩
  | text w =>
    obtain ⟨b, s, rfl, hencode, -⟩ := h
    refine ⟨[{ bytes := b }], ?_, ?_⟩
    · show (codec.encodeWording _ >>= _) = _
      rw [Codec.encodeWording_ofString, hencode]
      rfl
    · simp [pieceBytes, Data.stored, Codec.encodeWording_ofString, hencode, Except.toOption]
  | bytes b => exact ⟨[{ bytes := b }], rfl, by simp [pieceBytes, Data.stored]⟩
  | code instructions =>
    refine ⟨instructions.map fun i => ⟨(i.encode codec).toOption.getD [], some i⟩, ?_, ?_⟩
    · refine mapM_ok fun i hi => ?_
      obtain ⟨b, hb⟩ := Instr.encode_ok (h i hi)
      simp only [encodePiece, hb, hcheck i hi, ok_bind]
      rfl
    · rw [pieceBytes, flatMap_map]
      rfl

theorem encoded_ok {c : Command} (hcheck : ∀ a ∈ c.arguments, a.data.Accepted check)
    (h : c.presence.isLeftOut version = false → c.Fits version codec count) :
    ∃ data, c.encoded version codec check = .ok data ∧
      total (data.map pieceSize) = c.storedSize version codec := by
  unfold Command.encoded Command.storedSize
  cases hleft : c.presence.isLeftOut version with
  | true => exact ⟨[], rfl, rfl⟩
  | false =>
    have harguments := (h hleft).arguments
    simp only [if_neg (show ¬false = true by simp)]
    generalize c.arguments = arguments at hcheck harguments ⊢
    induction arguments with
    | nil => exact ⟨[], rfl, rfl⟩
    | cons a rest ih =>
      obtain ⟨pieces, hpieces, hbytes⟩ := pieces_ok (hcheck a mem_cons_self)
        (harguments a mem_cons_self).data
      obtain ⟨data, hdata, hsize⟩ := ih (forall_mem_cons.mp hcheck).2
        (forall_mem_cons.mp harguments).2
      refine ⟨pieces :: data, ?_, ?_⟩
      · rw [mapM_cons, hpieces, ok_bind, hdata]
        rfl
      · rw [map_cons, map_cons, total, total, hsize, ← length_pieceBytes, hbytes]

/-! ## Bounds -/

theorem end_le_of_mem_spansFrom : ∀ {data : List (List Piece)} {offset : Nat} {s : Span},
    s ∈ spansFrom offset data → s.offset + s.size ≤ offset + total (data.map pieceSize)
  | [], _, _, hs => by cases hs
  | pieces :: rest, offset, s, hs => by
    rw [map_cons, total]
    rcases mem_cons.mp hs with rfl | hs
    · exact Nat.add_le_add_left (Nat.le_add_right _ _) _
    · have hle := end_le_of_mem_spansFrom hs
      omega

/-- No place is beyond the sums of all sizes. -/
theorem bounds_of_mem_placeFrom {items : List (Command × List (List Piece))} {p : Placed}
    (hskips : Skips version items) (hp : p ∈ placeFrom version {} items) :
    p.place.index ≤ (keptOf version (placeFrom version {} items)).length ∧
    p.place.offset ≤ total ((keptOf version (placeFrom version {} items)).map
      fun q => q.command.size version) ∧
    p.place.expressions + total (p.data.map pieceSize) ≤
      (expressionBytes (placeFrom version {} items)).length := by
  obtain ⟨before, after, hsplit⟩ := append_of_mem hp
  have hbytes : (expressionBytes (before ++ p :: after)).length = (expressionBytes before).length +
      (total (p.data.map pieceSize) + (expressionBytes after).length) := by
    rw [expressionBytes, flatMap_append, flatMap_cons, length_append, length_append, Placed.bytes,
      length_dataBytes]
    rfl
  rw [place_of_placeFrom hskips hsplit, hsplit, hbytes, keptOf, keptOf, filter_append]
  simp [← Nat.add_assoc]

/-! ## Writing -/

/-- All counts of a place can be written. -/
def Place.Fits (p : Place) : Prop :=
  p.index < 256 ^ 4 ∧ p.offset < 256 ^ 4 ∧ p.expressions < 256 ^ 4

/-- An argument that fits is written. -/
theorem write_ok {places : Array Place} {a : Argument} {span : Span}
    (h : a.Fits version codec places.size) (hplaces : ∀ p ∈ places, p.Fits)
    (hspan : span.offset < 256 ^ 4 ∧ span.size < 256 ^ 4) :
    ∃ bytes, a.write version places span = .ok bytes := by
  have hid := h.id
  have htype := h.type
  have hassignment := h.assignment
  have hrecord : ∀ rest : List (Nat × Int), (∀ f ∈ rest, 0 ≤ f.2 ∧ f.2 < (256 ^ f.1 : Nat)) →
      ∃ bytes, putRecord ([(2, a.id), (1, a.type), (1, a.assignment)] ++ rest) = .ok bytes := by
    intro rest hrest
    refine putRecord_ok ?_
    simp only [cons_append, nil_append, forall_mem_cons]
    exact ⟨by omega, by omega, by omega, hrest⟩
  unfold Argument.write
  have hdata := h.data
  cases ha : a.data with
  | number n =>
    rw [ha] at hdata
    simp only
    split
    · next hsplit =>
      have hn := hdata (.inl hsplit)
      refine hrecord _ ?_
      simp only [forall_mem_cons]
      exact ⟨hn, by omega, by simp⟩
    · split
      · next hversion =>
        refine hrecord _ ?_
        simp only [forall_mem_cons]
        exact ⟨hdata (.inr hversion), by simp⟩
      · exact hrecord [] (by simp)
  | jump target =>
    rw [ha] at hdata
    have hin : target < places.size := hdata
    have hfits := hplaces places[target] (Array.getElem_mem hin)
    simp only [Array.getElem?_eq_getElem hin, orFault, ok_bind]
    refine hrecord _ ?_
    simp only [forall_mem_cons]
    refine ⟨?_, ?_, by simp⟩
    · have := hfits.1
      have := hfits.2.1
      split <;> omega
    · have := hfits.2.2
      omega
  | _ =>
    refine hrecord _ ?_
    simp only [forall_mem_cons]
    exact ⟨by omega, by omega, by simp⟩

/-! ## Assembling -/

theorem map_command_keptOf (version : Int) (placed : List Placed) :
    (keptOf version placed).map Placed.command =
      keptCommands version (placed.map Placed.command) := by
  rw [keptCommands, filter_map]
  rfl

/-- A placed command that can be written. -/
structure Placed.Fits (version : Int) (codec : Codec) (places : Array Place) (p : Placed) :
    Prop where
  command : p.command.Fits version codec places.size
  length : p.command.arguments.length = p.spans.length
  spans : p.place.expressions + total (p.data.map pieceSize) < 256 ^ 4

section

variable {version : Int} {codec : Codec} {places : Array Place}
variable {p : Placed}

theorem writeArguments_ok (hplaces : ∀ p ∈ places, p.Fits) (h : p.Fits version codec places) :
    ∃ bytes, p.writeArguments version places = .ok bytes ∧
      bytes.length = total (p.command.arguments.map (Argument.size version)) := by
  have hall : ∀ x ∈ p.command.arguments.zip p.spans,
      ∃ bytes, x.1.write version places x.2 = .ok bytes := by
    intro x hx
    obtain ⟨ha, hs⟩ := of_mem_zip hx
    have hend := end_le_of_mem_spansFrom hs
    have hspans := h.spans
    exact write_ok (h.command.arguments x.1 ha) hplaces (by omega)
  choose! bytes hbytes using hall
  have hwrite : p.writeArguments version places = .ok _ :=
    bind_eq_ok.mpr ⟨_, mapM_ok hbytes, rfl⟩
  exact ⟨_, hwrite, length_writeArguments h.length hwrite⟩

theorem writeJoined_ok (hplaces : ∀ p ∈ places, p.Fits) (hsplit : isSplit version = false)
    (h : p.Fits version codec places) :
    ∃ bytes, p.writeJoined version places = .ok bytes ∧ bytes.length = p.command.size version := by
  have hcode := h.command.code
  have hcount := h.command.argumentCount
  have hline := h.command.line
  obtain ⟨arguments, harguments, -⟩ := writeArguments_ok hplaces h
  obtain ⟨head, hhead⟩ : ∃ head, putRecord [(1, p.command.code),
      (1, (p.command.arguments.length : Int)), (4, p.command.line)] = .ok head := by
    refine putRecord_ok ?_
    simp only [forall_mem_cons]
    exact ⟨by omega, by omega, by omega, by simp⟩
  have hwrite : p.writeJoined version places = .ok (head ++ arguments) :=
    bind_eq_ok.mpr ⟨head, hhead, bind_eq_ok.mpr ⟨arguments, harguments, rfl⟩⟩
  exact ⟨_, hwrite, length_writeJoined hsplit h.length hwrite⟩

theorem writeRecord_ok (hsplit : isSplit version = true) (h : p.Fits version codec places) :
    ∃ bytes, p.writeRecord = .ok bytes ∧ bytes.length = 4 := by
  have hcode := h.command.code
  have hcount := h.command.argumentCount
  have hparameters := h.command.parameters hsplit
  obtain ⟨bytes, hbytes⟩ : ∃ bytes, p.writeRecord = .ok bytes := by
    refine putRecord_ok ?_
    simp only [forall_mem_cons]
    exact ⟨by omega, by omega, by omega, by simp⟩
  exact ⟨bytes, hbytes, length_putRecord hbytes⟩

theorem writeLine_ok (h : p.Fits version codec places) :
    ∃ bytes, p.writeLine = .ok bytes ∧ bytes.length = 4 := by
  have hline := h.command.line
  obtain ⟨bytes, hbytes⟩ : ∃ bytes, p.writeLine = .ok bytes := by
    refine putRecord_ok ?_
    simp only [forall_mem_cons]
    exact ⟨by omega, by simp⟩
  exact ⟨bytes, hbytes, length_putRecord hbytes⟩

end

theorem total_const (n : Nat) : ∀ {α : Type} (l : List α), total (l.map fun _ => n) = n * l.length
  | _, [] => rfl
  | _, _ :: l => by
    rw [map_cons, total, total_const n l, length_cons, Nat.mul_succ]
    omega

/-- What the header of a script states behind the version. -/
def statedSizes (count : Nat) : List Bytes → List Int
  | [commands, arguments, expressions, lines] =>
    [count, commands.length, arguments.length, expressions.length, lines.length]
  | commands :: expressions :: _ => [commands.length, expressions.length, 32 + commands.length]
  | _ => []

/-- Sizes that fit are written in the header. -/
theorem exists_header {made : Except Fault (List Bytes)} {sections : List Bytes}
    (hversion : 0 ≤ version ∧ version < 256 ^ 4) (hmade : made = .ok sections)
    (h : ∀ n ∈ statedSizes count sections, 0 ≤ n ∧ n < (256 ^ 4 : Nat)) :
    ∃ sections head, made = .ok sections ∧ header version count sections = .ok head := by
  obtain ⟨words, hwords⟩ : ∃ words, putRecord
      ((version :: statedSizes count sections).map fun n => (4, n)) = .ok words := by
    refine putRecord_ok fun f hf => ?_
    obtain ⟨n, hn, rfl⟩ := mem_map.mp hf
    rcases mem_cons.mp hn with rfl | hn
    · exact hversion
    · exact h n hn
  exact ⟨sections, _, hmade, bind_eq_ok.mpr ⟨words, hwords, rfl⟩⟩

section

variable {version : Int} {codec : Codec} {places : Array Place} {kept : List Placed}
  {expressions : Bytes}

section

variable (hversion : 0 ≤ version ∧ version < 256 ^ 4) (hplaces : ∀ p ∈ places, p.Fits)
  (hkept : ∀ p ∈ kept, p.Fits version codec places)
include hversion hplaces hkept

/-- Commands that fit are written with their arguments. -/
theorem joinedSections_ok
    (hsplit : isSplit version = false) (hexpressions : expressions.length < 256 ^ 4)
    (hcommands : 32 + total (kept.map fun p => p.command.size version) < 256 ^ 4) :
    ∃ sections head, joinedSections version places kept expressions = .ok sections ∧
      header version kept.length sections = .ok head := by
  obtain ⟨chunks, hchunks, hlength⟩ := mapM_length_ok fun p hp =>
    writeJoined_ok hplaces hsplit (hkept p hp)
  refine exists_header hversion (bind_eq_ok.mpr ⟨chunks, hchunks, rfl⟩) ?_
  simp only [statedSizes, forall_mem_cons]
  exact ⟨by omega, by omega, by omega, by simp⟩

/-- Commands that fit are written in sections of their own. -/
theorem splitSections_ok
    (hsplit : isSplit version = true) (hexpressions : expressions.length < 256 ^ 4)
    (hcommands : 4 * kept.length < 256 ^ 4)
    (harguments : total (kept.map fun p =>
      total (p.command.arguments.map (Argument.size version))) < 256 ^ 4) :
    ∃ sections head, splitSections version places kept expressions = .ok sections ∧
      header version kept.length sections = .ok head := by
  obtain ⟨records, hrecords, hrecordsLength⟩ := mapM_length_ok fun p hp =>
    writeRecord_ok hsplit (hkept p hp)
  obtain ⟨lines, hlines, hlinesLength⟩ := mapM_length_ok fun p hp => writeLine_ok (hkept p hp)
  obtain ⟨chunks, hchunks, hlength⟩ := mapM_length_ok fun p hp =>
    writeArguments_ok hplaces (hkept p hp)
  rw [total_const] at hrecordsLength hlinesLength
  refine exists_header hversion (bind_eq_ok.mpr ⟨records, hrecords, bind_eq_ok.mpr ⟨lines, hlines,
    bind_eq_ok.mpr ⟨chunks, hchunks, rfl⟩⟩⟩) ?_
  simp only [statedSizes, forall_mem_cons]
  exact ⟨by omega, by omega, by omega, by omega, by omega, by simp⟩

end

end

theorem total_zip {data : List (List (List Piece))}
    (h : Forall₂ (fun c d => total (d.map pieceSize) = Command.storedSize version codec c)
      commands data) :
    total ((commands.zip data).map fun x => total (x.2.map pieceSize))
      = total (commands.map (Command.storedSize version codec)) := by
  induction h with
  | nil => rfl
  | cons hhead _ ih => rw [zip_cons_cons, map_cons, map_cons, total, total, hhead, ih]

theorem length_le_total_size (version : Int) : ∀ commands : List Command,
    4 * commands.length ≤ total (commands.map (Command.size version))
  | [] => Nat.le_refl _
  | c :: commands => by
    have hrest := length_le_total_size version commands
    have hsize : 4 ≤ c.size version := by
      unfold Command.size
      split <;> omega
    rw [map_cons, total, length_cons]
    omega

/-- **A draft that fits can be assembled.** -/
theorem assemble_ok (hversion : 0 ≤ version ∧ version < 256 ^ 4)
    (hcheck : ∀ c ∈ commands, ∀ a ∈ c.arguments, a.data.Accepted check)
    (h : Fits version codec commands) :
    ∃ a, assemble version none codec check commands = .ok a := by
  have hall : ∀ c ∈ commands, ∃ data, c.encoded version codec check = .ok data ∧
      total (data.map pieceSize) = c.storedSize version codec := fun c hc =>
    encoded_ok (hcheck c hc) fun hkept => h.each c (mem_filter.mpr ⟨hc, by simp [hkept]⟩)
  -- The data of every command, as one function of it.
  choose! encode hencode hsizes using hall
  generalize hdata : commands.map encode = data
  have hencoded : Forall₂ (fun c d => Command.encoded version codec check c = .ok d)
      commands data := by
    rw [← hdata, forall₂_map_right_iff, forall₂_same]
    exact hencode
  have hstored : Forall₂ (fun c d => total (d.map pieceSize)
      = Command.storedSize version codec c) commands data := by
    rw [← hdata, forall₂_map_right_iff, forall₂_same]
    exact hsizes
  generalize hplaced : placeFrom version {} (commands.zip data) = placed
  have hskips := skips_of_encoded hencoded
  have hkept : (keptOf version placed).map Placed.command = keptCommands version commands := by
    rw [map_command_keptOf, ← hplaced, map_command_placeFrom _ hencoded.length_eq]
  have hsize : (placesOf placed).size = commands.length := by
    rw [placesOf, ← hplaced, size_toArray, length_map, length_placeFrom, length_zip,
      hencoded.length_eq, Nat.min_self]
  have hexpressions : (expressionBytes placed).length < 256 ^ 4 := by
    rw [← hplaced, length_expressionBytes, total_zip hstored]
    exact h.expressions
  have hcommands : total ((keptOf version placed).map fun p => p.command.size version)
      = total ((keptCommands version commands).map (Command.size version)) := by
    rw [← hkept, map_map]
    rfl
  -- No place is beyond the sections, so every place and span can be written.
  have hbounds : ∀ p ∈ placed, p.place.Fits ∧
      p.place.expressions + total (p.data.map pieceSize) < 256 ^ 4 := by
    intro p hp
    obtain ⟨hindex, hoffset, hend⟩ := bounds_of_mem_placeFrom hskips (hplaced ▸ hp)
    rw [hplaced] at hindex hoffset hend
    rw [← length_map Placed.command, hkept] at hindex
    rw [hcommands] at hoffset
    have hcount := length_le_total_size version (keptCommands version commands)
    have htotal := h.commandSection
    exact ⟨⟨by omega, by omega, by omega⟩, by omega⟩
  have hplaces : ∀ q ∈ placesOf placed, q.Fits := by
    intro q hq
    obtain ⟨p, hp, rfl⟩ := mem_map.mp (mem_toArray.mp hq)
    exact (hbounds p hp).1
  have hfits : ∀ p ∈ keptOf version placed, p.Fits version codec (placesOf placed) := by
    intro p hp
    obtain ⟨hmem, hkeep⟩ := mem_filter.mp hp
    rw [Bool.not_eq_true'] at hkeep
    have hitem := mem_of_mem_placeFrom (hplaced ▸ hmem)
    refine ⟨?_, ?_, (hbounds p hmem).2⟩
    · rw [hsize]
      exact h.each _ (hkept ▸ mem_map_of_mem hp)
    · exact length_spans_of_encoded ((forall₂_iff_zip.mp hencoded).2 hitem) hkeep
  have harguments : total ((keptOf version placed).map fun p =>
        total (p.command.arguments.map (Argument.size version)))
      = total ((keptCommands version commands).map fun c =>
        total (c.arguments.map (Argument.size version))) := by
    rw [← hkept, map_map]
    rfl
  have hsections : ∃ sections head, sectionsOf version placed = .ok sections ∧
      header version (keptOf version placed).length sections = .ok head := by
    unfold sectionsOf
    cases hsplit : isSplit version with
    | false =>
      exact joinedSections_ok hversion hplaces hfits hsplit hexpressions
        (hcommands ▸ h.commandSection)
    | true =>
      have hcount := length_le_total_size version (keptCommands version commands)
      have htotal := h.commandSection
      rw [← hkept, length_map, hkept] at hcount
      exact splitSections_ok hversion hplaces hfits hsplit hexpressions (by omega)
        (harguments ▸ h.argumentSection hsplit)
  obtain ⟨sections, head, hsections, hhead⟩ := hsections
  exact ⟨⟨head, sections, placed⟩,
    assemble_eq_ok.mpr ⟨data, hencoded, hplaced.symm, hsections, hhead⟩⟩

end Draft

end NovelScript
