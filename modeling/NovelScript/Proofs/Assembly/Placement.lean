import NovelScript.Compile.Assembly
import NovelScript.Proofs.Bytecode

/-!
# Where the parts of a script stand

The first pass over a draft predicts places from sizes. Here the predictions are compared with what
the second pass writes: the data of every argument stands in the expression section at its span
(`forall₂_slice`), and the place of every command counts what was written before it.
-/

namespace NovelScript.Draft

open List

variable {codec : Codec} {check : Instr → Except Fault Unit} {code : List Instr}
  {pieces : List Piece} {start : Place} {c : Command} {data : List (List Piece)}
  {rest : List (Command × List (List Piece))} {p : Placed} {shown : Option Int}
  {commands : List Command} {a : Assembly}
variable {version : Int}

/-! ## Encoded data -/

/-- The bytes of pieces. -/
def pieceBytes (pieces : List Piece) : Bytes := pieces.flatMap Piece.bytes

/-- The bytes of the expressions of a command. -/
def Placed.bytes (p : Placed) : Bytes := p.data.flatMap pieceBytes

/-- The bytes of all expressions. -/
def expressionBytes (placed : List Placed) : Bytes := placed.flatMap Placed.bytes

/-- A check accepts all instructions of an argument. -/
def Data.Accepted (check : Instr → Except Fault Unit) : Data → Prop
  | .code instructions => ∀ i ∈ instructions, check i = .ok ()
  | _ => True

@[simp] theorem length_pieceBytes (pieces : List Piece) :
    (pieceBytes pieces).length = pieceSize pieces := by
  simp [pieceBytes, pieceSize, length_flatMap]

theorem length_dataBytes (data : List (List Piece)) :
    (data.flatMap pieceBytes).length = total (data.map pieceSize) := by
  simp [length_flatMap]

/-- Each instruction is a piece of its own. -/
theorem pieces_code_eq_ok (h : (Data.code code).pieces codec check = .ok pieces) :
    Forall₂ (fun i p => i.encode codec = .ok p.bytes ∧ check i = .ok () ∧
      p.instruction = some i) code pieces := by
  refine (mapM_eq_ok.mp h).imp fun i p hp => ?_
  obtain ⟨bytes, hbytes, hp⟩ := of_bind hp
  obtain ⟨_, hcheck, hp⟩ := of_bind hp
  cases hp
  exact ⟨hbytes, hcheck, rfl⟩

theorem pieces_text_eq_ok {w : Wording} (h : (Data.text w).pieces codec check = .ok pieces) :
    codec.encodeWording w = .ok (pieceBytes pieces) := by
  obtain ⟨bytes, hbytes, hpieces⟩ := of_bind h
  cases hpieces
  simpa [pieceBytes] using hbytes

/-- The bytes of code are read as its instructions. -/
theorem decodeAll_pieceBytes (codec' : Codec)
    (h : (Data.code code).pieces codec check = .ok pieces) :
    Instr.decodeAll codec' (pieceBytes pieces) = code.mapM (Instr.reread codec codec') := by
  have hbytes : Forall₂ (fun i b => Instr.encode codec i = .ok b) code
      (pieces.map Piece.bytes) := by
    rw [forall₂_map_right_iff]
    exact (pieces_code_eq_ok h).imp fun _ _ hp => hp.1
  rw [pieceBytes, flatMap_def]
  exact Instr.decodeAll_flatten codec' hbytes

/-! ## Spans -/

theorem length_spansFrom : ∀ (offset : Nat) (data : List (List Piece)),
    (spansFrom offset data).length = data.length
  | _, [] => rfl
  | offset, pieces :: rest => by rw [spansFrom, length_cons, length_spansFrom, length_cons]

/-- Spans cut the bytes of each argument out. -/
theorem forall₂_slice (expressions tail : Bytes) : ∀ {data : List (List Piece)} {offset : Nat},
    expressions.drop offset = data.flatMap pieceBytes ++ tail →
      Forall₂ (fun pieces (s : Span) => s.size = pieceSize pieces ∧
        (expressions.drop s.offset).take s.size = pieceBytes pieces) data (spansFrom offset data)
  | [], _, _ => Forall₂.nil
  | pieces :: rest, offset, h => by
    rw [flatMap_cons, append_assoc] at h
    refine Forall₂.cons ⟨rfl, ?_⟩ (forall₂_slice expressions tail ?_)
    · rw [h, take_left' (length_pieceBytes pieces)]
    · rw [← drop_drop, h, drop_left' (length_pieceBytes pieces)]

/-! ## Places -/

section

variable {version : Int}

/-- Commands that are left out have no data. -/
def Skips (version : Int) (items : List (Command × List (List Piece))) : Prop :=
  ∀ x ∈ items, x.1.presence.isLeftOut version = true → x.2 = []

/-- A command that is left out has no bytes. -/
theorem skips_of_encoded {codec : Codec} {check : Instr → Except Fault Unit}
    {commands : List Command} {data : List (List (List Piece))}
    (h : Forall₂ (fun c d => Command.encoded version codec check c = .ok d) commands data) :
    Skips version (commands.zip data) := by
  intro x hx hleft
  have hencoded := (forall₂_iff_zip.mp h).2 hx
  rw [Command.encoded, if_pos hleft] at hencoded
  exact (Except.ok.inj hencoded).symm

theorem expressions_after {p : Place} {c : Command} {data : List (List Piece)}
    (h : c.presence.isLeftOut version = true → data = []) :
    (p.after version c data).expressions = p.expressions + (data.flatMap pieceBytes).length := by
  rw [length_dataBytes]
  unfold Place.after
  split
  · next hleft => rw [h hleft]; rfl
  · rfl

theorem placeFrom_cons (start : Place) (c : Command) (data : List (List Piece))
    (rest : List (Command × List (List Piece))) :
    placeFrom version start ((c, data) :: rest) =
      ⟨c, start, data⟩ :: placeFrom version (start.after version c data) rest := rfl

/-- Placing changes no command. -/
theorem mem_of_mem_placeFrom : ∀ {items : List (Command × List (List Piece))} {start : Place}
    {p : Placed}, p ∈ placeFrom version start items → (p.command, p.data) ∈ items
  | [], _, _, hp => by cases hp
  | (c, data) :: rest, start, p, hp => by
    rcases mem_cons.mp hp with rfl | hp
    · exact mem_cons_self
    · exact mem_cons_of_mem _ (mem_of_mem_placeFrom hp)

theorem length_placeFrom : ∀ (items : List (Command × List (List Piece))) (start : Place),
    (placeFrom version start items).length = items.length
  | [], _ => rfl
  | (c, data) :: rest, start => by
    rw [placeFrom_cons, length_cons, length_placeFrom rest, length_cons]

theorem length_expressionBytes : ∀ (items : List (Command × List (List Piece))) (start : Place),
    (expressionBytes (placeFrom version start items)).length
      = total (items.map fun x => total (x.2.map pieceSize))
  | [], _ => rfl
  | (c, data) :: rest, start => by
    rw [placeFrom_cons, expressionBytes, flatMap_cons, length_append, Placed.bytes,
      length_dataBytes, map_cons, total]
    exact congrArg _ (length_expressionBytes rest _)

end

/-! ## Assembling -/

/-- The commands of a draft that are not left out. -/
def keptOf (version : Int) (placed : List Placed) : List Placed :=
  placed.filter fun p => !p.command.presence.isLeftOut version

theorem keptOf_leftOut (h : c.presence.isLeftOut version = true) :
    keptOf version (placeFrom version start ((c, data) :: rest))
      = keptOf version (placeFrom version start rest) := by
  simp [keptOf, placeFrom_cons, Place.after, h]

theorem keptOf_kept (h : c.presence.isLeftOut version = false) :
    keptOf version (placeFrom version start ((c, data) :: rest))
      = ⟨c, start, data⟩ ::
        keptOf version (placeFrom version (start.after version c data) rest) := by
  simp [keptOf, placeFrom_cons, h]

/-- The place of a command counts what stands before it. -/
theorem place_of_placeFrom {after : List Placed} :
    ∀ {items : List (Command × List (List Piece))} {start : Place} {before : List Placed},
      Skips version items → placeFrom version start items = before ++ p :: after →
      p.place = ⟨start.index + (keptOf version before).length,
        start.offset + total ((keptOf version before).map fun q => q.command.size version),
        start.expressions + (expressionBytes before).length⟩
  | [], _, before, _, h => by
    cases before <;> cases h
  | (c, data) :: rest, start, [], _, h => by
    cases h
    rfl
  | (c, data) :: rest, start, q :: before, hskips, h => by
    obtain ⟨rfl, hrest⟩ := List.cons.inj h
    have ih := place_of_placeFrom (forall_mem_cons.mp hskips).2 hrest
    have hbytes : expressionBytes (⟨c, start, data⟩ :: before)
        = data.flatMap pieceBytes ++ expressionBytes before := by
      rw [expressionBytes, flatMap_cons]
      rfl
    rw [ih, expressions_after (hskips _ mem_cons_self), hbytes, length_append]
    cases hleft : c.presence.isLeftOut version with
    | true => simp [Place.after, keptOf, hleft, Nat.add_assoc]
    | false => simp [Place.after, keptOf, hleft, Nat.add_assoc, Nat.add_comm 1]

/-- The bytes of a command start at its place. -/
theorem drop_placeFrom {items : List (Command × List (List Piece))} (hskips : Skips version items)
    (hp : p ∈ placeFrom version {} items) :
    ∃ tail, (expressionBytes (placeFrom version {} items)).drop p.place.expressions =
      p.bytes ++ tail := by
  obtain ⟨before, after, hsplit⟩ := append_of_mem hp
  rw [place_of_placeFrom hskips hsplit, hsplit, expressionBytes, expressionBytes, flatMap_append,
    flatMap_cons]
  exact ⟨_, drop_left' (Nat.zero_add _).symm⟩

theorem map_command_placeFrom : ∀ {commands : List Command}
    {data : List (List (List Piece))} (start : Place), commands.length = data.length →
    (placeFrom version start (commands.zip data)).map Placed.command = commands
  | [], [], _, _ => rfl
  | c :: commands, d :: data, start, hlength => by
    rw [zip_cons_cons, placeFrom_cons, map_cons, map_command_placeFrom _ (Nat.succ.inj hlength)]

/-- The places of all commands, by their numbers. -/
def placesOf (placed : List Placed) : Array Place := (placed.map Placed.place).toArray

/-- The sections of placed commands, in the layout of the version. -/
def sectionsOf (version : Int) (placed : List Placed) : Except Fault (List Bytes) :=
  if isSplit version then
    splitSections version (placesOf placed) (keptOf version placed) (expressionBytes placed)
  else joinedSections version (placesOf placed) (keptOf version placed) (expressionBytes placed)

/-- An assembled script has every command of the draft in its place, and its sections are written
from these. -/
theorem assemble_eq_ok :
    assemble version shown codec check commands = .ok a ↔
      ∃ data, Forall₂ (fun c d => Command.encoded version codec check c = .ok d) commands data ∧
        a.placed = placeFrom version {} (commands.zip data) ∧
        sectionsOf version a.placed = .ok a.sections ∧
        header (chosenVersion shown version) (keptOf version a.placed).length a.sections
          = .ok a.header := by
  have hassemble : assemble version shown codec check commands = (do
      let data ← commands.mapM (Command.encoded version codec check)
      let placed := placeFrom version {} (commands.zip data)
      let sections ← sectionsOf version placed
      return ⟨← header (chosenVersion shown version) (keptOf version placed).length sections,
        sections, placed⟩) := by
    unfold assemble sectionsOf
    cases isSplit version <;> rfl
  rw [hassemble, bind_eq_ok]
  simp only [mapM_eq_ok]
  constructor
  · rintro ⟨data, hdata, h⟩
    obtain ⟨sections, hsections, h⟩ := of_bind h
    obtain ⟨head, hhead, h⟩ := of_bind h
    cases h
    exact ⟨data, hdata, rfl, hsections, hhead⟩
  · rintro ⟨data, hdata, hplaced, hsections, hhead⟩
    refine ⟨data, hdata, ?_⟩
    rw [← hplaced]
    exact bind_eq_ok.mpr ⟨_, hsections, bind_eq_ok.mpr ⟨_, hhead, rfl⟩⟩

theorem commands_of_assemble (h : assemble version shown codec check commands = .ok a) :
    a.placed.map Placed.command = commands := by
  obtain ⟨data, hdata, hplaced, -⟩ := assemble_eq_ok.mp h
  rw [hplaced, map_command_placeFrom _ hdata.length_eq]

/-- A placed command is one of the draft, with its bytes. -/
theorem encoded_of_assemble (h : assemble version shown codec check commands = .ok a)
    (hp : p ∈ a.placed) :
    p.command ∈ commands ∧ p.command.encoded version codec check = .ok p.data := by
  obtain ⟨data, hdata, hplaced, -⟩ := assemble_eq_ok.mp h
  rw [hplaced] at hp
  have hmem := mem_of_mem_placeFrom hp
  exact ⟨(of_mem_zip hmem).1, (forall₂_iff_zip.mp hdata).2 hmem⟩

theorem length_spans_of_encoded (h : p.command.encoded version codec check = .ok p.data)
    (hkept : p.command.presence.isLeftOut version = false) :
    p.command.arguments.length = p.spans.length := by
  rw [Command.encoded, hkept, if_neg (by simp), mapM_eq_ok] at h
  rw [Placed.spans, length_spansFrom, h.length_eq]

/-- Every argument finds its bytes by its span. -/
theorem slices_of_assemble (h : assemble version shown codec check commands = .ok a)
    (hp : p ∈ a.placed) (hkept : p.command.presence.isLeftOut version = false) :
    Forall₂ (fun (x : Argument) (s : Span) => ∃ pieces,
      x.data.pieces codec check = .ok pieces ∧ s.size = pieceSize pieces ∧
        ((expressionBytes a.placed).drop s.offset).take s.size = pieceBytes pieces)
      p.command.arguments p.spans := by
  have hencoded := (encoded_of_assemble h hp).2
  rw [Command.encoded, hkept, if_neg (by simp), mapM_eq_ok] at hencoded
  obtain ⟨data, hdata, hplaced, -⟩ := assemble_eq_ok.mp h
  rw [hplaced] at hp ⊢
  obtain ⟨tail, htail⟩ := drop_placeFrom (skips_of_encoded hdata) hp
  exact forall₂_comp hencoded (forall₂_slice _ tail htail)

end NovelScript.Draft
