import NovelScript.Project.Link
import NovelScript.Proofs.Assembly.Placement

/-!
# Drafts with other numbers

To link a script is to give its symbols numbers. Here this is done to the draft, before it is
assembled: `relocate` replaces the numbers in all instructions. Since no size depends on a number,
the draft with the new numbers is assembled to the same places, and only the expression section of
the script differs (`assemble_relocate`). In an encoded instruction only the two bytes of its number
differ.
-/

namespace NovelScript

open List

variable {numbers : Nat → Nat}
variable {codec codec' : Codec}

/-! ## Instructions -/

/-- An instruction with the numbers of its symbols. -/
def Instr.relocate (numbers : Nat → Nat) : Instr → Instr
  | .access kind mark number =>
    .access kind mark (if number < firstUserNumber then number
      else numbers (number - firstUserNumber).toNat)
  | i => i

/-- The bytes of an instruction with the numbers that symbols are given. -/
def Instr.relocateBytes (numbers : Nat → Nat) (bytes : Bytes) : Instr → Bytes
  | .access _ _ number =>
    if number < firstUserNumber then bytes
    else
      let n := numbers (number - firstUserNumber).toNat
      (bytes.set 4 (UInt8.ofNat (n % 256))).set 5 (UInt8.ofNat (n / 256))
  | _ => bytes

@[simp] theorem Instr.length_relocateBytes (bytes : Bytes) (i : Instr) :
    (i.relocateBytes numbers bytes).length = bytes.length := by
  unfold Instr.relocateBytes
  split
  · split <;> simp
  · rfl

/-- A relocated instruction changes its number only. -/
theorem Instr.encode_relocate {i : Instr} {b : Bytes} (hn : ∀ s, numbers s < 0x10000)
    (h : i.encode codec = .ok b) :
    (i.relocate numbers).encode codec = .ok (i.relocateBytes numbers b) := by
  cases i with
  | access kind mark number =>
    by_cases hsystem : number < firstUserNumber
    · simpa only [relocate, relocateBytes, if_pos hsystem] using h
    · simp only [relocate, relocateBytes, if_neg hsystem]
      obtain ⟨-, rfl⟩ := encode_access_eq_ok.mp h
      have hlt := hn (number - firstUserNumber).toNat
      refine encode_access_eq_ok.mpr ⟨by omega, ?_⟩
      rw [Int.toNat_natCast]
      generalize numbers (number - firstUserNumber).toNat = n at hlt
      simp [Bytes.ofNat, Nat.mod_eq_of_lt (show n / 256 < 256 by omega)]
  | _ => exact h

/-- Rereading and linking commute. -/
theorem Instr.reread_relocate (i : Instr) :
    (i.relocate numbers).reread codec codec' =
      (i.reread codec codec').map (Instr.relocate numbers) := by
  cases i with
  | text literal =>
    simp only [relocate, reread]
    cases codec.encodeWording literal with
    | error e => rfl
    | ok bytes =>
      simp only [ok_bind]
      cases codec'.decode bytes <;> rfl
  | raw bytes =>
    simp only [relocate, reread]
    cases codec'.decode bytes <;> rfl
  | _ => rfl

theorem mapM_reread_relocate (code : List Instr) :
    (code.map (Instr.relocate numbers)).mapM (Instr.reread codec codec') =
      (code.mapM (Instr.reread codec codec')).map (List.map (Instr.relocate numbers)) := by
  induction code with
  | nil => rfl
  | cons i code ih =>
    rw [map_cons, mapM_cons, mapM_cons, ih, Instr.reread_relocate]
    cases i.reread codec codec' with
    | error e => rfl
    | ok j =>
      cases code.mapM (Instr.reread codec codec') <;> rfl

namespace Draft

variable {codec : Codec} {check : Instr → Except Fault Unit} {version : Int} {count : Nat}

/-! ## Drafts -/

/-- Data with the numbers of its symbols. -/
def Data.relocate (numbers : Nat → Nat) : Data → Data
  | .code instructions => .code (instructions.map (Instr.relocate numbers))
  | data => data

/-- An argument with the numbers of its symbols. -/
def Argument.relocate (numbers : Nat → Nat) (a : Argument) : Argument :=
  { a with data := a.data.relocate numbers }

/-- A command with the numbers of its symbols. -/
def Command.relocate (numbers : Nat → Nat) (c : Command) : Command :=
  { c with arguments := c.arguments.map (Argument.relocate numbers) }

/-- A piece with the numbers of its symbols. -/
def Piece.relocate (numbers : Nat → Nat) (p : Piece) : Piece :=
  match p.instruction with
  | some i => ⟨i.relocateBytes numbers p.bytes, some (i.relocate numbers)⟩
  | none => p

/-- A placed command with the numbers that symbols are given. -/
def Placed.relocate (numbers : Nat → Nat) (p : Placed) : Placed :=
  ⟨p.command.relocate numbers, p.place, p.data.map (List.map (Piece.relocate numbers))⟩

@[simp] theorem length_relocate_bytes (p : Piece) :
    (p.relocate numbers).bytes.length = p.bytes.length := by
  unfold Piece.relocate
  split <;> simp

@[simp] theorem pieceSize_relocate (pieces : List Piece) :
    pieceSize (pieces.map (Piece.relocate numbers)) = pieceSize pieces := by
  simp [pieceSize, Function.comp_def]

/-- Relocated data has relocated pieces. -/
theorem pieces_relocate {data : Data} {pieces : List Piece} (hn : ∀ s, numbers s < 0x10000)
    (h : data.pieces codec check = .ok pieces) :
    (data.relocate numbers).pieces codec (fun _ => .ok ()) =
      .ok (pieces.map (Piece.relocate numbers)) := by
  cases data with
  | code code =>
    refine mapM_eq_ok.mpr ?_
    rw [forall₂_map_left_iff, forall₂_map_right_iff]
    refine (pieces_code_eq_ok h).imp fun i p hp => ?_
    obtain ⟨hbytes, -, hinstruction⟩ := hp
    rw [encodePiece, Instr.encode_relocate hn hbytes, Piece.relocate, hinstruction]
    rfl
  | text w =>
    obtain ⟨bytes, hbytes, h⟩ := of_bind h
    cases h
    exact bind_eq_ok.mpr ⟨bytes, hbytes, rfl⟩
  | _ =>
    cases h
    rfl

/-- So has a relocated command. -/
theorem encoded_relocate {c : Command} {data : List (List Piece)} (hn : ∀ s, numbers s < 0x10000)
    (h : c.encoded version codec check = .ok data) :
    (c.relocate numbers).encoded version codec (fun _ => .ok ()) =
      .ok (data.map (List.map (Piece.relocate numbers))) := by
  unfold Command.encoded at h ⊢
  show (if c.presence.isLeftOut version then _ else _) = _
  split at h
  · next hleft =>
    cases h
    rw [if_pos hleft]
    rfl
  · next hleft =>
    rw [if_neg hleft, mapM_eq_ok, Command.relocate, forall₂_map_left_iff, forall₂_map_right_iff]
    exact (mapM_eq_ok.mp h).imp fun a pieces hp => pieces_relocate hn hp

/-! ## Places -/

@[simp] theorem Argument.size_relocate (version : Int) (a : Argument) :
    (a.relocate numbers).size version = a.size version := by
  unfold Argument.size
  rw [Argument.relocate]
  cases a.data <;> rfl

@[simp] theorem Command.size_relocate (version : Int) (c : Command) :
    (c.relocate numbers).size version = c.size version := by
  simp [Command.size, Command.relocate, Function.comp_def]

theorem after_relocate (version : Int) (p : Place) (c : Command) (data : List (List Piece)) :
    p.after version (c.relocate numbers) (data.map (List.map (Piece.relocate numbers))) =
      p.after version c data := by
  simp only [Place.after, Command.size_relocate, map_map, Function.comp_def, pieceSize_relocate]
  rfl

theorem spansFrom_relocate (data : List (List Piece)) (offset : Nat) :
    spansFrom offset (data.map (List.map (Piece.relocate numbers))) = spansFrom offset data := by
  induction data generalizing offset with
  | nil => rfl
  | cons pieces rest ih => simp [spansFrom, ih]

@[simp] theorem Placed.spans_relocate (p : Placed) : (p.relocate numbers).spans = p.spans :=
  spansFrom_relocate p.data p.place.expressions

/-- Linking moves no command. -/
theorem placeFrom_relocate (version : Int) : ∀ (items : List (Command × List (List Piece)))
    (start : Place),
    placeFrom version start (items.map (Prod.map (Command.relocate numbers)
        (List.map (List.map (Piece.relocate numbers))))) =
      (placeFrom version start items).map (Placed.relocate numbers)
  | [], _ => rfl
  | (c, data) :: rest, start => by
    rw [map_cons, Prod.map_apply, placeFrom, after_relocate, placeFrom_relocate version rest]
    rfl

theorem keptOf_relocate (version : Int) (placed : List Placed) :
    keptOf version (placed.map (Placed.relocate numbers)) =
      (keptOf version placed).map (Placed.relocate numbers) := by
  rw [keptOf, filter_map]
  rfl

theorem placesOf_relocate (placed : List Placed) :
    placesOf (placed.map (Placed.relocate numbers)) = placesOf placed := by
  rw [placesOf, map_map]
  rfl

@[simp] theorem length_expressionBytes_relocate (numbers : Nat → Nat) (placed : List Placed) :
    (expressionBytes (placed.map (Placed.relocate numbers))).length =
      (expressionBytes placed).length := by
  simp [expressionBytes, Placed.bytes, Placed.relocate, length_flatMap, Function.comp_def]

/-! ## Sections -/

/-- Linking changes no record of an argument. -/
theorem Argument.write_relocate (version : Int) (places : Array Place) (a : Argument) (s : Span) :
    (a.relocate numbers).write version places s = a.write version places s := by
  unfold Argument.write
  rw [Argument.relocate]
  cases a.data <;> rfl

theorem Placed.writeArguments_relocate (version : Int) (places : Array Place) (p : Placed) :
    (p.relocate numbers).writeArguments version places = p.writeArguments version places := by
  unfold Placed.writeArguments
  rw [Placed.spans_relocate, Placed.relocate, Command.relocate, zip_map_left, mapM_map]
  congr 2
  funext x
  exact Argument.write_relocate version places x.1 x.2

/-- Linking changes the expressions section only. -/
theorem sectionsOf_relocate (numbers : Nat → Nat) {placed : List Placed} {sections : List Bytes}
    (h : sectionsOf version placed = .ok sections) :
    (∃ commands arguments lines, sections = [commands, arguments, expressionBytes placed, lines] ∧
      sectionsOf version (placed.map (Placed.relocate numbers)) = .ok [commands, arguments,
        expressionBytes (placed.map (Placed.relocate numbers)), lines]) ∨
    ∃ commands, sections = [commands, expressionBytes placed] ∧
      sectionsOf version (placed.map (Placed.relocate numbers)) =
        .ok [commands, expressionBytes (placed.map (Placed.relocate numbers))] := by
  unfold sectionsOf at h ⊢
  rw [placesOf_relocate, keptOf_relocate]
  by_cases hsplit : isSplit version = true
  · rw [if_pos hsplit] at h ⊢
    obtain ⟨commands, hcommands, h⟩ := of_bind h
    obtain ⟨lines, hlines, h⟩ := of_bind h
    obtain ⟨arguments, harguments, h⟩ := of_bind h
    cases h
    refine .inl ⟨commands.flatten, arguments.flatten, lines.flatten, rfl, ?_⟩
    simp only [splitSections, mapM_map, Function.comp_def, Placed.writeArguments_relocate]
    refine bind_eq_ok.mpr ⟨commands, ?_, bind_eq_ok.mpr ⟨lines, hlines, bind_eq_ok.mpr
      ⟨arguments, harguments, rfl⟩⟩⟩
    simpa only [Placed.relocate, Command.relocate, length_map] using hcommands
  · rw [if_neg hsplit] at h ⊢
    obtain ⟨commands, hcommands, h⟩ := of_bind h
    cases h
    refine .inr ⟨commands.flatten, rfl, ?_⟩
    simp only [joinedSections, mapM_map, Function.comp_def, Placed.writeArguments_relocate]
    refine bind_eq_ok.mpr ⟨commands, ?_, rfl⟩
    simpa only [Placed.relocate, Command.relocate, length_map] using hcommands

theorem header_splitExpressions {cs as e e' ls : Bytes} (h : e'.length = e.length) :
    header version count [cs, as, e', ls] = header version count [cs, as, e, ls] := by
  unfold header
  dsimp only
  rw [h]

theorem header_joinedExpressions {cs e e' : Bytes} (h : e'.length = e.length) :
    header version count [cs, e'] = header version count [cs, e] := by
  unfold header
  dsimp only
  rw [h]

/-- **A draft with other numbers is assembled to the same places.** A function that makes the new
expression section of the old one makes the new script of the old one. -/
theorem assemble_relocate {shown : Option Int} {commands : List Command} {a : Assembly}
    (hn : ∀ s, numbers s < 0x10000) (h : assemble version shown codec check commands = .ok a) :
    ∃ a', assemble version shown codec (fun _ => .ok ())
        (commands.map (Command.relocate numbers)) = .ok a' ∧
      a'.placed = a.placed.map (Placed.relocate numbers) ∧
      ∀ f : Bytes → Except Fault Bytes,
        f (expressionBytes a.placed) = .ok (expressionBytes a'.placed) →
        Project.changeExpressions f a.segments = .ok a'.segments := by
  obtain ⟨data, hdata, hplaced, hsections, hheader⟩ := assemble_eq_ok.mp h
  have hdata' : Forall₂ (fun c d => Command.encoded version codec (fun _ => .ok ()) c = .ok d)
      (commands.map (Command.relocate numbers))
      (data.map (List.map (List.map (Piece.relocate numbers)))) := by
    rw [forall₂_map_left_iff, forall₂_map_right_iff]
    exact hdata.imp fun c d hd => encoded_relocate hn hd
  have hplaced' : a.placed.map (Placed.relocate numbers) = placeFrom version {}
      ((commands.map (Command.relocate numbers)).zip
        (data.map (List.map (List.map (Piece.relocate numbers))))) := by
    rw [hplaced, ← placeFrom_relocate, zip_map]
  have hkept : (keptOf version (a.placed.map (Placed.relocate numbers))).length =
      (keptOf version a.placed).length := by
    rw [keptOf_relocate, length_map]
  have hlength := length_expressionBytes_relocate numbers a.placed
  -- the header tells the lengths of the sections, which are the same
  rcases sectionsOf_relocate numbers hsections with ⟨cs, as, ls, hs, hs'⟩ | ⟨cs, hs, hs'⟩
  · rw [hs] at hheader
    refine ⟨⟨a.header, _, a.placed.map (Placed.relocate numbers)⟩,
      assemble_eq_ok.mpr ⟨_, hdata', hplaced', hs', ?_⟩, rfl, ?_⟩
    · rw [hkept]
      exact (header_splitExpressions hlength).trans hheader
    · intro f hf
      rw [Assembly.segments, hs]
      exact bind_eq_ok.mpr ⟨_, hf, rfl⟩
  · rw [hs] at hheader
    refine ⟨⟨a.header, _, a.placed.map (Placed.relocate numbers)⟩,
      assemble_eq_ok.mpr ⟨_, hdata', hplaced', hs', ?_⟩, rfl, ?_⟩
    · rw [hkept]
      exact (header_joinedExpressions hlength).trans hheader
    · intro f hf
      rw [Assembly.segments, hs]
      exact bind_eq_ok.mpr ⟨_, hf, rfl⟩

end Draft

end NovelScript
