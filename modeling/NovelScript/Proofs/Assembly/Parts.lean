import NovelScript.Proofs.Assembly.Commands

/-!
# The parts of an assembled script

The sections of a script are made of what each command puts into them, one command after another
(`parts_of_assemble`). So the place that the first pass gives to a command can be read off the
sections: it counts the commands before it, or their bytes, and the bytes of their expressions
(`place_eq_position`).
-/

namespace NovelScript.Draft

open List

variable {bytes : Bytes} {p : Placed}

/-- What one command puts into the sections of a script. -/
structure Part where
  /-- The code and the number of arguments. -/
  head : Bytes
  /-- The number of parameters, where there is room for it. -/
  parameters : Bytes := []
  line : Bytes
  arguments : List Bytes
  expressions : Bytes

namespace Part

/-- The code of the command, as it is read. -/
def code (x : Part) : Nat := x.head.field 0 1

/-- The number of arguments, as it is read. -/
def argumentCount (x : Part) : Nat := x.head.field 1 1

/-- The line, as it is read. -/
def lineNumber (x : Part) : Nat := x.line.field 0 4

/-- What a part puts into the command section. -/
def command (version : Int) (x : Part) : Bytes :=
  if isSplit version then x.head ++ x.parameters else x.head ++ x.line ++ x.arguments.flatten

/-- The sections that parts make together. -/
def sections (version : Int) (parts : List Part) : List Bytes :=
  if isSplit version then
    [parts.flatMap (command version), parts.flatMap fun x => x.arguments.flatten,
      parts.flatMap expressions, parts.flatMap line]
  else [parts.flatMap (command version), parts.flatMap expressions]

/-- The position of a command, or of the end: how many commands stand before it, or how many bytes
in the command section. -/
def position (version : Int) (parts : List Part) (n : Nat) : Nat :=
  if isSplit version then n else ((parts.take n).flatMap (command version)).length

/-- How many bytes of expressions stand before those of a command. -/
def expressionsBefore (parts : List Part) (n : Nat) : Nat :=
  ((parts.take n).flatMap expressions).length

/-- The fields of a part have the sizes that readers take them by, but for arguments that are joined
to commands and for expressions, whose sizes the arguments tell. -/
structure Formed (version : Int) (x : Part) : Prop where
  head : x.head.length = 2
  parameters : x.parameters.length = if isSplit version then 2 else 0
  line : x.line.length = 4
  arguments : x.arguments.length = x.argumentCount
  argument : ∀ b ∈ x.arguments, b.length = 12 ∨ isSplit version = false

end Part

/-- A placed command is written as a part. -/
structure Placed.WrittenAs (version : Int) (places : Array Place) (p : Placed) (x : Part) :
    Prop where
  formed : x.Formed version
  code : (x.code : Int) = p.command.code
  argumentCount : x.argumentCount = p.command.arguments.length
  line : (x.lineNumber : Int) = p.command.line
  arguments : Forall₂ (fun (a : Argument × Span) bytes =>
    a.1.write version places a.2 = .ok bytes) (p.command.arguments.zip p.spans) x.arguments
  expressions : x.expressions = p.bytes
  size : (x.command version).length = p.command.size version

variable {version : Int} {places : Array Place} {kept : List Placed} {parts : List Part}

/-! ## Commands as they are written -/

theorem length_argument_of_write {x : Argument × Span}
    (h : x.1.write version places x.2 = .ok bytes) :
    bytes.length = 12 ∨ isSplit version = false := by
  rw [length_write h, Argument.size]
  split
  · cases isSplit version with
    | true => exact .inl rfl
    | false => exact .inr rfl
  · exact .inl rfl

/-- Records that are written one by one make a part. -/
theorem writtenAs_of_fields {x : Part} (hspans : p.command.arguments.length = p.spans.length)
    (hhead : putRecord [(1, p.command.code), (1, (p.command.arguments.length : Int))] = .ok x.head)
    (hparameters : x.parameters.length = if isSplit version then 2 else 0)
    (hline : putRecord [(4, p.command.line)] = .ok x.line)
    (harguments : Forall₂ (fun (a : Argument × Span) bytes =>
      a.1.write version places a.2 = .ok bytes) (p.command.arguments.zip p.spans) x.arguments)
    (hexpressions : x.expressions = p.bytes) : p.WrittenAs version places x := by
  have hcount : x.argumentCount = p.command.arguments.length :=
    Int.ofNat.inj (field_putRecord hhead 1 rfl)
  have hlength : x.arguments.length = p.command.arguments.length := by
    rw [← harguments.length_eq, length_zip, ← hspans, Nat.min_self]
  refine ⟨⟨length_putRecord hhead, hparameters, length_putRecord hline, hlength.trans hcount.symm,
    fun b hb => ?_⟩, field_putRecord hhead 0 rfl, hcount, field_putRecord hline 0 rfl, harguments,
    hexpressions, ?_⟩
  · obtain ⟨a, -, ha⟩ := exists_of_mem_forall₂_right harguments hb
    exact length_argument_of_write ha
  · have hhead : x.head.length = 2 := length_putRecord hhead
    have hline : x.line.length = 4 := length_putRecord hline
    -- The size of the command is that of its fields, with or without the arguments.
    have hsizes := length_flatten_write hspans harguments
    unfold Part.command Command.size
    cases hsplit : isSplit version with
    | true =>
      rw [hsplit] at hparameters
      rw [if_pos rfl, if_pos rfl, length_append, hhead, hparameters]
      rfl
    | false =>
      rw [if_neg (by simp), if_neg (by simp), length_append, length_append, hhead, hline,
        hsizes]

theorem part_of_writeJoined (hsplit : isSplit version = false)
    (hspans : p.command.arguments.length = p.spans.length)
    (h : p.writeJoined version places = .ok bytes) :
    ∃ x : Part, x.command version = bytes ∧ p.WrittenAs version places x := by
  obtain ⟨record, hrecord, h⟩ := of_bind h
  obtain ⟨arguments, harguments, h⟩ := of_bind h
  cases h
  obtain ⟨chunks, hchunks, harguments⟩ := of_bind harguments
  cases harguments
  have hfields : putRecord ([(1, p.command.code), (1, (p.command.arguments.length : Int))] ++
      [(4, p.command.line)]) = .ok record := hrecord
  obtain ⟨head, line, hhead, hline, rfl⟩ := putRecord_append hfields
  refine ⟨⟨head, [], line, chunks, p.bytes⟩, ?_, ?_⟩
  · rw [Part.command, hsplit]
    rfl
  · refine writtenAs_of_fields hspans hhead ?_ hline (mapM_eq_ok.mp hchunks) rfl
    rw [hsplit]
    rfl

theorem part_of_writeRecord (hsplit : isSplit version = true)
    (hspans : p.command.arguments.length = p.spans.length) {record line arguments : Bytes}
    (hrecord : p.writeRecord = .ok record) (hline : p.writeLine = .ok line)
    (harguments : p.writeArguments version places = .ok arguments) :
    ∃ x : Part, x.command version = record ∧ x.line = line ∧ x.arguments.flatten = arguments ∧
      p.WrittenAs version places x := by
  obtain ⟨chunks, hchunks, harguments⟩ := of_bind harguments
  cases harguments
  have hfields : putRecord ([(1, p.command.code), (1, (p.command.arguments.length : Int))] ++
      [(2, p.command.parameters)]) = .ok record := hrecord
  obtain ⟨head, parameters, hhead, hparameters, rfl⟩ := putRecord_append hfields
  refine ⟨⟨head, parameters, line, chunks, p.bytes⟩, ?_, rfl, rfl, ?_⟩
  · rw [Part.command, hsplit]
    rfl
  · refine writtenAs_of_fields hspans hhead ?_ hline (mapM_eq_ok.mp hchunks) rfl
    rw [hsplit]
    exact length_putRecord hparameters

/-- Commands joined to their arguments are parts. -/
theorem parts_of_writeJoined (hsplit : isSplit version = false) {chunks : List Bytes}
    (hspans : ∀ p ∈ kept, p.command.arguments.length = p.spans.length)
    (h : Forall₂ (fun (p : Placed) chunk => p.writeJoined version places = .ok chunk) kept chunks) :
    ∃ parts : List Part, parts.flatMap (Part.command version) = chunks.flatten ∧
      Forall₂ (Placed.WrittenAs version places) kept parts := by
  induction h with
  | nil => exact ⟨[], rfl, .nil⟩
  | cons hchunk _ ih =>
    obtain ⟨parts, hparts, hwritten⟩ := ih (forall_mem_cons.mp hspans).2
    obtain ⟨x, rfl, hx⟩ := part_of_writeJoined hsplit (hspans _ mem_cons_self) hchunk
    exact ⟨x :: parts, by rw [flatMap_cons, hparts, flatten_cons], .cons hx hwritten⟩

/-- Commands with sections for arguments and lines are parts. -/
theorem parts_of_writeRecord (hsplit : isSplit version = true) :
    ∀ {kept : List Placed} {records lines arguments : List Bytes},
      (∀ p ∈ kept, p.command.arguments.length = p.spans.length) →
      Forall₂ (fun (p : Placed) b => p.writeRecord = .ok b) kept records →
      Forall₂ (fun (p : Placed) b => p.writeLine = .ok b) kept lines →
      Forall₂ (fun (p : Placed) b => p.writeArguments version places = .ok b) kept arguments →
      ∃ parts : List Part, parts.flatMap (Part.command version) = records.flatten ∧
        parts.flatMap Part.line = lines.flatten ∧
        parts.flatMap (fun x => x.arguments.flatten) = arguments.flatten ∧
        Forall₂ (Placed.WrittenAs version places) kept parts
  | [], _, _, _, _, .nil, .nil, .nil => ⟨[], rfl, rfl, rfl, .nil⟩
  | _ :: _, _, _, _, hspans, .cons hrecord hrecords, .cons hline hlines,
      .cons hargument harguments => by
    obtain ⟨parts, hcommands, hrest, hothers, hwritten⟩ := parts_of_writeRecord hsplit
      (forall_mem_cons.mp hspans).2 hrecords hlines harguments
    obtain ⟨x, rfl, rfl, rfl, hx⟩ :=
      part_of_writeRecord hsplit (hspans _ mem_cons_self) hrecord hline hargument
    refine ⟨x :: parts, ?_, ?_, ?_, .cons hx hwritten⟩
    · rw [flatMap_cons, hcommands, flatten_cons]
    · rw [flatMap_cons, hrest, flatten_cons]
    · rw [flatMap_cons, hothers, flatten_cons]

/-! ## Expressions -/

theorem keptOf_append (xs ys : List Placed) :
    keptOf version (xs ++ ys) = keptOf version xs ++ keptOf version ys := filter_append ..

/-- What is left out has no expressions. -/
theorem expressionBytes_keptOf {placed : List Placed}
    (h : ∀ p ∈ placed, p.command.presence.isLeftOut version = true → p.data = []) :
    expressionBytes (keptOf version placed) = expressionBytes placed := by
  induction placed with
  | nil => rfl
  | cons p rest ih =>
    have hrest := ih (forall_mem_cons.mp h).2
    cases hleft : p.command.presence.isLeftOut version with
    | true =>
      have hbytes : p.bytes = [] := by rw [Placed.bytes, h p mem_cons_self hleft]; rfl
      rw [show expressionBytes (p :: rest) = p.bytes ++ expressionBytes rest from rfl, hbytes,
        nil_append, ← hrest, keptOf, filter_cons_of_neg (by simp [hleft])]
      rfl
    | false =>
      rw [show expressionBytes (p :: rest) = p.bytes ++ expressionBytes rest from rfl, ← hrest,
        keptOf, filter_cons_of_pos (by simp [hleft])]
      rfl

theorem expressions_of_writtenAs (h : Forall₂ (Placed.WrittenAs version places) kept parts) :
    parts.flatMap Part.expressions = expressionBytes kept := by
  induction h with
  | nil => rfl
  | cons hx _ ih =>
    rw [flatMap_cons, ih, hx.expressions]
    rfl

/-! ## Assembled scripts -/

section

variable {shown : Option Int} {codec : Codec} {check : Instr → Except Fault Unit}
  {commands : List Command} {a : Assembly}

section

variable (h : assemble version shown codec check commands = .ok a)
include h

theorem data_of_leftOut {p : Placed}
    (hp : p ∈ a.placed) (hleft : p.command.presence.isLeftOut version = true) : p.data = [] := by
  have hencoded := (encoded_of_assemble h hp).2
  rw [Command.encoded, if_pos hleft] at hencoded
  exact (Except.ok.inj hencoded).symm

/-- **An assembled script is made of the parts of the commands that are not left out.** -/
theorem parts_of_assemble :
    ∃ parts, a.sections = Part.sections version parts ∧
      Forall₂ (Placed.WrittenAs version (placesOf a.placed)) (keptOf version a.placed)
        parts := by
  obtain ⟨data, -, -, hsections, -⟩ := assemble_eq_ok.mp h
  have hexpressions := expressionBytes_keptOf fun p hp => data_of_leftOut h (p := p) hp
  have hspans (p : Placed) (hp : p ∈ keptOf version a.placed) :
      p.command.arguments.length = p.spans.length := by
    obtain ⟨hp, hleft⟩ := mem_filter.mp hp
    exact length_spans_of_encoded (encoded_of_assemble h hp).2 (by simpa using hleft)
  unfold sectionsOf at hsections
  -- The layout decides which records make a part.
  cases hsplit : isSplit version with
  | true =>
    rw [if_pos hsplit] at hsections
    obtain ⟨records, hrecords, hsections⟩ := of_bind hsections
    obtain ⟨lines, hlines, hsections⟩ := of_bind hsections
    obtain ⟨arguments, harguments, hsections⟩ := of_bind hsections
    obtain ⟨parts, hcommands, hrest, hothers, hwritten⟩ := parts_of_writeRecord hsplit hspans
      (mapM_eq_ok.mp hrecords) (mapM_eq_ok.mp hlines) (mapM_eq_ok.mp harguments)
    refine ⟨parts, (Except.ok.inj hsections).symm.trans ?_, hwritten⟩
    rw [Part.sections, if_pos hsplit, hcommands, hrest, hothers, expressions_of_writtenAs hwritten,
      hexpressions]
  | false =>
    rw [if_neg (by simp [hsplit])] at hsections
    obtain ⟨chunks, hchunks, hsections⟩ := of_bind hsections
    obtain ⟨parts, hcommands, hwritten⟩ :=
      parts_of_writeJoined hsplit hspans (mapM_eq_ok.mp hchunks)
    refine ⟨parts, (Except.ok.inj hsections).symm.trans ?_, hwritten⟩
    rw [Part.sections, if_neg (by simp [hsplit]), hcommands, expressions_of_writtenAs hwritten,
      hexpressions]

end

/-- The sizes of commands add up to their section. -/
theorem length_command_of_writtenAs (h : Forall₂ (Placed.WrittenAs version places) kept parts) :
    (parts.flatMap (Part.command version)).length =
      total (kept.map fun p => p.command.size version) := by
  induction h with
  | nil => rfl
  | cons hx _ ih =>
    rw [flatMap_cons, length_append, hx.size, ih]
    rfl

/-- **The place of a command of the draft is the position of the next command that is kept.** -/
theorem place_eq_position (h : assemble version shown codec check commands = .ok a)
    (hparts : Forall₂ (Placed.WrittenAs version places) (keptOf version a.placed) parts)
    {j : Nat} {p : Placed} (hp : a.placed[j]? = some p) :
    (if isSplit version then p.place.index else p.place.offset) =
        Part.position version parts (keptOf version (a.placed.take j)).length ∧
      p.place.expressions =
        Part.expressionsBefore parts (keptOf version (a.placed.take j)).length := by
  obtain ⟨data, hdata, hplaced, -⟩ := assemble_eq_ok.mp h
  obtain ⟨hj, rfl⟩ := List.getElem?_eq_some_iff.mp hp
  generalize hbefore : a.placed.take j = before
  have hcut : a.placed = before ++ a.placed[j] :: a.placed.drop (j + 1) := by
    rw [← hbefore, ← drop_eq_getElem_cons hj, take_append_drop]
  have hplace := place_of_placeFrom (skips_of_encoded hdata) (hplaced.symm.trans hcut)
  have hmem : ∀ q ∈ before, q ∈ a.placed := fun q hq => mem_of_mem_take (hbefore ▸ hq)
  -- the parts before are those of the kept commands before
  have hkept : (keptOf version a.placed).take (keptOf version before).length =
      keptOf version before := by
    rw [hcut, keptOf_append]
    exact take_left
  have htake := forall₂_take (keptOf version before).length hparts
  rw [hkept] at htake
  rw [hplace]
  refine ⟨?_, ?_⟩
  · rw [Part.position]
    cases hsplit : isSplit version with
    | true => exact Nat.zero_add _
    | false => exact (Nat.zero_add _).trans (length_command_of_writtenAs htake).symm
  · rw [Part.expressionsBefore, expressions_of_writtenAs htake,
      expressionBytes_keptOf fun q hq => data_of_leftOut h (hmem q hq)]
    exact Nat.zero_add _

/-- A jump is written as the place of its target. -/
theorem fields_of_jump {x : Argument} {span : Span} {target : Nat} {p : Place} {bytes : Bytes}
    (hjump : x.data = .jump target) (hplace : places[target]? = some p)
    (h : x.write version places span = .ok bytes) :
    bytes.field 4 4 = (if isSplit version then p.index else p.offset) ∧
      bytes.field 8 4 = p.expressions := by
  have hrecord := putRecord_of_write h fun ⟨n, hn⟩ => by cases hjump.symm.trans hn
  have hlocation : x.location version places span =
      (((if isSplit version then p.index else p.offset : Nat) : Int), (p.expressions : Int)) := by
    unfold Argument.location
    simp only [hjump, Array.getD_eq_getD_getElem?, hplace]
    rfl
  rw [hlocation] at hrecord
  have hposition := field_putRecord hrecord 3 rfl
  have hexpressions := field_putRecord hrecord 4 rfl
  exact ⟨Int.ofNat.inj hposition, Int.ofNat.inj hexpressions⟩

end

/-! ## Positions -/

namespace Part

theorem position_le (version : Int) (parts : List Part) {m n : Nat} (h : m ≤ n) :
    position version parts m ≤ position version parts n := by
  unfold position
  split
  · exact h
  · have hcut : parts.take n = parts.take m ++ (parts.take n).drop m := by
      conv_lhs => rw [← take_append_drop m (parts.take n), take_take, Nat.min_eq_left h]
    rw [hcut, flatMap_append, length_append]
    exact Nat.le_add_right _ _

/-- Positions rise from part to part. -/
theorem position_lt (hformed : ∀ x ∈ parts, x.Formed version) {m n : Nat} (h : m < n)
    (hm : m < parts.length) : position version parts m < position version parts n := by
  refine Nat.lt_of_lt_of_le ?_ (position_le version parts h)
  unfold position
  split
  · exact Nat.lt_succ_self m
  · next hsplit =>
    have hhead := (hformed _ (getElem_mem hm)).head
    rw [take_succ_eq_append_getElem hm, flatMap_append, length_append,
      flatMap_singleton, command, if_neg hsplit, length_append, length_append]
    omega

end Part

end NovelScript.Draft
