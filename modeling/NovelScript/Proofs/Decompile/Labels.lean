import NovelScript.Proofs.Decompile.Commands
import NovelScript.Proofs.Decompile.Restored

/-!
# Handing out labels

The decompiler finds the labels of a command by their offset, among all that wait. In the draft the
labels stand before their command instead. Here a script is seen as a list of events, labels and
commands in the order of the draft (`Happens`), and the decompiler reacts to them one by one
(`react`): labels are kept until the next command. That is what the decompiler does with the offsets
(`foldlM_labelledStatement`), since commands have growing offsets and a label has that of the
command after it.
-/

namespace NovelScript

open List

variable {d : Decompiler} {version : Int}
variable {table : CommandTable} {labelAt : Nat → Wording} {i : Nat} {events : List Event}

theorem VariableNames.greatest_eq_ok {numbers : List Int} {last : Int} :
    greatest numbers = .ok last ↔ last ∈ numbers ∧ ∀ n ∈ numbers, n ≤ last := by
  cases numbers with
  | nil => simp [greatest]
  | cons n rest =>
    rw [greatest, Except.ok.injEq, ← Option.some.injEq, ← max?_cons', max?_eq_some_iff]

/-! ## Events -/

/-- What happens while a script is decompiled. -/
inductive Event where
  | label (name : Wording)
  | command (r : Command)

/-- The events of the commands of a draft from a position on. -/
inductive Happens (table : CommandTable) (version : Int) (labelAt : Nat → Wording) :
    Nat → List Draft.Command → List Event → Prop
  | nil {i : Nat} : Happens table version labelAt i [] []
  | label {i : Nat} {c : Draft.Command} {rest : List Draft.Command} {events : List Event}
      (h : c.presence = .label) (hrest : Happens table version labelAt (i + 1) rest events) :
      Happens table version labelAt i (c :: rest) (.label (labelAt i) :: events)
  | command {i : Nat} {c : Draft.Command} {rest : List Draft.Command} {events : List Event}
      {r : Command} (h : c.presence = .kept) (hread : Draft.ReadBack table version c r)
      (hrest : Happens table version labelAt (i + 1) rest events) :
      Happens table version labelAt i (c :: rest) (.command r :: events)

/-- Events of commands are those of the first and those of the rest. -/
theorem Happens.of_append {first rest : List Draft.Command}
    (h : Happens table version labelAt i (first ++ rest) events) :
    ∃ before after, events = before ++ after ∧ Happens table version labelAt i first before ∧
      Happens table version labelAt (i + first.length) rest after := by
  induction first generalizing i events with
  | nil => exact ⟨[], events, rfl, .nil, h⟩
  | cons c first ih =>
    have hlength : i + (c :: first).length = i + 1 + first.length := by
      rw [length_cons]
      omega
    rw [hlength]
    cases h with
    | label hc hrest =>
      obtain ⟨before, after, rfl, hbefore, hafter⟩ := ih hrest
      exact ⟨_, after, rfl, .label hc hbefore, hafter⟩
    | command hc hread hrest =>
      obtain ⟨before, after, rfl, hbefore, hafter⟩ := ih hrest
      exact ⟨_, after, rfl, .command hc hread hbefore, hafter⟩

theorem Happens.of_singleton {c : Draft.Command} (h : Happens table version labelAt i [c] events)
    (hc : c.presence = .kept) : ∃ r, events = [.command r] ∧ Draft.ReadBack table version c r := by
  cases h with
  | label hlabel =>
    rw [hc] at hlabel
    cases hlabel
  | command _ hread hrest =>
    cases hrest
    exact ⟨_, rfl, hread⟩

/-- Reacts to an event: a label waits for the next command, and a command comes after the labels
that wait. -/
def Decompiler.react (d : Decompiler) (order : List Wording) (x : StatementState × List Wording) :
    Event → Except Fault (StatementState × List Wording)
  | .label name => .ok (x.1, name :: x.2)
  | .command r => do
    return (← d.statementOf { x.1 with blocks := x.1.blocks.add (pendingLabels order x.2) } r, [])

/-! ## Offsets -/

namespace Draft

/-- The offset of a command as the reader tells it. -/
def Place.readOffset (version : Int) (p : Place) : Int :=
  (if isSplit version then 4 * p.index else p.offset : Nat)

theorem readOffset_after_label {c : Command} (hc : c.presence = .label) (p : Place)
    (data : List (List Piece)) : p.after version c data = p := by
  simp [Place.after, hc, Presence.isLeftOut]

/-- Offsets rise behind a command. -/
theorem readOffset_lt_after {c : Command} (hc : c.presence = .kept) (p : Place)
    (data : List (List Piece)) :
    p.readOffset version < (p.after version c data).readOffset version := by
  unfold Place.readOffset Place.after Command.size
  rw [hc, Presence.isLeftOut]
  simp only [Bool.false_eq_true, if_false]
  split <;> omega

theorem readOffset_le_of_mem {items : List (Command × List (List Piece))} {start : Place}
    (hkept : ∀ x ∈ items, x.1.presence = .kept ∨ x.1.presence = .label) :
    ∀ p ∈ placeFrom version start items, start.readOffset version ≤ p.place.readOffset version := by
  induction items generalizing start with
  | nil =>
    intro p hp
    cases hp
  | cons item rest ih =>
    obtain ⟨c, data⟩ := item
    intro p hp
    rcases mem_cons.mp hp with rfl | hp
    · exact Int.le_refl _
    · have hle := ih (forall_mem_cons.mp hkept).2 p hp
      rcases hkept (c, data) (by simp) with hc | hc
      · have hlt : start.readOffset version < (start.after version c data).readOffset version :=
          readOffset_lt_after hc start data
        omega
      · rwa [readOffset_after_label hc] at hle

end Draft

/-! ## Labels that wait -/

/-- The labels at an offset of a script, as the decompiler tells them. -/
def WaitingLabel.isAt (own : Option Nat) (offset : Int) (w : WaitingLabel) : Bool :=
  some w.script == own && w.offset == offset

/-- The names of the labels of a script, in the order they wait in. -/
def WaitingLabels.order (waiting : WaitingLabels) (own : Option Nat) : List Wording :=
  (waiting.filter fun w => some w.script == own).map WaitingLabel.name

/-- Which labels wait when the decompiler comes to a position of the draft: of the labels before it,
those at its place are pending, and all at later places are still there. -/
structure Due (version : Int) (own : Option Nat) (waiting₀ : WaitingLabels)
    (indexOf : Wording → Nat) (labelAt : Nat → Wording) (i : Nat) (start : Draft.Place)
    (items : List (Draft.Command × List (List Draft.Piece))) (pending : List Wording)
    (waiting : WaitingLabels) : Prop where
  kept : ∀ x ∈ items, x.1.presence = .kept ∨ x.1.presence = .label
  labelled : ∀ k c data, items[k]? = some (c, data) → c.presence = .label →
    indexOf (labelAt (i + k)) = i + k
  past : ∀ w ∈ waiting₀, some w.script = own → indexOf w.name < i →
    w.offset ≤ start.readOffset version ∧
      (w.name ∈ pending ↔ w.offset = start.readOffset version)
  future : ∀ w ∈ waiting₀, some w.script = own → i ≤ indexOf w.name →
    ∃ p, (Draft.placeFrom version start items)[indexOf w.name - i]? = some p ∧
      p.command.presence = .label ∧ w.offset = p.place.readOffset version ∧
      labelAt (indexOf w.name) = w.name
  before : ∀ name ∈ pending, indexOf name < i
  left : ∀ offset, start.readOffset version ≤ offset →
    waiting.filter (WaitingLabel.isAt own offset) = waiting₀.filter (WaitingLabel.isAt own offset)

section

variable {own : Option Nat} {waiting₀ waiting : WaitingLabels} {indexOf : Wording → Nat}
  {labelAt : Nat → Wording} {i : Nat} {start : Draft.Place} {c : Draft.Command}
  {data : List (List Draft.Piece)} {items : List (Draft.Command × List (List Draft.Piece))}
  {pending : List Wording}

section

variable (h : Due version own waiting₀ indexOf labelAt i start ((c, data) :: items) pending waiting)
include h

theorem Due.later {w : WaitingLabel} (hw : w ∈ waiting₀) (hown : some w.script = own)
    (hi : i + 1 ≤ indexOf w.name) :
    ∃ p, (Draft.placeFrom version (start.after version c data) items)[indexOf w.name - (i + 1)]? =
        some p ∧ p.command.presence = .label ∧ w.offset = p.place.readOffset version ∧
      labelAt (indexOf w.name) = w.name := by
  obtain ⟨p, hp, hlabel⟩ := h.future w hw hown (by omega)
  rw [Draft.placeFrom, show indexOf w.name - i = indexOf w.name - (i + 1) + 1 by omega,
    getElem?_cons_succ] at hp
  exact ⟨p, hp, hlabel⟩

theorem Due.labelled_tail (k : Nat) (c' : Draft.Command) (data' : List (List Draft.Piece))
    (hk : items[k]? = some (c', data')) (hlabel : c'.presence = .label) :
    indexOf (labelAt (i + 1 + k)) = i + 1 + k := by
  rw [Nat.add_right_comm, Nat.add_assoc]
  exact h.labelled (k + 1) c' data' (by rw [getElem?_cons_succ, hk]) hlabel

theorem Due.label (hc : c.presence = .label) :
    Due version own waiting₀ indexOf labelAt (i + 1) (start.after version c data) items
      (labelAt i :: pending) waiting := by
  have hat : indexOf (labelAt i) = i := h.labelled 0 c data rfl hc
  have hsame : start.after version c data = start := Draft.readOffset_after_label hc start data
  refine ⟨(forall_mem_cons.mp h.kept).2, h.labelled_tail, ?_, fun w => h.later, ?_,
    by rw [hsame]; exact h.left⟩
  · intro w hw hown hi
    rw [hsame]
    rcases Nat.lt_succ_iff_lt_or_eq.mp hi with hlt | heq
    · obtain ⟨hle, hpending⟩ := h.past w hw hown hlt
      refine ⟨hle, ?_⟩
      have hne : w.name ≠ labelAt i := fun hname => by
        rw [hname, hat] at hlt
        exact Nat.lt_irrefl _ hlt
      rw [mem_cons, or_iff_right hne, hpending]
    · -- the label itself: it has the place of the command after it
      obtain ⟨p, hp, -, hoffset, hname⟩ := h.future w hw hown (by omega)
      rw [heq, Nat.sub_self, Draft.placeFrom, getElem?_cons_zero] at hp
      cases hp
      rw [heq] at hname
      exact ⟨Int.le_of_eq hoffset, by simp [hname, hoffset]⟩
  · intro name hname
    rcases mem_cons.mp hname with rfl | hname
    · omega
    · exact Nat.lt_succ_of_lt (h.before name hname)

section

variable (hc : c.presence = .kept)
include hc

/-- At a command exactly the labels at its offset are pending. -/
theorem Due.pending_iff {w : WaitingLabel} (hw : w ∈ waiting₀)
    (hown : some w.script = own) : w.name ∈ pending ↔ w.offset = start.readOffset version := by
  rcases Nat.lt_trichotomy (indexOf w.name) i with hlt | heq | hgt
  · exact (h.past w hw hown hlt).2
  · obtain ⟨p, hp, hlabel, -⟩ := h.future w hw hown (by omega)
    rw [heq, Nat.sub_self, Draft.placeFrom, getElem?_cons_zero] at hp
    cases hp
    rw [hc] at hlabel
    cases hlabel
  · obtain ⟨p, hp, -, hoffset, -⟩ := h.later hw hown hgt
    have hle := Draft.readOffset_le_of_mem (forall_mem_cons.mp h.kept).2 p
      (mem_of_getElem? hp)
    have hlt : start.readOffset version < (start.after version c data).readOffset version :=
      Draft.readOffset_lt_after hc start data
    constructor
    · intro hmem
      have := h.before w.name hmem
      omega
    · omega

/-- The labels that are taken at a command are those that wait for it. -/
theorem Due.names_eq :
    (waiting.filter (WaitingLabel.isAt own (start.readOffset version))).map WaitingLabel.name =
      (waiting₀.order own).filter fun name => pending.contains name := by
  rw [h.left _ (Int.le_refl _), WaitingLabels.order, filter_map, filter_filter]
  congr 1
  refine filter_congr fun w hw => ?_
  by_cases hown : some w.script = own
  · rw [Bool.eq_iff_iff]
    simp [WaitingLabel.isAt, hown, h.pending_iff hc hw hown]
  · have hother : (some w.script == own) = false := beq_eq_false_iff_ne.mpr hown
    simp [WaitingLabel.isAt, hother]

/-- Behind a command no label of it waits. -/
theorem Due.command :
    Due version own waiting₀ indexOf labelAt (i + 1) (start.after version c data) items []
      (waiting.filter fun w => !w.isAt own (start.readOffset version)) := by
  have hlt : start.readOffset version < (start.after version c data).readOffset version :=
    Draft.readOffset_lt_after hc start data
  refine ⟨(forall_mem_cons.mp h.kept).2, h.labelled_tail, ?_, fun w => h.later, by simp, ?_⟩
  · intro w hw hown hi
    have hle : w.offset ≤ start.readOffset version := by
      rcases Nat.lt_succ_iff_lt_or_eq.mp hi with hbefore | heq
      · exact (h.past w hw hown hbefore).1
      · obtain ⟨p, hp, -, hoffset, -⟩ := h.future w hw hown (by omega)
        rw [heq, Nat.sub_self, Draft.placeFrom, getElem?_cons_zero] at hp
        cases hp
        exact Int.le_of_eq hoffset
    exact ⟨by omega, by simp; omega⟩
  · intro offset hoffset
    rw [← h.left offset (by omega), filter_filter]
    refine filter_congr fun w _ => ?_
    by_cases hat : w.offset = offset
    · simp [WaitingLabel.isAt, hat]
      omega
    · simp [WaitingLabel.isAt, hat]

/-! ## Scripts -/

theorem labelledStatement_eq_ok {s s' : StatementState} {r : Command}
    (hoffset : r.offset = start.readOffset version)
    (hs : d.statementOf { s with
      blocks := s.blocks.add (pendingLabels (waiting₀.order own) pending) } r = .ok s') :
    d.labelledStatement own s r waiting =
      .ok s' (waiting.filter fun w => !w.isAt own (start.readOffset version)) := by
  have htake : WaitingLabels.take own r.offset waiting =
      .ok ((waiting₀.order own).filter fun name => pending.contains name)
        (waiting.filter fun w => !w.isAt own (start.readOffset version)) := by
    rw [← h.names_eq hc, hoffset]
    rfl
  rw [pendingLabels] at hs
  unfold Decompiler.labelledStatement
  show EStateM.bind (WaitingLabels.take own r.offset) _ waiting = _
  rw [EStateM.bind, htake]
  dsimp only
  rw [hs]
  rfl

end

end

/-- **The decompiler hands out labels as if it had passed them in the draft.** -/
theorem exists_happens {places : Array Draft.Place} {rs : List Command}
    (h : Due version own waiting₀ indexOf labelAt i start items pending waiting)
    (hread : Forall₂ (Draft.Placed.ReadAs d.commands version places)
      (Draft.keptOf version (Draft.placeFrom version start items)) rs) :
    ∃ events, Happens d.commands version labelAt i (items.map Prod.fst) events ∧
      ∀ s out, events.foldlM (d.react (waiting₀.order own)) (s, pending) = .ok out →
        ∃ waiting', rs.foldlM (d.labelledStatement own) s waiting = .ok out.1 waiting' := by
  induction items generalizing i start pending waiting rs with
  | nil =>
    cases hread
    refine ⟨[], .nil, fun s out hout => ⟨waiting, ?_⟩⟩
    cases hout
    rfl
  | cons item items ih =>
    obtain ⟨c, data⟩ := item
    -- A label has no command of its own: it waits for the next one that is kept.
    rcases h.kept (c, data) (by simp) with hc | hc
    · rw [Draft.keptOf_kept (by rw [show c.presence = _ from hc]; rfl)] at hread
      obtain ⟨r, rs, hr, hrest, rfl⟩ := forall₂_cons_left_iff.mp hread
      obtain ⟨events, hevents, hrun⟩ := ih (h.command hc) hrest
      refine ⟨_, .command hc (Draft.readBack_of_readAs hr) hevents, fun s out hout => ?_⟩
      obtain ⟨x, hx, hout⟩ := of_bind hout
      obtain ⟨s', hs', hx⟩ := of_bind hx
      cases hx
      obtain ⟨waiting', hwaiting⟩ := hrun s' out hout
      refine ⟨waiting', ?_⟩
      rw [foldlM_cons]
      show EStateM.bind _ _ waiting = _
      rw [EStateM.bind, labelledStatement_eq_ok h hc hr.offset hs']
      exact hwaiting
    · rw [Draft.keptOf_leftOut (by rw [show c.presence = _ from hc]; rfl)] at hread
      have hsame : start.after version c data = start := Draft.readOffset_after_label hc start data
      obtain ⟨events, hevents, hrun⟩ := ih (h.label hc) (hsame ▸ hread)
      refine ⟨_, .label hc hevents, fun s out hout => hrun s out ?_⟩
      exact hout

end

end NovelScript
