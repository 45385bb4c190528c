import Mathlib.Data.List.Perm.Basic
import NovelScript.Decompile.Globals
import NovelScript.Proofs.Decompile.Tables
import NovelScript.Proofs.Session

/-!
# Scripts do not meet while they are decompiled

Decompiling a script hands out labels, and what is handed out is gone for every script that comes
later. Still no script can tell which ones came before it: a computation that works on the labels of
one script (`Confined`) comes to an outcome that only those labels decide, and leaves the labels of
all other scripts alone. Both kinds of text are made by such computations (`confined_scriptText`),
so scripts with different numbers can share their labels, in any order, as if each had been alone
with them (`textsInTurn_eq_map_textAlone`).
-/

namespace NovelScript

open List

/-! ## Labels of one script -/

namespace WaitingLabels

/-- The labels of a script. -/
def ownedBy (labels : WaitingLabels) (own : Option Nat) : WaitingLabels :=
  labels.filter fun l => some l.script == own

/-- The labels of other scripts. -/
def notOwnedBy (labels : WaitingLabels) (own : Option Nat) : WaitingLabels :=
  labels.filter fun l => some l.script != own

/-- A script past the last that has a label has none. -/
@[simp] theorem ownedBy_none (labels : WaitingLabels) : labels.ownedBy none = [] := by
  simp [ownedBy]

theorem ownedBy_notOwnedBy {own other : Option Nat} (hne : other ≠ own) (labels : WaitingLabels) :
    (labels.notOwnedBy own).ownedBy other = labels.ownedBy other := by
  unfold ownedBy notOwnedBy
  rw [filter_filter]
  refine filter_congr fun l _ => ?_
  by_cases hl : some l.script = other
  · simp [hl, hne]
  · simp [hl]

theorem byOffset_congr {own : Option Nat} {labels labels' : WaitingLabels}
    (h : labels.ownedBy own = labels'.ownedBy own) :
    labels.byOffset own = labels'.byOffset own := by
  unfold ownedBy at h
  unfold byOffset
  rw [h]

end WaitingLabels

/-! ## Work on the labels of one script -/

namespace Labelling

variable {α β : Type} {own : Option Nat} (x : Labelling α) (f : α → Labelling β)
  (labels : WaitingLabels)

/-- What work comes to, apart from the labels that it leaves. -/
def outcome (x : Labelling α) (labels : WaitingLabels) : Except Fault α :=
  match x labels with
  | .ok a _ => .ok a
  | .error f _ => .error f

/-- The labels that work leaves, whether it succeeds or fails. -/
def left (x : Labelling α) (labels : WaitingLabels) : WaitingLabels :=
  match x labels with
  | .ok _ rest => rest
  | .error _ rest => rest

/-- Work that only sees and only takes the labels of a script. -/
structure Confined (own : Option Nat) (x : Labelling α) : Prop where
  /-- The labels of the script decide what the work comes to. -/
  outcome_congr : ∀ labels labels' : WaitingLabels, labels.ownedBy own = labels'.ownedBy own →
    x.outcome labels = x.outcome labels'
  /-- They also decide which of them are left. -/
  left_congr : ∀ labels labels' : WaitingLabels, labels.ownedBy own = labels'.ownedBy own →
    (x.left labels).ownedBy own = (x.left labels').ownedBy own
  /-- The labels of other scripts stay. -/
  others_stay : ∀ labels, (x.left labels).notOwnedBy own = WaitingLabels.notOwnedBy labels own

theorem confined_ofResult (x : Except Fault α) : Confined own (ofResult x) := by
  cases x with
  | ok a | error f => exact ⟨fun _ _ _ => rfl, fun _ _ h => h, fun _ => rfl⟩

theorem ofResult_ok_bind (a : α) (f : α → Labelling β) :
    ((ofResult (.ok a) : Labelling α) >>= f) = f a := rfl

theorem confined_pure (a : α) : Confined own (pure a : Labelling α) := confined_ofResult (.ok a)

theorem confined_require (holds : Bool) (fault : Fault) :
    Confined own (require holds fault : Labelling Unit) := by
  cases holds with
  | true => exact confined_ofResult (.ok ())
  | false => exact confined_ofResult (.error fault)

/-- The outcome of a step goes on with what it leaves. -/
theorem outcome_bind :
    outcome (x >>= f) labels =
      match x.outcome labels with
      | .ok a => (f a).outcome (x.left labels)
      | .error e => .error e := by
  unfold outcome left
  cases hx : x labels with
  | ok a rest => rw [runBind_of_ok hx]
  | error e rest => rw [runBind_of_error hx]

theorem left_bind :
    left (x >>= f) labels =
      match x.outcome labels with
      | .ok a => (f a).left (x.left labels)
      | .error _ => x.left labels := by
  unfold outcome left
  cases hx : x labels with
  | ok a rest => rw [runBind_of_ok hx]
  | error e rest => rw [runBind_of_error hx]

/-- Confined steps make a confined step. -/
theorem confined_bind {x : Labelling α} {f : α → Labelling β} (hx : Confined own x)
    (hf : ∀ a, Confined own (f a)) : Confined own (x >>= f) := by
  refine ⟨fun labels labels' h => ?_, fun labels labels' h => ?_, fun labels => ?_⟩
  · rw [outcome_bind, outcome_bind, hx.outcome_congr labels labels' h]
    cases x.outcome labels' with
    | ok a => exact (hf a).outcome_congr _ _ (hx.left_congr labels labels' h)
    | error e => rfl
  · rw [left_bind, left_bind, hx.outcome_congr labels labels' h]
    cases x.outcome labels' with
    | ok a => exact (hf a).left_congr _ _ (hx.left_congr labels labels' h)
    | error e => exact hx.left_congr labels labels' h
  · rw [left_bind]
    cases x.outcome labels with
    | ok a => exact ((hf a).others_stay _).trans (hx.others_stay labels)
    | error e => exact hx.others_stay labels

/-- A step may look at its own labels. -/
theorem confined_get {f : WaitingLabels → Labelling α} (hf : ∀ labels, Confined own (f labels))
    (hcongr : ∀ labels labels' : WaitingLabels, labels.ownedBy own = labels'.ownedBy own →
      f labels = f labels') : Confined own (get >>= f) := by
  -- `get` itself is not confined, only what is done with its result
  have hrun : ∀ labels, (get >>= f) labels = f labels labels := fun _ => rfl
  refine ⟨fun labels labels' h => ?_, fun labels labels' h => ?_, fun labels => ?_⟩
  · unfold outcome
    rw [hrun, hrun, hcongr labels labels' h]
    exact (hf labels').outcome_congr labels labels' h
  · unfold left
    rw [hrun, hrun, hcongr labels labels' h]
    exact (hf labels').left_congr labels labels' h
  · unfold left
    rw [hrun]
    exact (hf labels).others_stay labels

theorem outcome_take (own : Option Nat) (offset : Int) (labels : WaitingLabels) :
    (WaitingLabels.take own offset).outcome labels =
      .ok (((labels.ownedBy own).filter fun l => l.offset == offset).map WaitingLabel.name) := by
  simp only [outcome, WaitingLabels.take, WaitingLabels.ownedBy, filter_filter]
  simp only [Bool.and_comm]

theorem ownedBy_left_take (own : Option Nat) (offset : Int) (labels : WaitingLabels) :
    ((WaitingLabels.take own offset).left labels).ownedBy own =
      (labels.ownedBy own).filter fun l => l.offset != offset := by
  simp only [left, WaitingLabels.take, WaitingLabels.ownedBy, filter_filter]
  refine filter_congr fun l _ => ?_
  by_cases hl : some l.script = own
  · simp [hl, bne]
  · simp [beq_eq_false_iff_ne.mpr hl]

theorem confined_take (own : Option Nat) (offset : Int) :
    Confined own (WaitingLabels.take own offset) := by
  refine ⟨fun labels labels' h => ?_, fun labels labels' h => ?_, fun labels => ?_⟩
  · rw [outcome_take, outcome_take, h]
  · rw [ownedBy_left_take, ownedBy_left_take, h]
  · simp only [left, WaitingLabels.take, WaitingLabels.notOwnedBy, filter_filter]
    refine filter_congr fun l _ => ?_
    by_cases hl : some l.script = own
    · simp [hl]
    · simp [hl]

/-- Steps over a list are confined. -/
theorem confined_foldlM {s : β} {step : β → α → Labelling β}
    (hstep : ∀ s a, Confined own (step s a))
    (items : List α) : Confined own (items.foldlM step s) := by
  induction items generalizing s with
  | nil => exact confined_pure s
  | cons a items ih =>
    rw [foldlM_cons]
    exact confined_bind (hstep s a) fun _ => ih

/-- A confined step leaves the labels of other scripts. -/
theorem Confined.ownedBy_left {x : Labelling α} (hx : Confined own x) {other : Option Nat}
    (hne : other = none ∨ other ≠ own) (labels : WaitingLabels) :
    (x.left labels).ownedBy other = labels.ownedBy other := by
  rcases hne with rfl | hne
  · rw [WaitingLabels.ownedBy_none, WaitingLabels.ownedBy_none]
  · rw [← WaitingLabels.ownedBy_notOwnedBy hne, hx.others_stay,
      WaitingLabels.ownedBy_notOwnedBy hne]

end Labelling

/-! ## Scripts -/

open Labelling

namespace Decompiler

variable (d : Decompiler)

theorem confined_labelledStatement (own : Option Nat) (s : StatementState) (c : Command) :
    Confined own (d.labelledStatement own s c) :=
  confined_bind (confined_take own c.offset) fun _ => confined_ofResult _

theorem confined_labelledLine (own : Option Nat) (s : LineState) (c : Command) (isLast : Bool) :
    Confined own (d.labelledLine own s c isLast) :=
  confined_bind (confined_require _ _) fun _ =>
    confined_bind (confined_take own c.offset) fun _ => confined_ofResult _

theorem confined_linesFrom (own : Option Nat) (s : LineState) (commands : List Command) :
    Confined own (d.linesFrom own s commands) := by
  induction commands generalizing s with
  | nil => exact confined_pure s
  | cons c rest ih =>
    rw [linesFrom]
    exact confined_bind (d.confined_labelledLine own s c _) ih

/-- To show a script is confined to its own labels. -/
theorem confined_scriptText {number : Int} {own : Option Nat}
    (hown : d.labelledScript number = .ok own) (target : Target) (script : Script) :
    Confined own (d.scriptText target number script) := by
  cases target with
  | blocks =>
    refine confined_bind (confined_bind (confined_require _ _) fun _ => ?_) fun _ => confined_pure _
    rw [hown, ofResult_ok_bind]
    exact confined_bind (confined_foldlM (d.confined_labelledStatement own) _) fun _ =>
      confined_pure _
  | listing =>
    refine confined_bind (confined_require _ _) fun _ => ?_
    rw [hown, ofResult_ok_bind]
    refine confined_bind (confined_ofResult _) fun _ => ?_
    refine confined_bind (d.confined_linesFrom own _ _) fun _ => ?_
    refine confined_get (fun labels => ?_) fun labels labels' h => ?_
    · exact confined_bind (confined_require _ _) fun _ => confined_pure _
    · rw [WaitingLabels.byOffset_congr h]

/-! ## Scripts that share their labels -/

/-- A script that is to be decompiled, with its number. -/
structure Task where
  number : Nat
  script : Script

variable (target : Target)

/-- The text of a script, or its fault, if it is the only one that is decompiled. -/
def textAlone (labels : WaitingLabels) (t : Task) : Except Fault String :=
  (d.scriptText target t.number t.script).outcome labels

/-- The texts of scripts, or their faults, if they are decompiled one after another: each finds the
labels that those before it have left. -/
def textsInTurn : WaitingLabels → List Task → List (Except Fault String)
  | _, [] => []
  | labels, t :: rest =>
    (d.scriptText target t.number t.script).outcome labels ::
      textsInTurn ((d.scriptText target t.number t.script).left labels) rest

/-- The script whose labels a task takes. -/
def owner (t : Task) : Option Nat := if d.scripts ≤ t.number then none else some t.number

theorem confined_task (t : Task) : Confined (d.owner t) (d.scriptText target t.number t.script) :=
  d.confined_scriptText (labelledScript_natCast d t.number) target t.script

theorem owner_ne {t t' : Task} (hne : t.number ≠ t'.number) :
    d.owner t' = none ∨ d.owner t' ≠ d.owner t := by
  unfold owner
  split
  · exact .inl rfl
  · right
    split <;> simp [hne.symm]

/-- The invariant of a run: every script that is still to come finds the labels that it would find
at the start. -/
theorem textsInTurn_eq_map {labels now : WaitingLabels} {tasks : List Task}
    (hdistinct : (tasks.map Task.number).Nodup)
    (hnow : ∀ t ∈ tasks, now.ownedBy (d.owner t) = labels.ownedBy (d.owner t)) :
    d.textsInTurn target now tasks = tasks.map (d.textAlone target labels) := by
  induction tasks generalizing now with
  | nil => rfl
  | cons t rest ih =>
    rw [map_cons, nodup_cons] at hdistinct
    have ht := d.confined_task target t
    rw [textsInTurn, map_cons]
    congr 1
    · exact ht.outcome_congr now labels (hnow t mem_cons_self)
    · refine ih hdistinct.2 fun t' ht' => ?_
      have hne : t.number ≠ t'.number := fun heq =>
        hdistinct.1 (heq ▸ mem_map_of_mem ht')
      rw [ht.ownedBy_left (d.owner_ne hne)]
      exact hnow t' (mem_cons_of_mem _ ht')

/-- Scripts with different numbers that are decompiled one after another, in any order, come each to
the text, or the fault, that it comes to alone. -/
theorem textsInTurn_eq_map_textAlone (labels : WaitingLabels) {tasks order : List Task}
    (hdistinct : (tasks.map Task.number).Nodup) (horder : order.Perm tasks) :
    d.textsInTurn target labels order = order.map (d.textAlone target labels) :=
  d.textsInTurn_eq_map target ((horder.map Task.number).nodup_iff.mpr hdistinct) fun _ _ => rfl

/-- A decompiler of two scripts. -/
def pairDecompiler : Decompiler where
  version := 480
  commands :=
    ⟨480, ("END" :: "LET" :: BlockRole.names.map Prod.fst).map fun name => ⟨name, []⟩, [], []⟩
  names := []
  scripts := 2

/-- A label in each of them. -/
def pairLabels : WaitingLabels := [⟨0, 0, .ofString "one"⟩, ⟨1, 0, .ofString "two"⟩]

/-- A script that only ends. -/
def endingTask : Task := ⟨0, 480, 0, [⟨0, 1, 0, [], 0⟩]⟩

/-- A script that fails at its second command, when its label has been handed out. -/
def failingTask : Task := ⟨1, 480, 0, [⟨0, 1, 0, [], 0⟩, ⟨4, 2, 99, [], 0⟩]⟩

theorem textsInTurn_failing_first :
    ([endingTask, failingTask].map Task.number).Nodup ∧
    [failingTask, endingTask].Perm [endingTask, failingTask] ∧
    (∀ target, pairDecompiler.textsInTurn target pairLabels [failingTask, endingTask] =
      [failingTask, endingTask].map (pairDecompiler.textAlone target pairLabels)) ∧
    pairDecompiler.textAlone .blocks pairLabels endingTask = .ok "LBL = 'one'\nEND()" ∧
    pairDecompiler.textAlone .blocks pairLabels failingTask = .error (Cause.pastEnd 99) := by
  refine ⟨by decide, List.Perm.swap _ _ _, fun target => ?_, by decide +kernel, by decide +kernel⟩
  exact pairDecompiler.textsInTurn_eq_map_textAlone target pairLabels (by decide)
    (List.Perm.swap _ _ _)

end Decompiler

end NovelScript
