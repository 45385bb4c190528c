import Mathlib.Data.List.Nodup
import NovelScript.Proofs.Decompile.Labels
import NovelScript.Proofs.Decompile.Variables

/-!
# Tables that hold a linked script

A decompiler is made of tables. `HoldsVariables` and `HoldsLabels` say that a variable table and a
label table hold what a script needs; then the decompiler knows the variables of the script
(`sound_of_holdsVariables`), and the labels of the script wait for their commands
(`mem_waiting_iff`), in the order of the table.
-/

namespace NovelScript

open List

/-! ## Names by numbers -/

theorem position?_eq_some {size i : Nat} {n : Int} (hn : 0 ≤ n) :
    position? size n = some i ↔ n = i ∧ i < size := by
  have hle : ¬n < 0 := by omega
  simp only [position?, if_neg hle]
  split
  · rw [Option.some.injEq]
    omega
  · constructor
    · nofun
    · omega

namespace VariableNames

variable {names names' : VariableNames} {known : List Variable} {v : Variable}

/-- A variable is entered at its number. -/
theorem put_eq_ok (h : names.put v = .ok names') (hnumber : 0 ≤ v.number) :
    ∃ n, named? v = .ok n ∧ v.number.toNat < names.length ∧
      names' = names.set v.number.toNat n := by
  obtain ⟨n, hn, h⟩ := of_bind h
  obtain ⟨i, hi, h⟩ := of_bind h
  cases h
  obtain ⟨hi, hlt⟩ := (position?_eq_some hnumber).mp (orFault_eq_ok.mp hi)
  rw [hi, Int.toNat_natCast]
  exact ⟨n, hn, hlt, rfl⟩

/-- After entries with different numbers are put, each stands at its number and nothing else has
changed. -/
theorem getElem?_of_foldlM_put (h : known.foldlM put names = .ok names')
    (hnumbers : ∀ v ∈ known, 0 ≤ v.number) (hdistinct : (known.map Variable.number).Nodup)
    (i : Nat) :
    (∀ v ∈ known, v.number = i → ∃ n, named? v = .ok n ∧ names'[i]? = some n) ∧
      ((∀ v ∈ known, v.number ≠ i) → names'[i]? = names[i]?) := by
  induction known generalizing names with
  | nil =>
    cases h
    exact ⟨by simp, fun _ => rfl⟩
  | cons first rest ih =>
    obtain ⟨names₁, hput, h⟩ := of_bind h
    obtain ⟨n, hn, hlt, rfl⟩ := put_eq_ok hput (hnumbers first (by simp))
    rw [map_cons, nodup_cons] at hdistinct
    obtain ⟨ihmem, ihother⟩ := ih h (forall_mem_cons.mp hnumbers).2 hdistinct.2
    refine ⟨fun v hv hi => ?_, fun hother => ?_⟩
    · rcases mem_cons.mp hv with rfl | hv
      · -- no later entry has the number, so the first one stays
        have hlast : ∀ w ∈ rest, w.number ≠ i := fun w hw heq =>
          hdistinct.1 (mem_map.mpr ⟨w, hw, by rw [heq, hi]⟩)
        refine ⟨n, hn, ?_⟩
        rw [ihother hlast, show v.number.toNat = i by omega, getElem?_set_self (by omega)]
      · exact ihmem v hv hi
    · have hfirst := hother first (by simp)
      have hnonneg := hnumbers first (by simp)
      rw [ihother (forall_mem_cons.mp hother).2, getElem?_set_ne (by omega)]

theorem find?_natCast (names : VariableNames) (i : Nat) :
    names.find? i = .ok (names[i]?.getD none) := by
  unfold find?
  by_cases h : names.length ≤ i
  · rw [if_pos (by omega), getElem?_eq_none h]
    rfl
  · rw [if_neg (by omega), itemAt?_natCast,
      getElem?_eq_getElem (Nat.lt_of_not_le h)]
    rfl

section

variable (h : ofTable known = .ok names) (hnumbers : ∀ v ∈ known, 0 ≤ v.number)
  (hdistinct : (known.map Variable.number).Nodup)
include h hnumbers hdistinct

/-- A variable of the table is found by its number. -/
theorem find?_of_mem (hv : v ∈ known) : names.find? v.number = named? v := by
  obtain ⟨last, -, h⟩ := of_bind h
  have hnumber : v.number = (v.number.toNat : Int) := by
    have := hnumbers v hv
    omega
  obtain ⟨n, hn, hget⟩ := (getElem?_of_foldlM_put h hnumbers hdistinct _).1 v hv hnumber
  rw [hn, hnumber, find?_natCast, hget]
  rfl

theorem find?_of_untyped {i : Nat}
    (huntyped : ∀ v ∈ known, v.number = i → v.init = none) : names.find? i = .ok none := by
  by_cases hmem : ∃ v ∈ known, v.number = i
  · obtain ⟨v, hv, hi⟩ := hmem
    rw [← hi, find?_of_mem h hnumbers hdistinct hv, named?, huntyped v hv hi]
  · obtain ⟨last, -, h⟩ := of_bind h
    have hget := (getElem?_of_foldlM_put h hnumbers hdistinct i).2
      fun v hv hi => hmem ⟨v, hv, hi⟩
    rw [find?_natCast, hget, getElem?_replicate]
    split <;> rfl

/-- A typed variable has a name. -/
theorem exists_named (hv : v ∈ known) {init : Initial} (hinit : v.init = some init) :
    ∃ n, names.find? v.number = .ok (some n) ∧ n.entry = v ∧ v.name = .ok n.name := by
  obtain ⟨last, -, hfold⟩ := of_bind h
  have hnumber : v.number = (v.number.toNat : Int) := by
    have := hnumbers v hv
    omega
  obtain ⟨found, hfound, -⟩ := (getElem?_of_foldlM_put hfold hnumbers hdistinct _).1 v hv hnumber
  rw [find?_of_mem h hnumbers hdistinct hv, hfound]
  rw [named?, hinit] at hfound
  obtain ⟨name, hname, hfound⟩ := of_bind hfound
  cases hfound
  exact ⟨_, rfl, rfl, hname⟩

end

end VariableNames

/-! ## Variables of a script -/

/-- A table has a variable of a number, which is a text or not. -/
def TableHas (known : List Variable) (number : Int) (isText : Bool) : Prop :=
  ∃ v ∈ known, ∃ init, v.number = number ∧ v.init = some init ∧ (init.type == .text) = isText

/-- A variable table holds the linked variables of a script: the system's under their own numbers,
those with a definition or a reference under the numbers of their symbols. The temporary ones have
numbers of their own that the table does not have. -/
structure HoldsVariables (known : List Variable) (vocabulary : Vocabulary) (symbols : List Symbol)
    (numbers : Nat → Nat) : Prop where
  nonneg : ∀ v ∈ known, 0 ≤ v.number
  distinct : (known.map Variable.number).Nodup
  system : ∀ x type number, vocabulary.system.lookup x = some (type, number) →
    TableHas known number (type == .text)
  definition : ∀ (s : Nat) declared, symbols[s]? = some (.definition declared) →
    ∃ v ∈ known, ∃ init, v.number = numbers s ∧ v.init = some init ∧
      Project.initialOf declared.value = .ok init
  reference : ∀ (s : Nat) x type, symbols[s]? = some (.reference x) →
    vocabulary.declaredType? x = some type → TableHas known (numbers s) (type == .text)
  temporary : ∀ s : Nat, symbols[s]? = some .temporary →
    ∀ v ∈ known, v.number = numbers s → v.init = none
  temporaries : (temporaryNumbers numbers 0 symbols).Nodup

/-- A table that holds the variables of a script is sound for it. -/
theorem sound_of_holdsVariables {l : Linkage} {n : Names} {known : List Variable}
    (hv : l.vocabulary.SystemFirst) (hn : n.Numbered l.vocabulary)
    (hsymbols : l.symbols = n.symbols.reverse) (hnames : VariableNames.ofTable known = .ok l.names)
    (h : HoldsVariables known l.vocabulary l.symbols l.numbers) : l.Sound where
  systemFirst := hv
  distinct := by
    rw [hsymbols, filterMap_reverse]
    exact nodup_reverse.mpr hn.distinct
  notSystem x hx := by
    rw [hsymbols, filterMap_reverse, mem_reverse] at hx
    exact hn.system x hx
  system x type number hx := by
    obtain ⟨v, hmem, init, rfl, hinit, htext⟩ := h.system x type number hx
    obtain ⟨found, hfound, rfl, -⟩ :=
      VariableNames.exists_named hnames h.nonneg h.distinct hmem hinit
    refine ⟨found, hfound, ?_⟩
    rw [Variable.type, hinit]
    exact htext
  definition s declared hs := by
    obtain ⟨v, hmem, init, hnumber, hinit, hvalue⟩ := h.definition s declared hs
    obtain ⟨found, hfound, rfl, -⟩ :=
      VariableNames.exists_named hnames h.nonneg h.distinct hmem hinit
    exact ⟨found, init, hnumber ▸ hfound, hvalue, hinit⟩
  reference s x type hs htype := by
    obtain ⟨v, hmem, init, hnumber, hinit, htext⟩ := h.reference s x type hs htype
    obtain ⟨found, hfound, rfl, -⟩ :=
      VariableNames.exists_named hnames h.nonneg h.distinct hmem hinit
    refine ⟨found, hnumber ▸ hfound, ?_⟩
    rw [Variable.type, hinit]
    exact htext
  temporary s hs :=
    VariableNames.find?_of_untyped hnames h.nonneg h.distinct (h.temporary s hs)
  temporaries := h.temporaries

/-! ## Labels of a script -/

/-- The names of the labels of a script, in the order of a table. -/
def LabelTable.namesOf (table : LabelTable) (number : Nat) : List Wording :=
  (table.labels.filter fun l => l.script == (number : Int)).map Label.name

/-- A label table holds the labels of a compiled script under its number. -/
structure HoldsLabels (table : LabelTable) (number : Nat) (labels : List CompiledLabel) : Prop where
  nonneg : ∀ l ∈ table.labels, 0 ≤ l.script
  own : ∀ name position, (∃ l ∈ table.labels, l.script = number ∧ l.name = name ∧
    l.position = position) ↔ ∃ l ∈ labels, l.name = name ∧ (l.position : Int) = position

/-- A label of the table, as it waits. -/
def Label.waiting (version : Int) (l : Label) : WaitingLabel :=
  ⟨l.script.toNat, WaitingLabels.offsetOf version l.position, l.name⟩

/-- The labels that wait are those of the table. -/
theorem ofTable_eq_ok {table : LabelTable} {scripts : Nat} {waiting : WaitingLabels}
    (h : WaitingLabels.ofTable table scripts = .ok waiting)
    (hnonneg : ∀ l ∈ table.labels, 0 ≤ l.script) :
    waiting = table.labels.map (Label.waiting table.version) ∧
      ∀ l ∈ table.labels, l.script < scripts := by
  have h₂ := mapM_eq_ok.mp h
  clear h
  generalize table.labels = labels at h₂ hnonneg
  induction h₂ with
  | nil => simp
  | @cons l w _ _ hhead _ ih =>
    obtain ⟨rfl, hlt⟩ := ih (forall_mem_cons.mp hnonneg).2
    obtain ⟨script, hscript, hw⟩ := of_bind hhead
    cases hw
    obtain ⟨hscript, hrange⟩ :=
      (position?_eq_some (hnonneg l (by simp))).mp (orFault_eq_ok.mp hscript)
    refine ⟨?_, fun l' hl' => ?_⟩
    · rw [map_cons, Label.waiting, hscript]
      rfl
    · rcases mem_cons.mp hl' with rfl | hl'
      · omega
      · exact hlt l' hl'

theorem labelledScript_natCast (d : Decompiler) (number : Nat) :
    d.labelledScript number = .ok (if d.scripts ≤ number then none else some number) := by
  unfold Decompiler.labelledScript
  by_cases h : d.scripts ≤ number
  · rw [if_pos (by omega), if_pos h]
  · rw [if_neg (by omega), if_neg h, (position?_eq_some (by omega)).mpr ⟨rfl, by omega⟩]
    rfl

section

variable {table : LabelTable} {scripts number : Nat} {waiting : WaitingLabels}

theorem isOwn_iff {l : Label} (hl : 0 ≤ l.script) (hlt : l.script < scripts) (version : Int) :
    some (l.waiting version).script = (if scripts ≤ number then none else some number) ↔
      l.script = number := by
  have hscript : (l.waiting version).script = l.script.toNat := rfl
  rw [hscript]
  split
  · constructor
    · nofun
    · omega
  · rw [Option.some.injEq]
    omega

theorem order_eq_namesOf (h : WaitingLabels.ofTable table scripts = .ok waiting)
    (hnonneg : ∀ l ∈ table.labels, 0 ≤ l.script) :
    waiting.order (if scripts ≤ number then none else some number) = table.namesOf number := by
  obtain ⟨rfl, hlt⟩ := ofTable_eq_ok h hnonneg
  rw [WaitingLabels.order, LabelTable.namesOf, filter_map, map_map]
  refine congrArg (List.map Label.name) (filter_congr fun l hl => ?_)
  rw [Bool.eq_iff_iff, Function.comp_apply, beq_iff_eq, beq_iff_eq]
  exact isOwn_iff (hnonneg l hl) (hlt l hl) _

theorem exists_label_of_waiting {labels : List CompiledLabel}
    (hown : HoldsLabels table number labels) (h : WaitingLabels.ofTable table scripts = .ok waiting)
    {w : WaitingLabel} (hw : w ∈ waiting)
    (hscript : some w.script = if scripts ≤ number then none else some number) :
    ∃ l ∈ labels, l.name = w.name ∧ w.offset = WaitingLabels.offsetOf table.version l.position := by
  obtain ⟨rfl, hlt⟩ := ofTable_eq_ok h hown.nonneg
  obtain ⟨l, hl, rfl⟩ := mem_map.mp hw
  rw [isOwn_iff (hown.nonneg l hl) (hlt l hl)] at hscript
  obtain ⟨l', hl', hname, hposition⟩ := (hown.own l.name l.position).mp ⟨l, hl, hscript, rfl, rfl⟩
  refine ⟨l', hl', hname, ?_⟩
  rw [hposition]
  rfl

end

end NovelScript
