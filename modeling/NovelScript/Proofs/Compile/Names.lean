import Mathlib.Data.Option.Basic
import NovelScript.Compile.Names
import NovelScript.Proofs.Outcome

/-!
# What names stand for

While a script is compiled its names get numbers, and every number that is not the system's is that
of a symbol. `Numbered` says so for the names of a script at one moment: a temporary name has the
number of a temporary symbol, a static name that of its definition, and a name that is declared
outside that of a reference to it; and no two symbols are for one name. To resolve a name keeps
this, and only adds to what is known (`resolve_eq_ok`).
-/

namespace NovelScript.Names

open List

variable {v : Vocabulary} {n n' n'' : Names} {name : String} {t : ValueType} {k : Int}
variable {symbol : Symbol} {α : Type} {y : ValueType × Int} {x name' : String}
  {l : List (String × α)} {d : Declared}

/-! ## Symbols -/

/-- A number belongs to a symbol. -/
def Holds (n : Names) (k : Int) (symbol : Symbol) : Prop :=
  ∃ s : Nat, k = firstUserNumber + s ∧ n.symbols.reverse[s]? = some symbol

theorem Holds.lt_nextNumber (h : n.Holds k symbol) : k < n.nextNumber := by
  obtain ⟨s, rfl, hs⟩ := h
  have := (List.getElem?_eq_some_iff.mp hs).1
  rw [length_reverse] at this
  unfold nextNumber
  omega

theorem getElem?_reverse_of_suffix {xs ys : List α} (h : xs <:+ ys) {i : Nat} {a : α}
    (hi : xs.reverse[i]? = some a) : ys.reverse[i]? = some a := by
  obtain ⟨added, rfl⟩ := h
  rw [reverse_append, getElem?_append_left (List.getElem?_eq_some_iff.mp hi).1]
  exact hi

/-- Symbols that are added leave the numbers of the others. -/
theorem Holds.mono (h : n.Holds k symbol) (hs : n.symbols <:+ n'.symbols) : n'.Holds k symbol := by
  obtain ⟨s, hk, hget⟩ := h
  exact ⟨s, hk, getElem?_reverse_of_suffix hs hget⟩

/-- A new symbol has the next number. -/
theorem holds_nextNumber (h : n'.symbols = symbol :: n.symbols) : n'.Holds n.nextNumber symbol := by
  refine ⟨n.symbols.length, rfl, ?_⟩
  rw [h, reverse_cons, getElem?_append_right (by simp)]
  simp

/-- The name that a symbol is for, if it has one. -/
def nameOf? : Symbol → Option String
  | .definition d => some d.name
  | .reference name => some name
  | .temporary => none

/-- The names that symbols stand for. -/
def symbolNames (n : Names) : List String := n.symbols.filterMap nameOf?

/-! ## Numbered names -/

/-- Every name that a script has given or used has the number of a symbol for it, and symbols are
for different names. -/
structure Numbered (v : Vocabulary) (n : Names) : Prop where
  temporaries : ∀ {name t k}, n.temporaries.lookup name = some (t, k) → n.Holds k .temporary
  statics : ∀ {name t k}, n.statics.lookup name = some (t, k) →
    ∃ d : Declared, n.Holds k (.definition d) ∧ d.name = name ∧ d.value.type = t
  references : ∀ {name t k}, n.references.lookup name = some (t, k) →
    n.Holds k (.reference name) ∧ v.declaredType? name = some t
  listed : ∀ name ∈ n.symbolNames,
    (n.statics.lookup name).isSome ∨ (n.references.lookup name).isSome
  distinct : n.symbolNames.Nodup
  system : ∀ name ∈ n.symbolNames, v.system.lookup name = none

theorem numbered_empty (v : Vocabulary) : Numbered v {} where
  temporaries h := by simp at h
  statics h := by simp at h
  references h := by simp at h
  listed name h := by cases h
  distinct := nodup_nil
  system name h := by cases h

/-- A name is looked up inside the script first, then outside. -/
theorem find?_eq_some (h : n.find? v name = some y) :
    n.temporaries.lookup name = some y ∨ n.statics.lookup name = some y ∨
      n.references.lookup name = some y ∨ v.system.lookup name = some y := by
  simp only [find?, Option.orElse_eq_some] at h
  tauto

/-- Numbers of known names are below the next one. -/
theorem Numbered.lt_nextNumber (h : n.Numbered v)
    (hv : ∀ {name t k}, v.system.lookup name = some (t, k) → k < (firstUserNumber : Int))
    (hfind : n.find? v name = some (t, k)) : k < n.nextNumber := by
  rcases find?_eq_some hfind with ht | hs | hr | hsystem
  · exact (h.temporaries ht).lt_nextNumber
  · obtain ⟨d, hd, -⟩ := h.statics hs
    exact hd.lt_nextNumber
  · exact (h.references hr).1.lt_nextNumber
  · have := hv hsystem
    unfold nextNumber
    omega

/-! ## More names -/

theorem lookup_cons_eq_some {a b : α}
    (h : ((x, a) :: l).lookup name' = some b) : (name' = x ∧ b = a) ∨ l.lookup name' = some b := by
  rw [lookup_cons] at h
  split at h
  · next heq => exact .inl ⟨by simpa using heq, by simpa using h.symm⟩
  · exact .inr h

theorem isSome_lookup_cons {a : α} (h : (l.lookup name').isSome) :
    (((x, a) :: l).lookup name').isSome := by
  rw [lookup_cons]
  split
  · rfl
  · exact h

/-- More is known, and what was known has stayed: the new symbols are references. -/
structure Extends (v : Vocabulary) (n n' : Names) : Prop where
  symbols : ∃ added : List String, n'.symbols = added.map .reference ++ n.symbols
  temporaries : n'.temporaries = n.temporaries
  statics : n'.statics = n.statics
  found : ∀ {name y}, n.find? v name = some y → n'.find? v name = some y
  numbered : n.Numbered v → n'.Numbered v

theorem Extends.suffix (h : Extends v n n') : n.symbols <:+ n'.symbols := by
  obtain ⟨added, hadded⟩ := h.symbols
  exact ⟨_, hadded.symm⟩

theorem Extends.refl (v : Vocabulary) (n : Names) : Extends v n n :=
  ⟨⟨[], rfl⟩, rfl, rfl, id, id⟩

theorem Extends.trans (h : Extends v n n') (h' : Extends v n' n'') : Extends v n n'' where
  symbols := by
    obtain ⟨added, hadded⟩ := h.symbols
    obtain ⟨added', hadded'⟩ := h'.symbols
    exact ⟨added' ++ added, by rw [hadded', hadded, map_append, append_assoc]⟩
  temporaries := h'.temporaries.trans h.temporaries
  statics := h'.statics.trans h.statics
  found := h'.found ∘ h.found
  numbered := h'.numbered ∘ h.numbered

theorem find?_eq_none (h : n.find? v name = none) :
    n.temporaries.lookup name = none ∧ n.statics.lookup name = none ∧
      n.references.lookup name = none ∧ v.system.lookup name = none := by
  simpa only [find?, Option.orElse_eq_none] using h

/-- A first reference to a name gets a symbol of its own. -/
theorem numbered_reference (h : n.Numbered v) (hnone : n.find? v name = none)
    (htype : v.declaredType? name = some t) :
    Numbered v { n with
      symbols := .reference name :: n.symbols
      references := (name, t, n.nextNumber) :: n.references } := by
  -- The new symbol stands on top, so all numbers stay as they are.
  have hgrow : n.symbols <:+ .reference name :: n.symbols := suffix_cons _ _
  obtain ⟨-, hstatics, hreferences, hsystem⟩ := find?_eq_none hnone
  refine ⟨fun ht => (h.temporaries ht).mono hgrow, ?_, ?_, ?_, ?_, ?_⟩
  · intro x t' k hs
    obtain ⟨d, hd, hrest⟩ := h.statics hs
    exact ⟨d, hd.mono hgrow, hrest⟩
  · intro x t' k hr
    rcases lookup_cons_eq_some hr with ⟨rfl, heq⟩ | hr
    · cases heq
      exact ⟨holds_nextNumber rfl, htype⟩
    · exact ⟨(h.references hr).1.mono hgrow, (h.references hr).2⟩
  · intro x hx
    rcases mem_cons.mp hx with rfl | hx
    · exact .inr (by simp)
    · exact (h.listed x hx).imp id isSome_lookup_cons
  · refine nodup_cons.mpr ⟨fun hmem => ?_, h.distinct⟩
    rcases h.listed name hmem with hs | hr
    · simp [hstatics] at hs
    · simp [hreferences] at hr
  · intro x hx
    rcases mem_cons.mp hx with rfl | hx
    · exact hsystem
    · exact h.system x hx

theorem extends_reference (hnone : n.find? v name = none) (htype : v.declaredType? name = some t) :
    Extends v n { n with
      symbols := .reference name :: n.symbols
      references := (name, t, n.nextNumber) :: n.references } := by
  refine ⟨⟨[name], rfl⟩, rfl, rfl, ?_, fun h => numbered_reference h hnone htype⟩
  intro other y hy
  -- a name that is known already is not the one that is added
  have hne : (other == name) = false := by
    rw [beq_eq_false_iff_ne]
    rintro rfl
    rw [hnone] at hy
    cases hy
  simpa [find?, lookup_cons, hne] using hy

/-- To resolve a name only adds to the names, and the name is known then. -/
theorem resolve_eq_ok (h : n.resolve v name = .ok (y, n')) :
    Extends v n n' ∧ n'.find? v name = some y := by
  unfold resolve at h
  split at h
  · next found hfound =>
    cases h
    exact ⟨.refl v n, hfound⟩
  · next hnone =>
    obtain ⟨type, htype, h⟩ := of_bind h
    cases h
    obtain ⟨htemporaries, hstatics, -, -⟩ := find?_eq_none hnone
    refine ⟨extends_reference hnone (orFault_eq_ok.mp htype), ?_⟩
    simp [find?, htemporaries, hstatics]

/-! ## Definitions -/

theorem Numbered.addTemporary (h : n.Numbered v) (name : String) (t : ValueType) :
    (n.addTemporary name t).Numbered v := by
  have hgrow : n.symbols <:+ (n.addTemporary name t).symbols := suffix_cons _ _
  refine ⟨?_, ?_, fun hr => ⟨(h.references hr).1.mono hgrow, (h.references hr).2⟩, h.listed,
    h.distinct, h.system⟩
  · intro x t' k ht
    rcases lookup_cons_eq_some ht with ⟨rfl, heq⟩ | ht
    · cases heq
      exact holds_nextNumber rfl
    · exact (h.temporaries ht).mono hgrow
  · intro x t' k hs
    obtain ⟨d, hd, hrest⟩ := h.statics hs
    exact ⟨d, hd.mono hgrow, hrest⟩

/-- A new static variable keeps names and numbers together. -/
theorem Numbered.addStatic (h : n.Numbered v)
    (hstatics : n.statics.lookup d.name = none) (hdeclared : v.declaredType? d.name = none)
    (hsystem : v.system.lookup d.name = none) : (n.addStatic d).Numbered v := by
  have hgrow : n.symbols <:+ (n.addStatic d).symbols := suffix_cons _ _
  refine ⟨fun ht => (h.temporaries ht).mono hgrow, ?_,
    fun hr => ⟨(h.references hr).1.mono hgrow, (h.references hr).2⟩, ?_, ?_, ?_⟩
  · intro x t' k hs
    rcases lookup_cons_eq_some hs with ⟨rfl, heq⟩ | hs
    · cases heq
      exact ⟨d, holds_nextNumber rfl, rfl, rfl⟩
    · obtain ⟨d', hd, hrest⟩ := h.statics hs
      exact ⟨d', hd.mono hgrow, hrest⟩
  · intro x hx
    rcases mem_cons.mp hx with rfl | hx
    · exact .inl (by simp [Names.addStatic])
    · exact (h.listed x hx).imp isSome_lookup_cons id
  · refine nodup_cons.mpr ⟨fun hmem => ?_, h.distinct⟩
    rcases h.listed d.name hmem with hs | hr
    · simp [hstatics] at hs
    · obtain ⟨⟨t, k⟩, hlookup⟩ := Option.isSome_iff_exists.mp hr
      rw [(h.references hlookup).2] at hdeclared
      cases hdeclared
  · intro x hx
    rcases mem_cons.mp hx with rfl | hx
    · exact hsystem
    · exact h.system x hx

/-! ## Names of static variables -/

/-- No static variable has a name that is declared outside, or that of a temporary variable. -/
def Apart (v : Vocabulary) (n : Names) : Prop :=
  ∀ d, .definition d ∈ n.symbols → v.folders.lookup d.name = none ∧ v.globals.lookup d.name = none ∧
    n.temporaries.lookup d.name = none

/-- Resolving names makes no two variables of one name. -/
theorem Extends.apart (h : Extends v n n') (ha : n.Apart v) : n'.Apart v := by
  obtain ⟨added, hadded⟩ := h.symbols
  intro d hd
  rw [hadded] at hd
  rw [h.temporaries]
  refine ha d ((mem_append.mp hd).resolve_left fun hreference => ?_)
  obtain ⟨_, -, heq⟩ := mem_map.mp hreference
  cases heq

theorem Apart.addStatic (h : n.Apart v) (hfolders : v.folders.lookup d.name = none)
    (hglobals : v.globals.lookup d.name = none) (hlocal : n.temporaries.lookup d.name = none) :
    (n.addStatic d).Apart v := by
  intro d' hd'
  rcases mem_cons.mp hd' with heq | hd'
  · cases heq
    exact ⟨hfolders, hglobals, hlocal⟩
  · exact h d' hd'

/-- A temporary variable with a new name stays apart from the others. -/
theorem Apart.addTemporary (h : n.Apart v) (hn : n.Numbered v)
    (hstatics : n.statics.lookup name = none) (hdeclared : v.declaredType? name = none)
    (t : ValueType) : (n.addTemporary name t).Apart v := by
  intro d hd
  have hd' : .definition d ∈ n.symbols := (mem_cons.mp hd).resolve_left nofun
  obtain ⟨hfolders, hglobals, hlocal⟩ := h d hd'
  refine ⟨hfolders, hglobals, ?_⟩
  have hne : d.name ≠ name := by
    rintro rfl
    rcases hn.listed d.name (mem_filterMap.mpr ⟨_, hd', rfl⟩) with hs | hr
    · simp [hstatics] at hs
    · obtain ⟨⟨_, _⟩, hlookup⟩ := Option.isSome_iff_exists.mp hr
      rw [(hn.references hlookup).2] at hdeclared
      cases hdeclared
  rw [Names.addTemporary, lookup_cons, beq_eq_false_iff_ne.mpr hne]
  exact hlocal

end NovelScript.Names
