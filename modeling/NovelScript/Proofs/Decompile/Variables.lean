import NovelScript.Proofs.Compile.Symbols
import NovelScript.Proofs.Decompile.Restored

/-!
# Variables that the decompiler shows

The compiler knows variables by their names, a linked script by numbers, and the decompiler gives
them names again. `Linkage.Follows` ties the three together at one moment: the names that are known
to the compiler, the new names so far, and the temporary variables that the decompiler has met. It
is kept by everything that adds names, and while it holds every known name is shown
(`Follows.shownBy`).
-/

namespace NovelScript

open List

/-! ## Symbols -/

/-- The numbers of the temporary variables among symbols that start at a position. -/
def temporaryNumbers (numbers : Nat → Nat) (start : Nat) : List Symbol → List Nat
  | [] => []
  | .temporary :: rest => numbers start :: temporaryNumbers numbers (start + 1) rest
  | _ :: rest => temporaryNumbers numbers (start + 1) rest

theorem temporaryNumbers_references (numbers : Nat → Nat) (start : Nat) (names : List String)
    (rest : List Symbol) :
    temporaryNumbers numbers start (names.map .reference ++ rest) =
      temporaryNumbers numbers (start + names.length) rest := by
  induction names generalizing start with
  | nil => rfl
  | cons name names ih =>
    rw [map_cons, cons_append, temporaryNumbers, ih, length_cons,
      show start + 1 + names.length = start + (names.length + 1) by omega]
    · simp

/-- A symbol is found by its name, since no other has it. -/
theorem findIdx?_nameOf? {symbols : List Symbol} (h : (symbols.filterMap Names.nameOf?).Nodup)
    {s : Nat} {symbol : Symbol} {x : String} (hs : symbols[s]? = some symbol)
    (hx : Names.nameOf? symbol = some x) :
    symbols.findIdx? (fun a => Names.nameOf? a == some x) = some s := by
  induction symbols generalizing s with
  | nil => cases hs
  | cons first rest ih =>
    cases s with
    | zero =>
      cases hs
      simp [findIdx?_cons, hx]
    | succ s =>
      have hmem : x ∈ rest.filterMap Names.nameOf? :=
        mem_filterMap.mpr ⟨symbol, mem_of_getElem? hs, hx⟩
      have hrest : (rest.filterMap Names.nameOf?).Nodup := by
        rw [filterMap_cons] at h
        split at h
        · exact h
        · exact (nodup_cons.mp h).2
      have hne : Names.nameOf? first ≠ some x := fun hfirst => by
        rw [filterMap_cons, hfirst] at h
        exact (nodup_cons.mp h).1 hmem
      simp [findIdx?_cons, hne, ih hrest hs]

theorem type_of_initialOf {value : DeclaredValue} {init : Initial}
    (h : Project.initialOf value = .ok init) : init.type = value.type := by
  cases value with
  | int n | float x =>
    cases h
    rfl
  | wholeFloat n =>
    obtain ⟨x, -, h⟩ := of_bind h
    cases h
    rfl
  | text w =>
    rw [Project.initialOf] at h
    split at h
    · cases h
      rfl
    · obtain ⟨literal, -, h⟩ := of_bind h
      cases h
      rfl

/-! ## Linked variables -/

/-- How the variables of a script are linked. -/
structure Linkage where
  vocabulary : Vocabulary
  /-- The symbols of the script, in their order. -/
  symbols : List Symbol
  /-- The number that each symbol is given. -/
  numbers : Nat → Nat
  /-- The variables that the decompiler knows. -/
  names : VariableNames

namespace Linkage

variable {l : Linkage}
variable {n : Names} {ρ : Renaming} {locals : Temporaries} {symbol : Symbol} {x : String}
  {t : ValueType}

/-- The name that a number is shown by. -/
def shownName (l : Linkage) (number : Int) : String :=
  match l.names.find? number with
  | .ok (some n) => n.name
  | _ => ""

/-- The number of a variable that is not temporary: that of its symbol or the system's. -/
def numberOf (l : Linkage) (x : String) : Int :=
  match l.symbols.findIdx? fun a => Names.nameOf? a == some x with
  | some s => l.numbers s
  | none => ((l.vocabulary.system.lookup x).map Prod.snd).getD 0

/-- The new name of a variable that is not temporary. -/
def outerName (l : Linkage) (x : String) : String := l.shownName (l.numberOf x)

/-- The names that are shown at the start. -/
def startNames (l : Linkage) : Renaming where
  outer := l.outerName
  upcoming := temporaryNumbers l.numbers 0 l.symbols

/-- A number is that of a variable which is a text or not. -/
def Knows (l : Linkage) (number : Int) (isText : Bool) : Prop :=
  ∃ n, l.names.find? number = .ok (some n) ∧ (n.entry.type == .text) = isText

/-- The decompiler knows every variable of a script that is not temporary by its number, and no
temporary one. -/
structure Sound (l : Linkage) : Prop where
  systemFirst : l.vocabulary.SystemFirst
  distinct : (l.symbols.filterMap Names.nameOf?).Nodup
  notSystem : ∀ x ∈ l.symbols.filterMap Names.nameOf?, l.vocabulary.system.lookup x = none
  system : ∀ x type number, l.vocabulary.system.lookup x = some (type, number) →
    l.Knows number (type == .text)
  definition : ∀ (s : Nat) declared, l.symbols[s]? = some (.definition declared) →
    ∃ n init, l.names.find? (l.numbers s) = .ok (some n) ∧
      Project.initialOf declared.value = .ok init ∧ n.entry.init = some init
  reference : ∀ (s : Nat) x type, l.symbols[s]? = some (.reference x) →
    l.vocabulary.declaredType? x = some type → l.Knows (l.numbers s) (type == .text)
  temporary : ∀ s : Nat, l.symbols[s]? = some .temporary → l.names.find? (l.numbers s) = .ok none
  temporaries : (temporaryNumbers l.numbers 0 l.symbols).Nodup

theorem linkedNumber_symbol (numbers : Nat → Nat) (s : Nat) :
    linkedNumber numbers (firstUserNumber + s) = numbers s := by
  rw [linkedNumber, if_neg (by omega)]
  congr 2
  omega

theorem variableAt_of_knows {number : Int} {isText : Bool} (h : l.Knows number isText)
    (locals : Temporaries) :
    ∃ type, variableAt l.names locals number = .ok (l.shownName number, type) ∧
      (type == .text) = isText := by
  obtain ⟨n, hn, htype⟩ := h
  exact ⟨n.entry.type, by rw [variableAt, shownName, hn]; rfl, htype⟩

/-! ## Names at one moment -/

/-- The names that the compiler knows, the new names, and the temporary variables of the decompiler
belong to one moment of a script. -/
structure Follows (l : Linkage) (n : Names) (ρ : Renaming) (locals : Temporaries) : Prop where
  numbered : n.Numbered l.vocabulary
  symbols : n.symbols.reverse <+: l.symbols
  outer : ρ.outer = l.outerName
  temporaries : ∀ x t k, n.temporaries.lookup x = some (t, k) →
    ∃ y, ρ.temporaries.lookup x = some y ∧
      locals.lookup (linkedNumber l.numbers k) = some (y, t)
  others : ∀ x, n.temporaries.lookup x = none → ρ.temporaries.lookup x = none
  upcoming : ρ.upcoming =
    temporaryNumbers l.numbers n.symbols.length (l.symbols.drop n.symbols.length)
  distinct : (locals.map Prod.fst ++ ρ.upcoming.map Int.ofNat).Nodup

theorem Follows.getElem? (h : l.Follows n ρ locals) {k : Int} (hk : n.Holds k symbol) :
    ∃ s : Nat, l.symbols[s]? = some symbol ∧ linkedNumber l.numbers k = l.numbers s := by
  obtain ⟨s, rfl, hs⟩ := hk
  obtain ⟨rest, hrest⟩ := h.symbols
  refine ⟨s, ?_, linkedNumber_symbol _ _⟩
  rw [← hrest, getElem?_append_left (List.getElem?_eq_some_iff.mp hs).1]
  exact hs

theorem Sound.numberOf_eq (hl : l.Sound) {s : Nat} (hs : l.symbols[s]? = some symbol)
    (hx : Names.nameOf? symbol = some x) : l.numberOf x = l.numbers s := by
  rw [numberOf, findIdx?_nameOf? hl.distinct hs hx]

theorem Sound.numberOf_system (hl : l.Sound) {type : ValueType} {number : Int}
    (hx : l.vocabulary.system.lookup x = some (type, number)) : l.numberOf x = number := by
  have hnone : l.symbols.findIdx? (fun a => Names.nameOf? a == some x) = none := by
    rw [findIdx?_eq_none_iff]
    intro a ha
    rw [beq_eq_false_iff_ne]
    intro hname
    have hnot := hl.notSystem x (mem_filterMap.mpr ⟨a, ha, hname⟩)
    rw [hx] at hnot
    cases hnot
  rw [numberOf, hnone, hx]
  rfl

/-- **Every name that is known is shown under its new name.** -/
theorem Follows.shownBy (hl : l.Sound) (h : l.Follows n ρ locals) (version : Int) :
    n.ShownBy l.vocabulary l.numbers ρ.name ⟨version, l.names, locals⟩ := by
  intro x type k hfind
  have houter : ∀ {number : Int} {isText : Bool}, n.temporaries.lookup x = none →
      l.numberOf x = number → l.Knows number isText → ∃ type',
        variableAt l.names locals number = .ok (ρ.name x, type') ∧
          (type' == .text) = isText := by
    intro number isText hnone hnumber hknows
    obtain ⟨type', hvariable, htext⟩ := variableAt_of_knows hknows locals
    refine ⟨type', ?_, htext⟩
    rw [hvariable, Renaming.name, h.others x hnone, h.outer, outerName, hnumber]
    rfl
  -- A temporary variable hides any other of its name.
  cases htemporary : n.temporaries.lookup x with
  | some found =>
    have hfound : found = (type, k) := by
      simpa [Names.find?, htemporary] using hfind
    subst hfound
    obtain ⟨y, hy, hlocal⟩ := h.temporaries x type k htemporary
    obtain ⟨s, hs, hnumber⟩ := h.getElem? (h.numbered.temporaries htemporary)
    refine ⟨type, ?_, rfl⟩
    rw [Renaming.name, hy]
    rw [hnumber] at hlocal ⊢
    rw [variableAt, hl.temporary s hs, ok_bind, hlocal]
    rfl
  | none =>
    rcases Names.find?_eq_some hfind with ht | hs | hr | hsystem
    · rw [htemporary] at ht
      cases ht
    · obtain ⟨declared, hdeclared, hname, htype⟩ := h.numbered.statics hs
      obtain ⟨s, hsymbol, hnumber⟩ := h.getElem? hdeclared
      obtain ⟨found, init, hfound, hinit, hentry⟩ := hl.definition s declared hsymbol
      have hknows : l.Knows (l.numbers s) (type == .text) := by
        refine ⟨found, hfound, ?_⟩
        rw [Variable.type, hentry, ← htype, ← type_of_initialOf hinit]
        rfl
      rw [hnumber]
      exact houter htemporary (hl.numberOf_eq hsymbol (by rw [Names.nameOf?, hname])) hknows
    · obtain ⟨hholds, htype⟩ := h.numbered.references hr
      obtain ⟨s, hsymbol, hnumber⟩ := h.getElem? hholds
      rw [hnumber]
      exact houter htemporary (hl.numberOf_eq hsymbol rfl) (hl.reference s x type hsymbol htype)
    · have hlt := hl.systemFirst x type k hsystem
      rw [linkedNumber, if_pos hlt]
      exact houter htemporary (hl.numberOf_system hsystem) (hl.system x type k hsystem)

/-! ## More names -/

variable {n n' : Names} {ρ : Renaming} {locals : Temporaries}

theorem follows_start (hl : l.Sound) : l.Follows {} l.startNames [] where
  numbered := Names.numbered_empty _
  symbols := nil_prefix
  outer := rfl
  temporaries _ _ _ h := by simp at h
  others _ _ := rfl
  upcoming := rfl
  distinct := List.Pairwise.map Int.ofNat (fun _ _ hne h => hne (Int.ofNat.inj h)) hl.temporaries

theorem drop_of_prefix {α : Type} {first added whole : List α} (h : first ++ added <+: whole) :
    whole.drop first.length = added ++ whole.drop (first ++ added).length := by
  obtain ⟨rest, rfl⟩ := h
  rw [drop_left, append_assoc, drop_left]

/-- New references change no name that is shown. -/
theorem Follows.extends (h : l.Follows n ρ locals) (hn : n.Extends l.vocabulary n')
    (hsymbols : n'.symbols.reverse <+: l.symbols) : l.Follows n' ρ locals where
  numbered := hn.numbered h.numbered
  symbols := hsymbols
  outer := h.outer
  temporaries x t k hx := h.temporaries x t k (by rwa [← hn.temporaries])
  others x hx := h.others x (by rwa [← hn.temporaries])
  upcoming := by
    obtain ⟨added, hadded⟩ := hn.symbols
    rw [hadded, reverse_append, ← map_reverse] at hsymbols
    have hdrop := drop_of_prefix hsymbols
    rw [h.upcoming, hadded]
    simp only [length_reverse, length_append, length_map] at hdrop ⊢
    rw [hdrop, temporaryNumbers_references, length_reverse, Nat.add_comm added.length]
  distinct := h.distinct

theorem drop_of_cons_prefix {earlier : List Symbol}
    (h : (symbol :: earlier).reverse <+: l.symbols) :
    l.symbols.drop earlier.length = symbol :: l.symbols.drop (earlier.length + 1) := by
  rw [reverse_cons] at h
  simpa using drop_of_prefix h

/-- Nor does a static variable. -/
theorem Follows.addStatic {declared : Declared} (h : l.Follows n ρ locals)
    (hnumbered : (n.addStatic declared).Numbered l.vocabulary)
    (hsymbols : (n.addStatic declared).symbols.reverse <+: l.symbols) :
    l.Follows (n.addStatic declared) ρ locals where
  numbered := hnumbered
  symbols := hsymbols
  outer := h.outer
  temporaries := h.temporaries
  others := h.others
  upcoming := by
    rw [h.upcoming, drop_of_cons_prefix hsymbols]
    rfl
  distinct := h.distinct

theorem upcoming_addTemporary (h : l.Follows n ρ locals)
    (hsymbols : (n.addTemporary x t).symbols.reverse <+: l.symbols) :
    ρ.upcoming = l.numbers n.symbols.length ::
      temporaryNumbers l.numbers (n.symbols.length + 1)
        (l.symbols.drop (n.symbols.length + 1)) := by
  rw [h.upcoming, drop_of_cons_prefix hsymbols]
  rfl

theorem Follows.define_eq (h : l.Follows n ρ locals)
    (hsymbols : (n.addTemporary x t).symbols.reverse <+: l.symbols) : ρ.define x t =
      { ρ with
        temporaries := (x, temporaryName t (l.numbers n.symbols.length)) :: ρ.temporaries
        upcoming := temporaryNumbers l.numbers (n.symbols.length + 1)
          (l.symbols.drop (n.symbols.length + 1)) } := by
  rw [Renaming.define, upcoming_addTemporary h hsymbols]

theorem linkedNumber_nextNumber (numbers : Nat → Nat) (n : Names) :
    linkedNumber numbers n.nextNumber = numbers n.symbols.length :=
  linkedNumber_symbol numbers _

/-- A temporary variable may be added: the decompiler meets it by the next of their numbers. -/
theorem Follows.addTemporary (h : l.Follows n ρ locals)
    (hsymbols : (n.addTemporary x t).symbols.reverse <+: l.symbols) :
    l.Follows (n.addTemporary x t) (ρ.define x t)
      (((l.numbers n.symbols.length : Int), temporaryName t (l.numbers n.symbols.length), t) ::
        locals) := by
  have hupcoming := upcoming_addTemporary h hsymbols
  have hdistinct := h.distinct
  rw [hupcoming, map_cons] at hdistinct
  rw [h.define_eq hsymbols]
  refine ⟨h.numbered.addTemporary x t, hsymbols, h.outer, ?_, ?_, rfl, ?_⟩
  · intro y t' k hy
    change ((x, t, n.nextNumber) :: n.temporaries).lookup y = some (t', k) at hy
    by_cases hxy : y = x
    · subst hxy
      simp only [lookup_cons_self, Option.some.injEq, Prod.mk.injEq] at hy
      obtain ⟨rfl, rfl⟩ := hy
      exact ⟨_, lookup_cons_self, by rw [linkedNumber_nextNumber]; exact lookup_cons_self⟩
    · rw [lookup_cons, beq_eq_false_iff_ne.mpr hxy] at hy
      obtain ⟨shown, hshown, hlocal⟩ := h.temporaries y t' k hy
      refine ⟨shown, by rw [lookup_cons, beq_eq_false_iff_ne.mpr hxy]; exact hshown, ?_⟩
      -- the number of the new variable is not one that the decompiler has met
      have hne : linkedNumber l.numbers k ≠ (l.numbers n.symbols.length : Int) := by
        intro heq
        have hmem : linkedNumber l.numbers k ∈ locals.map Prod.fst := by
          obtain ⟨_, _, hsplit, _⟩ := lookup_eq_some_iff.mp hlocal
          simp [hsplit]
        exact (nodup_append.mp hdistinct).2.2 _ hmem _ (by simp) heq
      rw [lookup_cons, beq_eq_false_iff_ne.mpr hne]
      exact hlocal
  · intro y hy
    change ((x, t, n.nextNumber) :: n.temporaries).lookup y = none at hy
    rw [lookup_cons] at hy ⊢
    split at hy
    · cases hy
    · exact h.others y hy
  · rw [map_cons, cons_append]
    exact (perm_middle.nodup_iff).mp hdistinct

/-- A temporary variable is shown by a name of its own. -/
theorem Follows.define_eq_ok (hl : l.Sound) (h : l.Follows n ρ locals)
    (hsymbols : (n.addTemporary x t).symbols.reverse <+: l.symbols) :
    locals.define l.names (l.numbers n.symbols.length)
        (nameOf .temporary .declared (l.numbers n.symbols.length) t) t =
      .ok (((l.numbers n.symbols.length : Int), temporaryName t (l.numbers n.symbols.length), t) ::
        locals) := by
  have hsymbol : l.symbols[n.symbols.length]? = some .temporary := by
    have hdrop := drop_of_cons_prefix hsymbols
    have hget : (l.symbols.drop n.symbols.length)[0]? = some .temporary := by rw [hdrop]; rfl
    simpa using hget
  have hdistinct := h.distinct
  rw [upcoming_addTemporary h hsymbols, map_cons] at hdistinct
  have hnew : locals.lookup (l.numbers n.symbols.length : Int) = none := by
    rw [lookup_eq_none_iff]
    intro entry hentry
    rw [bne_iff_ne]
    intro heq
    exact (nodup_append.mp hdistinct).2.2 _ (mem_map_of_mem hentry) _ (by simp) heq.symm
  rw [Temporaries.define, hl.temporary _ hsymbol, ok_bind]
  simp only [hnew, Option.isNone_none, require, if_true]
  rfl

end Linkage

end NovelScript
