import NovelScript.Proofs.Decompile.Tables

/-!
# Names that tell numbers

The decompiler names a variable by its number, which stands at the end of the name behind a letter.
So two variables of one name have one number (`Linkage.KeepsApart`), and a script that is decompiled
uses different names for what was different.
-/

namespace NovelScript

open List

/-! ## Numbers at the end -/

/-- A text ends in something that is no digit. -/
def EndsInLetter (s : String) : Prop := ∃ start c, s.toList = start ++ [c] ∧ c.isDigit = false

theorem EndsInLetter.append (s : String) {t : String} (h : EndsInLetter t) :
    EndsInLetter (s ++ t) := by
  obtain ⟨start, c, ht, hc⟩ := h
  exact ⟨s.toList ++ start, c, by rw [String.toList_append, ht, append_assoc], hc⟩

theorem endsInLetter_label (type : ValueType) : EndsInLetter type.label := by
  cases type with
  | unknown => exact ⟨['U', 'n'], 'k', by decide, by decide⟩
  | int => exact ⟨['I', 'n'], 't', by decide, by decide⟩
  | float => exact ⟨['F', 'l'], 't', by decide, by decide⟩
  | text => exact ⟨['S', 't'], 'r', by decide, by decide⟩

/-- The digits at the end are those of the number. -/
theorem takeWhile_isDigit_append {stem : String} (h : EndsInLetter stem) (n : Nat) :
    (stem ++ n.repr).toList.reverse.takeWhile Char.isDigit = (Nat.toDigits 10 n).reverse := by
  obtain ⟨start, c, hstem, hc⟩ := h
  have hdigits : ∀ d ∈ (Nat.toDigits 10 n).reverse, d.isDigit = true := fun d hd =>
    Nat.isDigit_of_mem_toDigits (by decide) (by decide) (mem_reverse.mp hd)
  rw [String.toList_append, hstem, Nat.repr_eq_ofList_toDigits, String.toList_ofList,
    reverse_append, reverse_append, takeWhile_append_of_pos hdigits]
  simp [hc]

/-- The number at the end of a name tells it apart. -/
theorem eq_of_append_repr {stem stem' : String} (h : EndsInLetter stem) (h' : EndsInLetter stem')
    {m n : Nat} (heq : stem ++ m.repr = stem' ++ n.repr) : m = n := by
  have hdigits := takeWhile_isDigit_append h m
  rw [heq, takeWhile_isDigit_append h' n, reverse_inj] at hdigits
  calc
    m = Nat.ofDigitChars 10 (Nat.toDigits 10 m) 0 := Nat.ofDigitChars_ten_toDigits.symm
    _ = Nat.ofDigitChars 10 (Nat.toDigits 10 n) 0 := by rw [hdigits]
    _ = n := Nat.ofDigitChars_ten_toDigits

/-! ## Names of variables -/

/-- Every name ends in the number of its variable. -/
theorem exists_stem_of_nameOf {scope : Scope} {extension : Extension} {number : Nat}
    {type : ValueType} {name : String} (h : nameOf scope extension number type = .ok name) :
    ∃ stem, EndsInLetter stem ∧ name = stem ++ number.repr := by
  unfold nameOf at h
  split at h
  · obtain ⟨_, -, h⟩ := of_bind h
    cases h
    exact ⟨systemName, ⟨['_', '_', 'S', 'y'], 's', by decide, by decide⟩, rfl⟩
  · cases h
    exact ⟨_, (endsInLetter_label type).append _, rfl⟩

theorem exists_stem_of_temporaryName (type : ValueType) (number : Nat) :
    ∃ stem, EndsInLetter stem ∧ temporaryName type number = stem ++ number.repr :=
  ⟨_, (endsInLetter_label type).append _, rfl⟩

/-! ## Names of a script -/

namespace Linkage

variable {l : Linkage}

/-- The names of the variables that are not temporary. -/
def outerNames (l : Linkage) : List String :=
  l.vocabulary.system.map Prod.fst ++ l.symbols.filterMap Names.nameOf?

/-- Variables with one new name have one number. -/
structure KeepsApart (l : Linkage) : Prop where
  outer : ∀ x ∈ l.outerNames, ∀ y ∈ l.outerNames,
    l.outerName x = l.outerName y → l.numberOf x = l.numberOf y
  temporary : ∀ x ∈ l.outerNames, ∀ number ∈ temporaryNumbers l.numbers 0 l.symbols, ∀ type,
    l.outerName x ≠ temporaryName type number
  temporaries : ∀ type type' number number',
    temporaryName type number = temporaryName type' number' → number = number'

theorem exists_declaredType {v : Vocabulary} {n : Names} (h : n.Numbered v) {s : Nat} {x : String}
    (hs : n.symbols.reverse[s]? = some (.reference x)) : ∃ type, v.declaredType? x = some type := by
  have hdistinct : (n.symbols.reverse.filterMap Names.nameOf?).Nodup := by
    rw [filterMap_reverse]
    exact nodup_reverse.mpr h.distinct
  have hmem : x ∈ n.symbolNames := mem_filterMap.mpr
    ⟨.reference x, mem_reverse.mp (mem_of_getElem? hs), rfl⟩
  rcases h.listed x hmem with hstatic | hreference
  · -- a definition of the name would be another symbol for it
    obtain ⟨⟨t, k⟩, hk⟩ := Option.isSome_iff_exists.mp hstatic
    obtain ⟨declared, ⟨s', -, hs'⟩, hname, -⟩ := h.statics hk
    have hfirst := findIdx?_nameOf? hdistinct hs rfl
    rw [findIdx?_nameOf? hdistinct hs' (by rw [Names.nameOf?, hname])] at hfirst
    cases hfirst
    rw [hs] at hs'
    cases hs'
  · obtain ⟨⟨t, k⟩, hk⟩ := Option.isSome_iff_exists.mp hreference
    exact ⟨t, (h.references hk).2⟩

variable {n : Names} {known : List Variable}

section

variable (hl : l.Sound) (hn : n.Numbered l.vocabulary) (hsymbols : l.symbols = n.symbols.reverse)
include hl hn hsymbols

theorem exists_entry (h : HoldsVariables known l.vocabulary l.symbols l.numbers) {x : String}
    (hx : x ∈ l.outerNames) : ∃ v ∈ known, v.number = l.numberOf x ∧ v.init.isSome = true := by
  by_cases hsymbol : x ∈ l.symbols.filterMap Names.nameOf?
  · obtain ⟨symbol, hmem, hname⟩ := mem_filterMap.mp hsymbol
    obtain ⟨s, hs⟩ := mem_iff_getElem?.mp hmem
    rw [hl.numberOf_eq hs hname]
    cases symbol with
    | definition declared =>
      obtain ⟨v, hv, init, hnum, hinit, -⟩ := h.definition s declared hs
      exact ⟨v, hv, hnum, by rw [hinit]; rfl⟩
    | reference y =>
      obtain ⟨type, htype⟩ := exists_declaredType hn (hsymbols ▸ hs)
      obtain ⟨v, hv, init, hnum, hinit, -⟩ := h.reference s y type hs htype
      exact ⟨v, hv, hnum, by rw [hinit]; rfl⟩
    | temporary => cases hname
  · have hsystem := (mem_append.mp hx).resolve_right hsymbol
    obtain ⟨⟨type, number⟩, hlookup⟩ :
        ∃ y, l.vocabulary.system.lookup x = some y := by
      obtain ⟨entry, hentry, rfl⟩ := mem_map.mp hsystem
      cases hlookup : l.vocabulary.system.lookup entry.1 with
      | some y => exact ⟨y, rfl⟩
      | none => simpa using lookup_eq_none_iff.mp hlookup entry hentry
    obtain ⟨v, hv, init, hnum, hinit, -⟩ := h.system x type number hlookup
    exact ⟨v, hv, by rw [hnum, hl.numberOf_system hlookup], by rw [hinit]; rfl⟩

/-- A name of the table ends in its number. -/
theorem exists_stem_of_outerName (hnames : VariableNames.ofTable known = .ok l.names)
    (h : HoldsVariables known l.vocabulary l.symbols l.numbers) {x : String}
    (hx : x ∈ l.outerNames) :
    ∃ stem number, EndsInLetter stem ∧ l.numberOf x = (number : Nat) ∧
      l.outerName x = stem ++ number.repr := by
  obtain ⟨v, hv, hnumber, hsome⟩ := exists_entry hl hn hsymbols h hx
  obtain ⟨init, hinit⟩ := Option.isSome_iff_exists.mp hsome
  obtain ⟨found, hfound, -, hname⟩ :=
    VariableNames.exists_named hnames h.nonneg h.distinct hv hinit
  have hnat : v.number = (v.number.toNat : Int) := by
    have := h.nonneg v hv
    omega
  have houter : l.outerName x = found.name := by
    rw [outerName, shownName, ← hnumber, hfound]
  rw [Variable.name, hinit] at hname
  rw [hnat] at hname
  obtain ⟨stem, hstem, heq⟩ := exists_stem_of_nameOf hname
  exact ⟨stem, v.number.toNat, hstem, by rw [← hnumber, ← hnat], houter.trans heq⟩

end

theorem mem_temporaryNumbers {numbers : Nat → Nat} {start number : Nat} {symbols : List Symbol}
    (h : number ∈ temporaryNumbers numbers start symbols) :
    ∃ s : Nat, symbols[s]? = some .temporary ∧ number = numbers (start + s) := by
  induction symbols generalizing start with
  | nil => cases h
  | cons symbol rest ih =>
    have hlater : number ∈ temporaryNumbers numbers (start + 1) rest →
        ∃ s : Nat, (symbol :: rest)[s]? = some .temporary ∧ number = numbers (start + s) := by
      intro hrest
      obtain ⟨s, hs, hnumber⟩ := ih hrest
      refine ⟨s + 1, by rwa [getElem?_cons_succ], ?_⟩
      rw [hnumber, Nat.add_assoc, Nat.add_comm 1]
    cases symbol with
    | temporary =>
      rcases mem_cons.mp h with rfl | h
      · exact ⟨0, rfl, rfl⟩
      · exact hlater h
    | definition | reference => exact hlater h

/-- **The decompiler keeps variables apart.** -/
theorem keepsApart_of_holdsVariables (hl : l.Sound) (hn : n.Numbered l.vocabulary)
    (hsymbols : l.symbols = n.symbols.reverse) (hnames : VariableNames.ofTable known = .ok l.names)
    (h : HoldsVariables known l.vocabulary l.symbols l.numbers) : l.KeepsApart where
  outer x hx y hy heq := by
    obtain ⟨stem, number, hstem, hnumber, hname⟩ :=
      exists_stem_of_outerName hl hn hsymbols hnames h hx
    obtain ⟨stem', number', hstem', hnumber', hname'⟩ :=
      exists_stem_of_outerName hl hn hsymbols hnames h hy
    rw [hname, hname'] at heq
    rw [hnumber, hnumber', eq_of_append_repr hstem hstem' heq]
  temporary x hx number hmem type heq := by
    obtain ⟨stem, m, hstem, hm, hname⟩ := exists_stem_of_outerName hl hn hsymbols hnames h hx
    obtain ⟨stem', hstem', hname'⟩ := exists_stem_of_temporaryName type number
    rw [hname, hname'] at heq
    obtain rfl := eq_of_append_repr hstem hstem' heq
    -- the table has a variable of the number, but none for a temporary one
    obtain ⟨s, hs, rfl⟩ := mem_temporaryNumbers hmem
    rw [Nat.zero_add] at hm
    obtain ⟨v, hv, hnumber, hsome⟩ := exists_entry hl hn hsymbols h hx
    rw [h.temporary s hs v hv (hnumber.trans hm)] at hsome
    cases hsome
  temporaries type type' number number' heq := by
    obtain ⟨stem, hstem, hname⟩ := exists_stem_of_temporaryName type number
    obtain ⟨stem', hstem', hname'⟩ := exists_stem_of_temporaryName type' number'
    rw [hname, hname'] at heq
    exact eq_of_append_repr hstem hstem' heq

end Linkage

end NovelScript
