import NovelScript.Proofs.Decompile.Naming

/-!
# Names identify variables

The names that the decompiler gives to the variables of a table and to the temporary ones of a
script all differ, and the number of a variable can be read off its name (`numberIn`): it stands
behind the last letter, whatever the scope, the extension and the type before it are.
-/

namespace NovelScript

open List

/-! ## Reading numbers -/

/-- The number that a name ends in. -/
def numberIn (name : String) : Int :=
  let size := Nat.ofDigitChars 10 (name.toList.reverse.takeWhile Char.isDigit).reverse 0
  if (name.toList.reverse.dropWhile Char.isDigit).head? = some '-' then -size else size

theorem numberIn_append_repr {stem : String} {start : List Char} {c : Char}
    (hstem : stem.toList = start ++ [c]) (hc : c.isDigit = false) (n : Nat) :
    numberIn (stem ++ n.repr) = if c = '-' then -(n : Int) else n := by
  have hdigits : ∀ d ∈ (Nat.toDigits 10 n).reverse, d.isDigit = true := fun d hd =>
    Nat.isDigit_of_mem_toDigits (by decide) (by decide) (mem_reverse.mp hd)
  have hrest : (stem ++ n.repr).toList.reverse.dropWhile Char.isDigit = c :: start.reverse := by
    rw [String.toList_append, hstem, Nat.repr_eq_ofList_toDigits, String.toList_ofList,
      reverse_append, reverse_append, dropWhile_append_of_pos hdigits]
    simp [hc]
  rw [numberIn, takeWhile_isDigit_append ⟨start, c, hstem, hc⟩, hrest, reverse_reverse,
    Nat.ofDigitChars_ten_toDigits]
  simp

theorem numberIn_append_toString {stem : String} {start : List Char} {c : Char}
    (hstem : stem.toList = start ++ [c]) (hdigit : c.isDigit = false) (hsign : c ≠ '-') (n : Int) :
    numberIn (stem ++ toString n) = n := by
  cases n with
  | ofNat n =>
    refine (numberIn_append_repr hstem hdigit n).trans ?_
    rw [if_neg hsign]
    rfl
  | negSucc n =>
    have hsplit : stem ++ toString (Int.negSucc n) = stem ++ "-" ++ (n + 1).repr := by
      rw [String.append_assoc]
      rfl
    have hminus : (stem ++ "-").toList = stem.toList ++ ['-'] := by
      rw [String.toList_append]
      rfl
    rw [hsplit, numberIn_append_repr hminus (by decide), if_pos rfl]
    rfl

theorem exists_last_label (type : ValueType) :
    ∃ start c, type.label.toList = start ++ [c] ∧ c.isDigit = false ∧ c ≠ '-' := by
  cases type with
  | unknown => exact ⟨['U', 'n'], 'k', by decide, by decide, by decide⟩
  | int => exact ⟨['I', 'n'], 't', by decide, by decide, by decide⟩
  | float => exact ⟨['F', 'l'], 't', by decide, by decide, by decide⟩
  | text => exact ⟨['S', 't'], 'r', by decide, by decide, by decide⟩

/-- **A name tells the number of its variable.** -/
theorem numberIn_of_nameOf {scope : Scope} {extension : Extension} {number : Int}
    {type : ValueType} {name : String} (h : nameOf scope extension number type = .ok name) :
    numberIn name = number := by
  unfold nameOf at h
  split at h
  · obtain ⟨_, -, h⟩ := of_bind h
    cases h
    have hstem : systemName.toList = ['_', '_', 'S', 'y'] ++ ['s'] := by decide
    exact numberIn_append_toString hstem (by decide) (by decide) number
  · cases h
    obtain ⟨start, c, hlabel, hdigit, hsign⟩ := exists_last_label type
    have hstem : (scope.letter ++ extension.digit ++ type.label).toList =
        (scope.letter ++ extension.digit).toList ++ start ++ [c] := by
      rw [String.toList_append, hlabel, append_assoc]
    exact numberIn_append_toString hstem hdigit hsign number

/-! ## Names of a table -/

namespace VariableNames

variable {known : List Variable} {names names' : VariableNames} {n : NamedVariable}

/-- Every variable of a table stands at the place of its number, with the name that it is given. -/
structure Placed (names : VariableNames) (i : Nat) (n : NamedVariable) : Prop where
  name : n.entry.name = .ok n.name
  place : position? names.length n.entry.number = some i

theorem placed_of_put {v : Variable} (h : names.put v = .ok names')
    (hnames : ∀ (i : Nat) n, names[i]? = some (some n) → names.Placed i n) :
    ∀ (i : Nat) n, names'[i]? = some (some n) → names'.Placed i n := by
  obtain ⟨slot, hslot, h⟩ := of_bind h
  obtain ⟨j, hj, h⟩ := of_bind h
  cases h
  replace hj := orFault_eq_ok.mp hj
  intro i n hi
  rw [getElem?_set] at hi
  split at hi
  · next hij =>
    subst hij
    split at hi
    · cases hi
      unfold named? at hslot
      split at hslot
      · cases hslot
      · obtain ⟨name, hname, hslot⟩ := of_bind hslot
        cases hslot
        exact ⟨hname, by rw [length_set]; exact hj⟩
    · cases hi
  · obtain ⟨hname, hplace⟩ := hnames i n hi
    exact ⟨hname, by rwa [length_set]⟩

theorem placed_of_foldlM (h : known.foldlM put names = .ok names')
    (hnames : ∀ (i : Nat) n, names[i]? = some (some n) → names.Placed i n) :
    ∀ (i : Nat) n, names'[i]? = some (some n) → names'.Placed i n := by
  induction known generalizing names with
  | nil =>
    cases h
    exact hnames
  | cons v known ih =>
    obtain ⟨middle, hput, hrest⟩ := of_bind h
    exact ih hrest (placed_of_put hput hnames)

/-- Names stand at the numbers of their variables. -/
theorem placed_of_ofTable (h : ofTable known = .ok names) {i : Nat}
    (hi : names[i]? = some (some n)) : names.Placed i n := by
  obtain ⟨last, -, h⟩ := of_bind h
  refine placed_of_foldlM h (fun j m hj => ?_) i n hi
  rw [getElem?_replicate] at hj
  split at hj <;> cases hj

theorem find?_of_placed {i : Nat} (h : names.Placed i n)
    (hi : names[i]? = some (some n)) : names.find? n.entry.number = .ok (some n) := by
  have hlt : ¬(names.length : Int) ≤ n.entry.number := by
    have hplace := h.place
    unfold position? at hplace
    dsimp only at hplace
    split at hplace <;> split at hplace
    · omega
    · cases hplace
    · omega
    · cases hplace
  rw [find?, if_neg hlt, itemAt?, h.place, Option.bind_eq_bind, Option.bind_some, hi]
  rfl

/-- Variables at the places of their numbers have different numbers. -/
theorem nodup_numbers {place : Int → Option Nat} (start : Nat)
    (h : ∀ (i : Nat) n, names[i]? = some (some n) → place n.entry.number = some (start + i)) :
    ((names.filterMap id).map (·.entry.number)).Nodup := by
  induction names generalizing start with
  | nil => exact nodup_nil
  | cons slot names ih =>
    have hrest := ih (start + 1) fun i n hi => by
      rw [Nat.add_right_comm]
      exact h (i + 1) n hi
    cases slot with
    | none => exact hrest
    | some n =>
      refine nodup_cons.mpr ⟨fun hmem => ?_, hrest⟩
      obtain ⟨m, hm, hnumber⟩ := mem_map.mp hmem
      obtain ⟨_, hslot, rfl⟩ := mem_filterMap.mp hm
      obtain ⟨i, hi⟩ := mem_iff_getElem?.mp hslot
      have hplace := h (i + 1) m hi
      rw [hnumber, h 0 n rfl] at hplace
      simp at hplace

theorem mem_of_find? {number : Int}
    (h : names.find? number = .ok (some n)) : n ∈ names.filterMap id := by
  unfold find? at h
  split at h
  · cases h
  · obtain ⟨i, -, hi⟩ := Option.bind_eq_some_iff.mp (orFault_eq_ok.mp h)
    exact mem_filterMap.mpr ⟨_, mem_of_getElem? hi, rfl⟩

end VariableNames

/-! ## Names of temporary variables -/

/-- Definitions of temporary variables, each by a number, an extension and a type, one after another
from none on. -/
def Temporaries.defineAll (names : VariableNames)
    (definitions : List (Int × Extension × ValueType)) : Except Fault Temporaries :=
  definitions.foldlM (fun locals x =>
    locals.define names x.1 (nameOf .temporary x.2.1 x.1 x.2.2) x.2.2) []

namespace Temporaries

variable {names : VariableNames} {locals locals' : Temporaries}

/-- Temporary variables have numbers of their own, which their names tell. -/
structure Apart (names : VariableNames) (locals : Temporaries) : Prop where
  outer : ∀ x ∈ locals, names.find? x.1 = .ok none
  tells : ∀ x ∈ locals, numberIn x.2.1 = x.1
  distinct : (locals.map Prod.fst).Nodup

theorem apart_of_define {number : Int} {extension : Extension} {type : ValueType}
    (hlocals : Apart names locals)
    (h : locals.define names number (nameOf .temporary extension number type) type = .ok locals') :
    Apart names locals' ∧ ∃ name, nameOf .temporary extension number type = .ok name ∧
      locals' = (number, name, type) :: locals := by
  obtain ⟨found, hfound, h⟩ := of_bind h
  obtain ⟨_, hnone, h⟩ := of_bind h
  obtain ⟨_, hnew, h⟩ := of_bind h
  obtain ⟨name, hname, h⟩ := of_bind h
  cases h
  obtain rfl := Option.isNone_iff_eq_none.mp (require_eq_ok.mp hnone)
  have hlookup := Option.isNone_iff_eq_none.mp (require_eq_ok.mp hnew)
  refine ⟨⟨forall_mem_cons.mpr ⟨hfound, hlocals.outer⟩,
    forall_mem_cons.mpr ⟨numberIn_of_nameOf hname, hlocals.tells⟩, ?_⟩, name, hname, rfl⟩
  refine nodup_cons.mpr ⟨fun hmem => ?_, hlocals.distinct⟩
  obtain ⟨x, hx, rfl⟩ := mem_map.mp hmem
  simpa using lookup_eq_none_iff.mp hlookup x hx

/-- Temporary variables keep apart from those of the table. -/
theorem apart_of_defineAll {definitions : List (Int × Extension × ValueType)}
    (h : defineAll names definitions = .ok locals') :
    Apart names locals' ∧ ∀ x ∈ definitions, ∃ name, nameOf .temporary x.2.1 x.1 x.2.2 = .ok name ∧
      (x.1, name, x.2.2) ∈ locals' := by
  suffices hfrom : ∀ locals, Apart names locals → definitions.foldlM (fun locals x =>
      locals.define names x.1 (nameOf .temporary x.2.1 x.1 x.2.2) x.2.2) locals = .ok locals' →
      Apart names locals' ∧ locals ⊆ locals' ∧ ∀ x ∈ definitions,
        ∃ name, nameOf .temporary x.2.1 x.1 x.2.2 = .ok name ∧ (x.1, name, x.2.2) ∈ locals' by
    have hfirst := hfrom [] ⟨by simp, by simp, nodup_nil⟩ h
    exact ⟨hfirst.1, hfirst.2.2⟩
  clear h
  induction definitions with
  | nil =>
    intro locals hlocals h
    cases h
    exact ⟨hlocals, Subset.refl _, by simp⟩
  | cons x definitions ih =>
    intro locals hlocals h
    obtain ⟨middle, hdefine, hrest⟩ := of_bind h
    obtain ⟨hmiddle, name, hname, rfl⟩ := apart_of_define hlocals hdefine
    obtain ⟨hlast, hsubset, hall⟩ := ih _ hmiddle hrest
    refine ⟨hlast, fun y hy => hsubset (mem_cons_of_mem _ hy), ?_⟩
    exact forall_mem_cons.mpr ⟨⟨name, hname, hsubset mem_cons_self⟩, hall⟩

end Temporaries

/-! ## All names -/

/-- The numbers and names of the variables of a table and of the temporary ones. -/
def givenNames (names : VariableNames) (locals : Temporaries) : List (Int × String) :=
  (names.filterMap id).map (fun n => (n.entry.number, n.name)) ++
    locals.map fun x => (x.1, x.2.1)

/-- **Names identify variables.** For a table whose variables have different numbers, and for all
temporary variables that are accepted beside it, every variable is given a name, no two have the
same, and the number of each can be read off its name. -/
theorem names_identify {known : List Variable} (hdistinct : (known.map Variable.number).Nodup)
    {names : VariableNames} (hnames : VariableNames.ofTable known = .ok names)
    {definitions : List (Int × Extension × ValueType)} {locals : Temporaries}
    (hlocals : Temporaries.defineAll names definitions = .ok locals) :
    ((givenNames names locals).map Prod.snd).Nodup ∧
      (∀ x ∈ givenNames names locals, numberIn x.2 = x.1) ∧
      ((∀ v ∈ known, 0 ≤ v.number) → ∀ v ∈ known, v.init ≠ none →
        ∃ name, v.name = .ok name ∧ (v.number, name) ∈ givenNames names locals) ∧
      ∀ x ∈ definitions, ∃ name, nameOf .temporary x.2.1 x.1 x.2.2 = .ok name ∧
        (x.1, name) ∈ givenNames names locals := by
  obtain ⟨hapart, hdefined⟩ := Temporaries.apart_of_defineAll hlocals
  have hplaced : ∀ n ∈ names.filterMap id, ∃ i, names[i]? = some (some n) ∧ names.Placed i n := by
    intro n hn
    obtain ⟨_, hslot, rfl⟩ := List.mem_filterMap.mp hn
    obtain ⟨i, hi⟩ := List.mem_iff_getElem?.mp hslot
    exact ⟨i, hi, VariableNames.placed_of_ofTable hnames hi⟩
  have htells : ∀ x ∈ givenNames names locals, numberIn x.2 = x.1 := by
    simp only [givenNames, List.forall_mem_append, List.forall_mem_map]
    refine ⟨fun n hn => ?_, hapart.tells⟩
    obtain ⟨i, -, hplace⟩ := hplaced n hn
    have hname := hplace.name
    unfold Variable.name at hname
    split at hname
    · cases hname
    · exact numberIn_of_nameOf hname
  -- Numbers differ; a name tells its number, so names differ as well.
  have hnumbers : ((givenNames names locals).map Prod.fst).Nodup := by
    rw [givenNames, List.map_append, List.map_map, List.map_map]
    refine List.nodup_append.mpr ⟨?_, hapart.distinct, ?_⟩
    · exact VariableNames.nodup_numbers 0 fun i n hi => by
        rw [Nat.zero_add]
        exact (VariableNames.placed_of_ofTable hnames hi).place
    · intro number hnumber _ hlocal heq
      obtain ⟨n, hn, rfl⟩ := List.mem_map.mp hnumber
      obtain ⟨x, hx, rfl⟩ := List.mem_map.mp hlocal
      obtain ⟨i, hi, hplace⟩ := hplaced n hn
      have hfound := VariableNames.find?_of_placed hplace hi
      rw [show n.entry.number = x.1 from heq, hapart.outer x hx] at hfound
      cases hfound
  refine ⟨?_, htells, fun hnonneg v hv hinit => ?_, fun x hx => ?_⟩
  · have hread : (givenNames names locals).map Prod.fst =
        ((givenNames names locals).map Prod.snd).map numberIn := by
      rw [List.map_map]
      exact List.map_congr_left fun x hx => (htells x hx).symm
    rw [hread] at hnumbers
    exact hnumbers.of_map _
  · obtain ⟨init, hinit⟩ := Option.ne_none_iff_exists'.mp hinit
    obtain ⟨n, hfind, rfl, hname⟩ := VariableNames.exists_named hnames hnonneg hdistinct hv hinit
    exact ⟨n.name, hname, List.mem_append_left _ (List.mem_map.mpr
      ⟨n, VariableNames.mem_of_find? hfind, rfl⟩)⟩
  · obtain ⟨name, hname, hmem⟩ := hdefined x hx
    exact ⟨name, hname, List.mem_append_right _ (List.mem_map.mpr ⟨_, hmem, rfl⟩)⟩

/-- A variable of the system, two global ones with digits in different places, and one whose type is
not known. -/
def mixedVariables : List Variable :=
  [⟨.global, .system, 0, 1, [], some (.int 0)⟩, ⟨.global, .second, 0, 3, [], some (.int 0)⟩,
   ⟨.global, .declared, 0, 23, [4], some (.text [])⟩, ⟨.static, .declared, 0, 2, [], none⟩]

theorem names_identify_mixedVariables :
    ∃ names locals, VariableNames.ofTable mixedVariables = .ok names ∧
      Temporaries.defineAll names [(2, .declared, .int), (30, .third, .int)] = .ok locals ∧
      (givenNames names locals).map Prod.snd =
        ["__Sys1", "g2Int3", "gStr23", "l3Int30", "lInt2"] ∧
      ((givenNames names locals).map Prod.snd).Nodup ∧
      ∀ x ∈ givenNames names locals, numberIn x.2 = x.1 := by
  obtain ⟨names, hnames, locals, hlocals, hgiven⟩ : ∃ names,
      VariableNames.ofTable mixedVariables = .ok names ∧ ∃ locals,
        Temporaries.defineAll names [(2, .declared, .int), (30, .third, .int)] = .ok locals ∧
        (givenNames names locals).map Prod.snd =
          ["__Sys1", "g2Int3", "gStr23", "l3Int30", "lInt2"] := by
    refine ⟨_, rfl, _, rfl, ?_⟩
    decide +kernel
  obtain ⟨hapart, htells, -⟩ := names_identify (by decide) hnames hlocals
  exact ⟨names, locals, hnames, hlocals, hgiven, hapart, htells⟩

end NovelScript
