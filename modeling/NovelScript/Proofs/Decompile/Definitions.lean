import NovelScript.Proofs.Decompile.Commands
import NovelScript.Proofs.Decompile.Variables

/-!
# Decompiled definitions

A definition becomes a command that stores a value in its variable. The decompiler finds the
variable by the first instruction of the target; a temporary one is new to it and gets its name
there. Whether the value is written depends on what the variable table tells of the variable
(`omitsValue_eq_ok`), and that is what the definition itself says (`startsEmpty_eq`).
-/

namespace NovelScript

variable {v : Vocabulary} {n n' : Names} {l : Linkage} {d : Decompiler} {options : CompileOptions}
  {ρ : Renaming} {locals : Temporaries}
variable {name x : String} {kind : Access} {number k : Int} {coded : Coded} {t : ValueType}
  {target value : Expr} {dims : List Dimension} {store : StoreCommand}
  {declares : DeclarationCommand} {p p₁ : Progress}

/-! ## The decompiler of a linked script -/

/-- What a linked script is compiled with. -/
abbrev Linkage.context (l : Linkage) (options : CompileOptions) : CompileContext :=
  options.context l.vocabulary

/-- A decompiler knows the commands and the variables of a script, and its version stores the
numbers that end texts. -/
structure Linkage.KnownTo (l : Linkage) (d : Decompiler) : Prop where
  sound : l.Sound
  roles : d.HasRoles
  commands : d.commands.commands = l.vocabulary.commands
  names : d.names = l.names
  version : Draft.isSplit d.version ∨ d.version = 290

theorem Linkage.KnownTo.code_eq_ok (hk : l.KnownTo d) {code : Nat}
    (h : (l.context options).HasCode name code) : d.commands.code name = .ok code := by
  obtain ⟨info, h⟩ := h
  exact (CommandTable.code_of_command? hk.commands h).1

/-- Names that are followed are shown. -/
theorem Linkage.KnownTo.shownBy (hk : l.KnownTo d) (h : l.Follows n ρ locals) :
    n.ShownBy l.vocabulary l.numbers ρ.name (d.context locals) := by
  have hshown := h.shownBy hk.sound d.version
  rw [← hk.names] at hshown
  exact hshown

/-! ## The variable of a definition -/

theorem Referenced.code_eq {suffix : String}
    (h : Referenced v kind n (.name x) suffix name number coded n')
    (hfind : n.find? v x = some (t, k)) : ∃ mark, coded.code = [.access kind mark k] := by
  obtain ⟨hbase, type, s, hresolve, -, -, rfl⟩ := h
  cases hbase
  rw [Names.resolve, hfind] at hresolve
  cases hresolve
  exact ⟨s.mark, rfl⟩

theorem code_of_declaredTarget {type : ValueType}
    (htarget : declaredTarget type target = .ok (x, dims)) (h : Compiled v n target coded n')
    (hfind : n.find? v x = some (t, k)) :
    ∃ kind mark rest, coded.code = .access kind mark k :: rest := by
  unfold declaredTarget at htarget
  split at htarget
  · obtain ⟨_, -, htarget⟩ := of_bind htarget
    cases htarget
    cases h with
    | value h =>
      obtain ⟨mark, hcode⟩ := h.code_eq hfind
      exact ⟨_, mark, [], hcode⟩
  · obtain ⟨_, -, htarget⟩ := of_bind htarget
    obtain ⟨_, -, htarget⟩ := of_bind htarget
    obtain ⟨_, -, htarget⟩ := of_bind htarget
    cases htarget
    cases h with
    | array h =>
      obtain ⟨mark, hcode⟩ := h.code_eq hfind
      exact ⟨_, mark, [], hcode⟩
    | element h =>
      obtain ⟨mark, hcode⟩ := h.code_eq hfind
      exact ⟨_, mark, _, by rw [hcode]; rfl⟩
  · cases htarget

theorem definedNumber_relocate {numbers : Nat → Nat} {code rest : List Instr} {mark : Mark}
    (h : code = .access kind mark k :: rest) :
    definedNumber (code.map (Instr.relocate numbers)) = .ok (linkedNumber numbers k) := by
  rw [h]
  rfl

/-! ## Values that are not written -/

/-- No expression is compiled to the wide zero of an omitted value. -/
theorem Compiled.code_ne_wideZero {e : Expr} (h : Compiled v n e coded n') (numbers : Nat → Nat) :
    coded.code.map (Instr.relocate numbers) ≠ [.int .w64 0] := by
  intro heq
  obtain ⟨i, hcode, hi⟩ := List.map_eq_singleton_iff.mp heq
  have hknown := h.known i (by rw [hcode]; simp)
  cases i with
  | int width value =>
    cases hi
    have hwidth : IntWidth.w64 = IntWidth.fitting 0 := hknown
    exact absurd hwidth (by decide)
  | _ => cases hi

/-- The value of a definition is left out where it starts empty. -/
theorem omitsValue_eq_ok (hset : store.assignment = .set)
    (hnumber : definedNumber store.target = .ok number) {y : String × ValueType}
    (hvariable : variableAt d.names locals number = .ok y) {found : Option NamedVariable}
    (hfound : d.names.find? number = .ok found) (hvalue : store.value ≠ [.int .w64 0]) :
    d.omitsValue store locals = .ok (found.any fun n => n.entry.init == some (.text [])) := by
  have hwide : (store.value == [.int .w64 0]) = false := beq_eq_false_iff_ne.mpr hvalue
  rw [Decompiler.omitsValue, hset, hnumber]
  simp only [beq_self_eq_true, require, if_true, ok_bind, hvariable, hfound, hwide, Bool.or_false]
  cases found <;> rfl

theorem startsEmpty_eq {declared : DeclaredValue} {init : Initial}
    (hscope : declares.scope = .static)
    (hvalue : declaredValue declares.type (some value) = .ok declared)
    (hinit : Project.initialOf declared = .ok init) :
    (some init == some (.text [])) = startsEmpty declares value := by
  rw [startsEmpty, hscope, hvalue]
  cases declared with
  | int n | float x =>
    cases hinit
    rfl
  | wholeFloat n =>
    obtain ⟨x, -, hinit⟩ := of_bind hinit
    cases hinit
    rfl
  | text w =>
    rw [Project.initialOf] at hinit
    split at hinit
    · next hempty =>
      cases hinit
      simp [hempty]
    · next hempty =>
      obtain ⟨literal, -, hinit⟩ := of_bind hinit
      cases hinit
      simp [hempty]

/-! ## Definitions -/

/-- A definition gives its name the next number. -/
theorem Defined.find?_eq (h : Defined declares x dims value p p₁) (v : Vocabulary) :
    ∃ t, p₁.names.find? v x = some (t, p.names.nextNumber) := by
  cases h with
  | @static declared _ hlocal _ =>
    refine ⟨declared.type, ?_⟩
    simp [Names.find?, Names.addStatic, hlocal]
  | temporary => exact ⟨declares.type, by simp [Names.find?, Names.addTemporary]⟩

theorem extension_of_temporary (h : DeclarationCommand.ofName? name = some declares)
    (hscope : declares.scope = .temporary) : declares.extension = .declared := by
  have hall : ∀ c ∈ DeclarationCommand.all, c.scope = .temporary → c.extension = .declared := by
    decide
  exact hall declares (List.mem_of_find?_eq_some h) hscope

/-- **The decompiler follows a definition**: it knows the same variables afterwards, and omits the
value if the variable starts empty. -/
theorem Defined.followed (hk : l.KnownTo d)
    (hname : DeclarationCommand.ofName? name = some declares)
    (htarget : declaredTarget declares.type target = .ok (x, dims)) (hfree : p.Free l.vocabulary x)
    (h : Defined declares x dims value p p₁) (hfollows : l.Follows p.names ρ locals)
    (hsymbols : p₁.names.symbols.reverse <+: l.symbols) (hset : store.assignment = .set)
    (hnumber : definedNumber store.target = .ok (linkedNumber l.numbers p.names.nextNumber))
    (hvalue : store.value ≠ [.int .w64 0]) :
    ∃ locals', d.defineTemporary name store locals = .ok locals' ∧
      l.Follows p₁.names (ρ.defineAny (temporaryOf? name target)) locals' ∧
      d.omitsValue store locals' = .ok (startsEmpty declares value) := by
  obtain ⟨t, hfind⟩ := h.find?_eq l.vocabulary
  -- Whichever way the variable is defined, its number is the next one.
  have homits : ∀ {ρ' : Renaming} {locals' : Temporaries}, l.Follows p₁.names ρ' locals' →
      ∀ {found : Option NamedVariable},
        l.names.find? (l.numbers p.names.symbols.length) = .ok found →
        d.omitsValue store locals' = .ok (found.any fun n => n.entry.init == some (.text [])) := by
    intro ρ' locals' hfollows' found hfound
    obtain ⟨type, hvariable, -⟩ := hk.shownBy hfollows' x t _ hfind
    refine omitsValue_eq_ok hset hnumber hvariable ?_ hvalue
    rw [hk.names, Linkage.linkedNumber_nextNumber]
    exact hfound
  have hsymbol : ∀ symbol, p₁.names.symbols = symbol :: p.names.symbols →
      l.symbols[p.names.symbols.length]? = some symbol := by
    intro symbol heq
    rw [heq] at hsymbols
    have hget : (l.symbols.drop p.names.symbols.length)[0]? = some symbol := by
      rw [Linkage.drop_of_cons_prefix hsymbols]
      rfl
    simpa using hget
  have hnumbered := (h.leads hname hfree).numbered hfollows.numbered
  cases h with
  | @static declared hscope hlocal hdeclared =>
    have hsame : temporaryOf? name target = none := by
      simp [temporaryOf?, hname, hscope]
    have hfollows' := hfollows.addStatic hnumbered hsymbols
    obtain ⟨found, init, hfound, hinit, hentry⟩ := hk.sound.definition _ _ (hsymbol _ rfl)
    refine ⟨locals, ?_, by rw [hsame]; exact hfollows', ?_⟩
    · obtain ⟨scope, extension, type⟩ := declares
      cases hscope
      rw [Decompiler.defineTemporary, hname]
    · rw [homits hfollows' hfound, Option.any_some, hentry, startsEmpty_eq hscope hdeclared hinit]
  | temporary hscope =>
    have hdefines : temporaryOf? name target = some (x, declares.type) := by
      simp [temporaryOf?, hname, hscope, htarget]
    have hextension := extension_of_temporary hname hscope
    have hfollows' := hfollows.addTemporary hsymbols
    refine ⟨_, ?_, by rw [hdefines]; exact hfollows', ?_⟩
    · obtain ⟨scope, extension, type⟩ := declares
      cases hscope
      cases hextension
      rw [Decompiler.defineTemporary, hname]
      dsimp only
      rw [hnumber, ok_bind, hk.names, Linkage.linkedNumber_nextNumber]
      exact hfollows.define_eq_ok hk.sound hsymbols
    · rw [homits hfollows' (hk.sound.temporary _ (hsymbol _ rfl)), startsEmpty, hscope]
      rfl

end NovelScript
