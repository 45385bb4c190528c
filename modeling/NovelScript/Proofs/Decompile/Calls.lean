import NovelScript.Proofs.Compile.Symbols
import NovelScript.Proofs.Decompile.Commands
import NovelScript.Proofs.Decompile.Restored

/-!
# Decompiled calls

The arguments of a call come back in the order of its keywords, each with what the call gives for it
or, where that is an underscore, what the body gives (`argumentOf`). A body that fills the places of
a call fills each of them once, so it does not matter in which order (`CompiledFills.forall₂`).
-/

namespace NovelScript

open List

variable {v : Vocabulary} {n n' : Names} {numbers : Nat → Nat} {ρ : String → String}
  {d : Decompiler} {locals : Temporaries}
variable {e : Expr} {body : List Stmt} {given : List (Option String × Draft.Argument)} {x : String}
  {op : BinaryOp} {assignment : Assignment} {k : Option String}
  {keywords : List (Option String × Expr)} {places : List (Option String × Option Draft.Argument)}

/-! ## Arguments -/

/-- An argument of a draft is shown as an expression, stored in a way. -/
def Draft.Argument.Shows (d : Decompiler) (locals : Temporaries) (numbers : Nat → Nat)
    (a : Draft.Argument) (e : Expr) (op : Assignment) : Prop :=
  ∃ code, a.data = .code code ∧ a.assignment = op.code ∧
    d.expr locals (code.map (Instr.relocate numbers)) = .ok e

/-- A compiled argument is shown as its expression. -/
theorem Compiled.shows {coded : Coded} (h : Compiled v n e coded n')
    (hplain : e.isPlain d.version = true) (hshown : n'.ShownBy v numbers ρ (d.context locals))
    (op : Assignment) : (coded.argument op).Shows d locals numbers (e.restored ρ) op :=
  ⟨coded.code, rfl, rfl, h.decompileExpr_eq hplain hshown⟩

/-- An argument as the decompiler gives it: its keyword, its expression, and how it is stored. -/
def argumentOf (ρ : String → String) (body : List Stmt) (given : Option String × Expr) :
    String × Expr × Assignment :=
  match fillFor? given.1 body with
  | some (keyword, op, e) => (keyword, e.restored ρ, op.assignment?.getD .set)
  | none => (given.1.getD "", given.2.restored ρ, .set)

theorem argumentOf_of_none {given : Option String × Expr} (h : fillFor? given.1 body = none) :
    argumentOf ρ body given = (given.1.getD "", given.2.restored ρ, .set) := by
  rw [argumentOf, h]

theorem argumentOf_of_some {given : Option String × Expr}
    (h : fillFor? given.1 body = some (x, op, e)) (hop : op.assignment? = some assignment) :
    argumentOf ρ body given = (x, e.restored ρ, assignment) := by
  rw [argumentOf, h]
  dsimp only
  rw [hop, Option.getD_some]

/-- A keyword is written, and if the body fills its place, the call leaves the place open. -/
structure FillsPlace (body : List Stmt) (given : Option String × Expr) : Prop where
  written : given.1.isSome = true
  fills : ∀ x op e, fillFor? given.1 body = some (x, op, e) →
    given.2 = .name "_" ∧ ∃ assignment, op.assignment? = some assignment

theorem fillFor?_eq_some (h : fillFor? k body = some (x, op, e)) : k = some x := by
  fun_induction fillFor? k body with
  | case1 => cases h
  | case2 _ _ _ _ _ hk =>
    cases h
    exact hk
  | case3 _ _ _ _ _ _ ih | case4 _ _ _ ih => exact ih h

theorem argumentOf_fst {given : Option String × Expr} (h : FillsPlace body given) :
    given.1 = some (argumentOf ρ body given).1 := by
  obtain ⟨x, hx⟩ := Option.isSome_iff_exists.mp h.written
  cases hfill : fillFor? given.1 body with
  | none => rw [argumentOf_of_none hfill, hx, Option.getD_some]
  | some filling =>
    obtain ⟨y, op, e⟩ := filling
    obtain ⟨-, assignment, hop⟩ := h.fills y op e hfill
    rw [argumentOf_of_some hfill hop, fillFor?_eq_some hfill]

/-- An argument of a draft with its keyword is shown as an argument of a call. -/
def ShowsGiven (d : Decompiler) (locals : Temporaries) (numbers : Nat → Nat)
    (given : Option String × Draft.Argument) (x : String × Expr × Assignment) : Prop :=
  given.1 = some x.1 ∧ given.2.Shows d locals numbers x.2.1 x.2.2

/-- Arguments of a call are shown as its keywords. -/
theorem CompiledArguments.shows (h : CompiledArguments v n keywords given n')
    (hplain : ∀ k ∈ keywords, k.2.isPlain d.version = true)
    (hshown : n'.ShownBy v numbers ρ (d.context locals)) (hkeys : ∀ g ∈ given, g.1.isSome = true) :
    Forall₂ (ShowsGiven d locals numbers) given (keywords.map (argumentOf ρ [])) ∧
      ∀ k ∈ keywords, FillsPlace [] k := by
  induction h with
  | nil => exact ⟨.nil, by simp⟩
  | @cons _ _ _ k e coded rest given h hrest ih =>
    obtain ⟨keyword, rfl⟩ := Option.isSome_iff_exists.mp (hkeys _ mem_cons_self)
    obtain ⟨ihshows, ihfills⟩ := ih (forall_mem_cons.mp hplain).2 hshown
      (forall_mem_cons.mp hkeys).2
    have hshows := h.shows (hplain (some keyword, e) (by simp)) (hshown.mono hrest.extends) .set
    refine ⟨.cons ⟨rfl, hshows⟩ ihshows, forall_mem_cons.mpr ⟨⟨rfl, ?_⟩, ihfills⟩⟩
    intro x op e' hfill
    cases hfill

/-! ## Bodies -/

/-- The place of a keyword after the body of a call: it is as it was, or the body has filled it. -/
def FilledBy (d : Decompiler) (locals : Temporaries) (numbers : Nat → Nat) (ρ : String → String)
    (body : List Stmt) (place filled : Option String × Option Draft.Argument) : Prop :=
  filled.1 = place.1 ∧
    match fillFor? place.1 body with
    | none => filled.2 = place.2
    | some (_, op, e) => place.2 = none ∧ ∃ a assignment, filled.2 = some a ∧
        op.assignment? = some assignment ∧ a.Shows d locals numbers (e.restored ρ) assignment

theorem eq_of_mem_lookup (hkeys : (places.map Prod.fst).Nodup) {a b : Option Draft.Argument}
    (hlookup : places.lookup k = some a) (hmem : (k, b) ∈ places) : a = b := by
  induction places with
  | nil => cases hmem
  | cons place places ih =>
    obtain ⟨k', b'⟩ := place
    rw [map_cons, nodup_cons] at hkeys
    rw [lookup_cons] at hlookup
    rcases mem_cons.mp hmem with heq | hmem
    · cases heq
      simpa using hlookup.symm
    · have hne : k ≠ k' := fun heq => hkeys.1 (heq ▸ mem_map.mpr ⟨_, hmem, rfl⟩)
      rw [beq_eq_false_iff_ne.mpr hne] at hlookup
      exact ih hkeys.2 hlookup hmem

theorem keys_fill (keyword : String) (a : Draft.Argument)
    (places : List (Option String × Option Draft.Argument)) :
    (Compiling.fill keyword a places).map Prod.fst = places.map Prod.fst := by
  rw [Compiling.fill, map_map]
  refine map_congr_left fun place _ => ?_
  simp only [Function.comp]
  split <;> rfl

/-- The body fills the places that it names. -/
theorem CompiledFills.forall₂ {places' : List (Option String × Option Draft.Argument)}
    (h : CompiledFills v n places body places' n') (hkeys : (places.map Prod.fst).Nodup)
    (hplain : ∀ s ∈ body, s.fillIsPlain d.version = true)
    (hshown : n'.ShownBy v numbers ρ (d.context locals)) :
    Forall₂ (FilledBy d locals numbers ρ body) places places' := by
  induction h with
  | nil => exact forall₂_same.mpr fun _ _ => ⟨rfl, rfl⟩
  | @cons _ _ _ places places' line keyword op assignment e coded rest hplace h hop hrest ih =>
    have hfilled := ih (by rwa [keys_fill]) (forall_mem_cons.mp hplain).2 hshown
    have hshows : (coded.argument assignment).Shows d locals numbers (e.restored ρ) assignment :=
      h.shows (hplain (.augment line (.name keyword) op e) (by simp))
        (hshown.mono hrest.extends) assignment
    rw [Compiling.fill, forall₂_map_left_iff] at hfilled
    refine (forall₂_and_left _ _).mpr ⟨fun place hmem => hmem, hfilled⟩ |>.imp ?_
    rintro ⟨k, b⟩ ⟨k', b'⟩ ⟨hmem, hkey, hrest⟩
    by_cases hk : k = some keyword
    · -- the place of the first assignment: it was empty, and nothing fills it again
      subst hk
      have hnone : b = none := (eq_of_mem_lookup hkeys hplace hmem).symm
      simp only [beq_self_eq_true, if_true] at hkey hrest
      refine ⟨hkey, ?_⟩
      rw [fillFor?, if_pos rfl]
      refine ⟨hnone, coded.argument assignment, assignment, ?_, hop, hshows⟩
      split at hrest
      · exact hrest
      · exact absurd hrest.1 (by simp)
    · have hne : (k == some keyword) = false := beq_eq_false_iff_ne.mpr hk
      simp only [hne, Bool.false_eq_true, if_false] at hkey hrest
      refine ⟨hkey, ?_⟩
      rw [fillFor?, if_neg hk]
      exact hrest

/-- The place of a keyword before the body of a call: an underscore leaves it empty. -/
def PlaceOf (d : Decompiler) (locals : Temporaries) (numbers : Nat → Nat) (ρ : String → String)
    (given : Option String × Expr) (place : Option String × Option Draft.Argument) : Prop :=
  place.1 = given.1 ∧
    match place.2 with
    | none => given.2 = .name "_"
    | some a => a.Shows d locals numbers (given.2.restored ρ) .set

theorem CompiledPlaces.forall₂ (h : CompiledPlaces v n keywords places n')
    (hplain : ∀ k ∈ keywords, k.2.isPlain d.version = true)
    (hshown : n'.ShownBy v numbers ρ (d.context locals)) :
    Forall₂ (PlaceOf d locals numbers ρ) keywords places := by
  induction h with
  | nil => exact .nil
  | left _ ih => exact .cons ⟨rfl, rfl⟩ (ih (forall_mem_cons.mp hplain).2 hshown)
  | @given _ _ _ k e coded rest places _ h hrest ih =>
    refine .cons ⟨rfl, h.shows (hplain (k, e) (by simp)) (hshown.mono hrest.extends) .set⟩ ?_
    exact ih (forall_mem_cons.mp hplain).2 hshown

/-- Places that are filled are shown with what fills them. -/
theorem shows_of_places (hplaces : Forall₂ (PlaceOf d locals numbers ρ) keywords places)
    (hfilled : Forall₂ (FilledBy d locals numbers ρ body) places
      (given.map fun g => (g.1, some g.2))) (hkeys : ∀ g ∈ given, g.1.isSome = true) :
    Forall₂ (ShowsGiven d locals numbers) given (keywords.map (argumentOf ρ body)) ∧
      ∀ k ∈ keywords, FillsPlace body k := by
  rw [forall₂_map_right_iff] at hfilled
  have hboth := forall₂_comp hplaces hfilled
  clear hplaces hfilled
  induction hboth with
  | nil => exact ⟨.nil, by simp⟩
  | @cons keyword g keywords given hhead _ ih =>
    obtain ⟨ihshows, ihfills⟩ := ih (forall_mem_cons.mp hkeys).2
    obtain ⟨⟨k, b⟩, ⟨hk, hplace⟩, hk', hfill⟩ := hhead
    obtain ⟨x, hx⟩ := Option.isSome_iff_exists.mp (hkeys g mem_cons_self)
    have hkeyword : keyword.1 = some x := by rw [← hk, ← hk', hx]
    rw [hk, hkeyword] at hfill
    -- A place is filled by the body exactly if the keyword has no value of its own.
    cases hbody : fillFor? (some x) body with
    | none =>
      rw [hbody] at hfill
      rw [← hfill] at hplace
      have hargument := argumentOf_of_none (ρ := ρ) (hkeyword ▸ hbody)
      refine ⟨.cons ⟨?_, ?_⟩ ihshows, ?_⟩
      · rw [hx, hargument, hkeyword, Option.getD_some]
      · rw [hargument]
        exact hplace
      · refine forall_mem_cons.mpr ⟨⟨by rw [hkeyword]; rfl, ?_⟩, ihfills⟩
        intro y op e hy
        rw [hkeyword, hbody] at hy
        cases hy
    | some filling =>
      obtain ⟨y, op, e⟩ := filling
      rw [hbody] at hfill
      obtain ⟨hnone, a, assignment, ha, hop, hshows⟩ := hfill
      cases ha
      rw [hnone] at hplace
      have hargument := argumentOf_of_some (ρ := ρ) (hkeyword ▸ hbody) hop
      refine ⟨.cons ⟨?_, ?_⟩ ihshows, ?_⟩
      · rw [hx, hargument, fillFor?_eq_some hbody]
      · rw [hargument]
        exact hshows
      · refine forall_mem_cons.mpr ⟨⟨by rw [hkeyword]; rfl, ?_⟩, ihfills⟩
        intro y' op' e' hy'
        rw [hkeyword, hbody] at hy'
        cases hy'
        exact ⟨hplace, assignment, hop⟩

/-! ## Statements -/

theorem binary_of_assignment? (h : op.assignment? = some assignment) :
    (assignment == .set) = false ∧ assignment.binary = op := by
  cases op <;> cases h <;> exact ⟨rfl, rfl⟩

theorem restoredKeywords_eq_map (ρ : String → String) (keywords : List (Option String × Expr)) :
    restoredKeywords ρ keywords = keywords.map fun k => (k.1, k.2.restored ρ) := by
  induction keywords with
  | nil => rfl
  | cons k keywords ih => rw [restoredKeywords, ih, map_cons]

/-- The call that is shown is the restored one. -/
theorem callOf_argumentOf {name : String} (hfills : ∀ k ∈ keywords, FillsPlace body k) :
    Decompiler.callOf name (keywords.map (argumentOf ρ body)) =
      restoredCall ρ (.name name) keywords body := by
  -- In the call a place that the body fills is left open.
  have hcall : ((keywords.map (argumentOf ρ body)).map fun x =>
      (some x.1, if x.2.2 == Assignment.set then x.2.1 else Expr.name "_")) =
      restoredKeywords ρ keywords := by
    rw [map_map, restoredKeywords_eq_map]
    refine map_congr_left fun k hk => ?_
    obtain ⟨x, hx⟩ := Option.isSome_iff_exists.mp (hfills k hk).written
    rw [Function.comp]
    cases hfill : fillFor? k.1 body with
    | none => simp [argumentOf_of_none hfill, hx]
    | some filling =>
      obtain ⟨y, op, e⟩ := filling
      obtain ⟨hplace, assignment, hop⟩ := (hfills k hk).fills y op e hfill
      simp [argumentOf_of_some hfill hop, (binary_of_assignment? hop).1, fillFor?_eq_some hfill,
        hplace, Expr.restored]
  have hbody : ((keywords.map (argumentOf ρ body)).filterMap fun x =>
      if x.2.2 == Assignment.set then none
      else some (Stmt.augment 0 (.name x.1) x.2.2.binary x.2.1)) =
      keywords.filterMap fun k => (fillFor? k.1 body).map fun f =>
        Stmt.augment 0 (.name f.1) f.2.1 (f.2.2.restored ρ) := by
    rw [filterMap_map]
    refine filterMap_congr fun k hk => ?_
    rw [Function.comp]
    cases hfill : fillFor? k.1 body with
    | none => simp [argumentOf_of_none hfill]
    | some filling =>
      obtain ⟨y, op, e⟩ := filling
      obtain ⟨-, assignment, hop⟩ := (hfills k hk).fills y op e hfill
      simp [argumentOf_of_some hfill hop, binary_of_assignment? hop]
  exact congrArg₂ (fun given fills =>
    if fills.isEmpty then Stmt.expression 0 (.call (.name name) [] given)
    else .context 0 [(.call (.name name) [] given, none)] fills) hcall hbody

theorem mapM_callArgument {info : CommandInfo} {arguments : List Draft.Argument}
    {xs : List (String × Expr × Assignment)} {read : List Argument}
    (hids : Forall₂ (IsArgument info) given arguments)
    (hshows : Forall₂ (ShowsGiven d locals numbers) given xs)
    (hwritten : ∀ x ∈ xs, x.1 ≠ "" ∧ x.1 ≠ "#")
    (hseen : Forall₂ (fun (a : Draft.Argument) r => a.Seen d.version .expression r)
      (arguments.map (Draft.Argument.relocate numbers)) read) :
    read.mapM (d.callArgument locals info) = .ok xs := by
  rw [mapM_eq_ok]
  induction hids generalizing xs read with
  | nil =>
    cases hshows
    cases hseen
    exact .nil
  | @cons g a given arguments hid _ ih =>
    obtain ⟨x, xs, ⟨hkey, code, hdata, hop, he⟩, hxs, rfl⟩ := forall₂_cons_left_iff.mp hshows
    obtain ⟨r, read, hr, hread, rfl⟩ := forall₂_cons_left_iff.mp hseen
    obtain ⟨keyword, id, hkeyword, hargument, rfl⟩ := hid
    refine .cons ?_ (ih hxs (forall_mem_cons.mp hwritten).2 hread)
    rw [hkey] at hkeyword
    cases hkeyword
    obtain ⟨hempty, hsign⟩ := hwritten x mem_cons_self
    refine Decompiler.callArgument_eq_ok hr ?_ hop hargument rfl hempty hsign he
    rw [Draft.Argument.relocate, hdata]
    rfl

end NovelScript
