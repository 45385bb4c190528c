import NovelScript.Decompile.Blocks
import NovelScript.Proofs.Outcome

/-!
# Rebuilding blocks

Blocks are rebuilt from the commands that open, divide and close them. The states in between are
`inCondition` and `inOtherwise`: around them is what was open before the chain, and some conditions
of the chain are done. Each command leads from one of these to the next, and the last one leaves
what was there before with the whole chain added (`closeChain_inCondition`,
`closeChain_inOtherwise`). All that can be open is a `Nest` of such states and of loops.
-/

namespace NovelScript

open List

variable {line : Nat} {test : Expr} {body elseBody : List Stmt}

/-- The body of a block, which has at least one statement. -/
def orPass (body : List Stmt) : List Stmt := if body.isEmpty then [.pass 0] else body

theorem bodyOf_reverse (body : List Stmt) : bodyOf body.reverse = orPass body := by
  simp [bodyOf, orPass]

/-! ## Bodies -/

mutual

/-- The bodies of the blocks of a statement. Another branch without statements is no block. -/
def Stmt.bodies : Stmt → List (List Stmt)
  | .branch _ _ body elseBody | .loop _ _ body elseBody | .iterate _ _ _ body elseBody =>
    body :: (bodiesIn body ++ bodiesIn elseBody)
  | .context _ _ body => body :: bodiesIn body
  | _ => []

/-- The bodies of all blocks in statements. -/
def bodiesIn : List Stmt → List (List Stmt)
  | [] => []
  | s :: rest => s.bodies ++ bodiesIn rest

end

/-- No block has an empty body. -/
def Filled (statements : List Stmt) : Prop := ∀ body ∈ bodiesIn statements, body ≠ []

@[simp] theorem filled_nil : Filled [] := by simp [Filled, bodiesIn]

theorem filled_cons {s : Stmt} {rest : List Stmt} :
    Filled (s :: rest) ↔ (∀ body ∈ s.bodies, body ≠ []) ∧ Filled rest := by
  simp [Filled, bodiesIn, or_imp, forall_and]

/-- A condition is filled if its body has statements and its branches are filled. -/
@[simp] theorem filled_branch :
    Filled [.branch line test body elseBody] ↔ body ≠ [] ∧ Filled body ∧ Filled elseBody := by
  simp [Filled, bodiesIn, Stmt.bodies, or_imp, forall_and]

@[simp] theorem filled_loop :
    Filled [.loop line test body elseBody] ↔ body ≠ [] ∧ Filled body ∧ Filled elseBody := by
  simp [Filled, bodiesIn, Stmt.bodies, or_imp, forall_and]

@[simp] theorem filled_append {xs ys : List Stmt} : Filled (xs ++ ys) ↔ Filled xs ∧ Filled ys := by
  induction xs with
  | nil => simp
  | cons x xs ih => rw [cons_append, filled_cons, filled_cons, ih, and_assoc]

theorem filled_of_simple {statements : List Stmt} (h : ∀ s ∈ statements, s.bodies = []) :
    Filled statements := by
  induction statements with
  | nil => exact filled_nil
  | cons s rest ih =>
    obtain ⟨hs, hrest⟩ := forall_mem_cons.mp h
    exact filled_cons.mpr ⟨by simp [hs], ih hrest⟩

/-- An empty body gets a statement that does nothing, which fills it. -/
@[simp] theorem filled_orPass : Filled (orPass body) ↔ Filled body := by
  cases body <;> simp [orPass, Filled, bodiesIn, Stmt.bodies]

theorem orPass_ne_nil (body : List Stmt) : orPass body ≠ [] := by
  cases body <;> simp [orPass]

/-! ## Chains -/

/-- The statement of conditions with their bodies, each in the other branch of the one before it. -/
def chainOf : List (Expr × List Stmt) → List Stmt → List Stmt
  | [], elseBody => elseBody
  | (test, body) :: rest, elseBody => [.branch 0 test body (chainOf rest elseBody)]

/-- A chain of conditions goes on in the last branch. -/
theorem chainOf_append (conditions more : List (Expr × List Stmt)) (elseBody : List Stmt) :
    chainOf (conditions ++ more) elseBody = chainOf conditions (chainOf more elseBody) := by
  induction conditions with
  | nil => rfl
  | cons c conditions ih => rw [cons_append, chainOf, chainOf, ih]

/-- A chain is filled if each of its conditions and its last branch are. -/
theorem filled_chainOf {done : List (Expr × List Stmt)} :
    Filled (chainOf done elseBody) ↔ (∀ c ∈ done, c.2 ≠ [] ∧ Filled c.2) ∧ Filled elseBody := by
  induction done with
  | nil => simp [chainOf]
  | cons c done ih => simp [chainOf, ih, and_assoc]

/-- What is left for the failure of all conditions goes to the end of the chain. -/
theorem withElse_chainOf (elseBody : List Stmt) :
    ∀ (conditions : List (Expr × List Stmt)) (test : Expr) (body : List Stmt),
      (Stmt.branch 0 test body (chainOf conditions [])).withElse elseBody =
        some (.branch 0 test body (chainOf conditions elseBody))
  | [], _, _ => rfl
  | (test', body') :: rest, test, body => by
    have ih := withElse_chainOf elseBody rest test' body'
    rw [chainOf, chainOf, Stmt.withElse, lastWithElse, ih]
    rfl

namespace OpenBlocks

variable {b : OpenBlocks} {innermost : List Stmt} {rest : List (List Stmt)}
  {done : List (Expr × List Stmt)}

/-! ## Adding statements -/

@[simp] theorem add_add (b : OpenBlocks) (xs ys : List Stmt) :
    (b.add xs).add ys = b.add (xs ++ ys) := by
  obtain ⟨lists, controls⟩ := b
  cases lists <;> simp [add]

@[simp] theorem controls_add (b : OpenBlocks) (xs : List Stmt) :
    (b.add xs).controls = b.controls := by
  obtain ⟨lists, controls⟩ := b
  cases lists <;> rfl

@[simp] theorem add_empty (lists : List (List Stmt)) (controls : List Control) (xs : List Stmt) :
    (⟨[] :: lists, controls⟩ : OpenBlocks).add xs = ⟨xs.reverse :: lists, controls⟩ := by
  simp [add]

/-- Statements are added to the innermost open body only. -/
theorem exists_lists_add (b : OpenBlocks) :
    ∃ innermost rest, ∀ xs, (b.add xs).lists = (xs.reverse ++ innermost) :: rest := by
  obtain ⟨lists, controls⟩ := b
  cases lists with
  | nil => exact ⟨[], [], by simp [add]⟩
  | cons innermost rest => exact ⟨innermost, rest, fun _ => rfl⟩

theorem mk_eq_add (h : ∀ xs, (b.add xs).lists = (xs.reverse ++ innermost) :: rest) (s : Stmt) :
    (⟨(s :: innermost) :: rest, b.controls⟩ : OpenBlocks) = b.add [s] := by
  rw [← controls_add b [s]]
  have hlists := h [s]
  generalize b.add [s] = b' at hlists ⊢
  obtain ⟨lists, controls⟩ := b'
  simpa using hlists.symm

/-! ## Chains that are open -/

/-- In a condition of a chain, after other conditions. -/
def inCondition (around : OpenBlocks) (done : List (Expr × List Stmt)) (test : Expr) : OpenBlocks :=
  match done with
  | [] => around.openChain test
  | _ :: _ => ⟨[] :: [.branch 0 test [] []] :: (around.add (chainOf done [])).lists,
      .elseIf :: .opening :: around.controls⟩

/-- In the branch of a chain that has no condition. -/
def inOtherwise (around : OpenBlocks) (done : List (Expr × List Stmt)) : OpenBlocks :=
  ⟨[] :: (around.add (chainOf done [])).lists, .otherwise :: .opening :: around.controls⟩

section

variable {around : OpenBlocks} {innermost : List Stmt} {rest : List (List Stmt)}
  (hlists : ∀ xs, (around.add xs).lists = (xs.reverse ++ innermost) :: rest)

include hlists

theorem inCondition_nil_add (test : Expr) (body : List Stmt) :
    (inCondition around [] test).add body =
      ⟨body.reverse :: (.branch 0 test [] [] :: innermost) :: rest,
        .opening :: around.controls⟩ := by
  simp [inCondition, openChain, openWith, hlists]

/-- The lists that stand open in a further condition of a chain. -/
theorem inCondition_cons_add (first test : Expr) (firstBody body : List Stmt)
    (others : List (Expr × List Stmt)) :
    (inCondition around ((first, firstBody) :: others) test).add body =
      ⟨body.reverse :: [.branch 0 test [] []] ::
          (.branch 0 first firstBody (chainOf others []) :: innermost) :: rest,
        .elseIf :: .opening :: around.controls⟩ := by
  simp [inCondition, hlists, chainOf]

theorem inOtherwise_cons_add (first : Expr) (firstBody body : List Stmt)
    (others : List (Expr × List Stmt)) :
    (inOtherwise around ((first, firstBody) :: others)).add body =
      ⟨body.reverse :: (.branch 0 first firstBody (chainOf others []) :: innermost) :: rest,
        .otherwise :: .opening :: around.controls⟩ := by
  simp [inOtherwise, hlists, chainOf]

theorem openLoop_add (test : Expr) (body : List Stmt) :
    (around.openLoop test).add body =
      ⟨body.reverse :: (.loop 0 test [] [] :: innermost) :: rest, .loop :: around.controls⟩ := by
  simp [openLoop, openWith, hlists]

end

section

variable (around : OpenBlocks) (done : List (Expr × List Stmt)) (test : Expr) (body : List Stmt)

theorem inCondition_add_nil :
    (inCondition around done test).add [] = inCondition around done test := by
  cases done <;> rfl

theorem requireCondition_inCondition :
    ((inCondition around done test).add body).requireCondition = .ok () := by
  unfold requireCondition
  rw [controls_add]
  cases done <;> rfl

/-- A closed condition becomes a statement of the block around it. -/
theorem closeCondition_inCondition :
    ((inCondition around done test).add body).closeCondition =
      .ok (around.add (chainOf (done ++ [(test, orPass body)]) [])) := by
  obtain ⟨innermost, rest, hlists⟩ := around.exists_lists_add
  cases done with
  | nil =>
    rw [inCondition_nil_add hlists]
    simp only [closeCondition, closeBranch, bodyOf_reverse, changeLatest, Stmt.withBranchBody,
      Option.map_some, orFault, ok_bind, pure_eq_ok, mk_eq_add hlists]
    rfl
  | cons first others =>
    obtain ⟨test', body'⟩ := first
    rw [inCondition_cons_add hlists, cons_append, chainOf, chainOf_append]
    simp only [closeCondition, closeBranch, bodyOf_reverse, changeLatest, Stmt.withBranchBody,
      Option.map_some, orFault, ok_bind, pure_eq_ok, closeElse, reverse_singleton,
      withElse_chainOf, mk_eq_add hlists]
    rfl

/-- A further condition closes the one before it. -/
theorem elseIf_inCondition (test next : Expr) (body : List Stmt) :
    ((inCondition around done test).add body).elseIf next =
      .ok (inCondition around (done ++ [(test, orPass body)]) next) := by
  rw [elseIf, closeCondition_inCondition]
  cases done <;> simp [inCondition]

/-- The last branch closes the condition before it. -/
theorem otherwise_inCondition :
    ((inCondition around done test).add body).otherwise =
      .ok (inOtherwise around (done ++ [(test, orPass body)])) := by
  rw [otherwise, closeCondition_inCondition]
  simp [inOtherwise]

/-! ## Closing -/

/-- The end of a chain without a last branch closes its condition. -/
theorem closeChain_inCondition :
    ((inCondition around done test).add body).closeChain =
      .ok (around.add (chainOf (done ++ [(test, orPass body)]) [])) := by
  rw [← closeCondition_inCondition]
  cases done <;> rfl

/-- The end of a loop gives the loop to the block around it. -/
theorem closeInnerLoop_openLoop :
    ((around.openLoop test).add body).closeInnerLoop =
      .ok (around.add [.loop 0 test (orPass body) []]) := by
  obtain ⟨innermost, rest, hlists⟩ := around.exists_lists_add
  rw [openLoop_add hlists]
  simp only [closeInnerLoop, closeLoop, bodyOf_reverse, changeLatest, Stmt.withLoopBody,
    Option.map_some, orFault, ok_bind, pure_eq_ok, mk_eq_add hlists]

theorem statements_add : (({} : OpenBlocks).add body).statements = body := by
  simp [statements, add, finish]

/-! ## Blocks that stay open -/

theorem statements_add_singleton (h : ∀ xs, (b.add xs).lists = (xs.reverse ++ innermost) :: rest)
    (s : Stmt) : (b.add [s]).statements = finish b.controls ((s :: innermost) :: rest) := by
  rw [statements, controls_add, h]
  rfl

/-- A condition that is never closed ends with the script. -/
theorem statements_inCondition :
    ((inCondition around done test).add body).statements =
      (around.add (chainOf (done ++ [(test, body)]) [])).statements := by
  obtain ⟨innermost, rest, hlists⟩ := around.exists_lists_add
  cases done with
  | nil =>
    rw [inCondition_nil_add hlists, nil_append, chainOf, statements_add_singleton hlists,
      statements, finish, reverse_reverse]
    rfl
  | cons first others =>
    obtain ⟨test', body'⟩ := first
    rw [inCondition_cons_add hlists, cons_append, chainOf, chainOf_append,
      statements_add_singleton hlists, statements, finish]
    simp only [changeLatest, Stmt.withBranchBody, reverse_reverse, Option.map_some,
      Option.getD_some, reverse_singleton, withElse_chainOf]
    rfl

theorem statements_openLoop :
    ((around.openLoop test).add body).statements =
      (around.add [.loop 0 test body []]).statements := by
  obtain ⟨innermost, rest, hlists⟩ := around.exists_lists_add
  rw [openLoop_add hlists, statements_add_singleton hlists, statements, finish, reverse_reverse]
  rfl

variable {done}

/-- The end of a chain closes its last branch. -/
theorem closeChain_inOtherwise (hdone : done ≠ []) (body : List Stmt) :
    ((inOtherwise around done).add body).closeChain =
      .ok (around.add (chainOf done (orPass body))) := by
  obtain ⟨innermost, rest, hlists⟩ := around.exists_lists_add
  obtain ⟨⟨test, body'⟩, others, rfl⟩ := exists_cons_of_ne_nil hdone
  rw [inOtherwise_cons_add hlists, chainOf]
  simp only [closeChain, closeElse, bodyOf_reverse, changeLatest, withElse_chainOf, Option.map_some,
    orFault, ok_bind, pure_eq_ok, mk_eq_add hlists]

theorem statements_inOtherwise (hdone : done ≠ []) (body : List Stmt) :
    ((inOtherwise around done).add body).statements =
      (around.add (chainOf done body)).statements := by
  obtain ⟨innermost, rest, hlists⟩ := around.exists_lists_add
  obtain ⟨⟨test, body'⟩, others, rfl⟩ := exists_cons_of_ne_nil hdone
  rw [inOtherwise_cons_add hlists, chainOf, statements_add_singleton hlists, statements, finish]
  simp only [changeLatest, reverse_reverse, Option.map_some, Option.getD_some, withElse_chainOf]

end

/-! ## What can be continued and closed -/

variable {b b' : OpenBlocks}

/-- Only a condition on top can be closed as one. -/
theorem head?_of_closeCondition (h : b.closeCondition = .ok b') :
    b.controls.head? = some .opening ∨ b.controls.head? = some .elseIf := by
  unfold closeCondition at h
  split at h
  · next hcontrols _ => exact .inl (by rw [hcontrols]; rfl)
  · next hcontrols _ => exact .inr (by rw [hcontrols]; rfl)
  · cases h
  · cases h

/-- Only a loop on top can be closed as one. -/
theorem head?_of_closeInnerLoop (h : b.closeInnerLoop = .ok b') :
    b.controls.head? = some .loop := by
  unfold closeInnerLoop at h
  split at h
  · next hcontrols _ => rw [hcontrols]; rfl
  · cases h
  · cases h

theorem head?_of_closeChain (h : b.closeChain = .ok b') :
    b.controls.head? ≠ none ∧ b.controls.head? ≠ some .loop := by
  unfold closeChain at h
  split at h
  · next hcontrols _ => exact ⟨by simp [hcontrols], by simp [hcontrols]⟩
  · rcases head?_of_closeCondition h with h | h <;> simp [h]

end OpenBlocks

/-! ## Nested blocks -/

/-- What is open, innermost first, with the statements that stand there so far: a condition or the
last branch of a chain, of which some conditions are done, or a loop, in the script. -/
inductive Nest where
  | script (body : List Stmt)
  | condition (around : Nest) (done : List (Expr × List Stmt)) (test : Expr) (body : List Stmt)
  | otherwise (around : Nest) (done : List (Expr × List Stmt)) (hdone : done ≠ [])
      (body : List Stmt)
  | loop (around : Nest) (test : Expr) (body : List Stmt)

namespace Nest

/-- The open blocks of a nest. -/
def blocks : Nest → OpenBlocks
  | script body => ({} : OpenBlocks).add body
  | condition around done test body => (around.blocks.inCondition done test).add body
  | otherwise around done _ body => (around.blocks.inOtherwise done).add body
  | loop around test body => (around.blocks.openLoop test).add body

/-- Statements are added to what is innermost. -/
def add (n : Nest) (xs : List Stmt) : Nest :=
  match n with
  | script body => script (body ++ xs)
  | condition around done test body => condition around done test (body ++ xs)
  | otherwise around done hdone body => otherwise around done hdone (body ++ xs)
  | loop around test body => loop around test (body ++ xs)

variable {n : Nest} {b : OpenBlocks} {next : Expr}

@[simp] theorem add_nil (n : Nest) : n.add [] = n := by
  cases n <;> simp [add]

@[simp] theorem add_add (n : Nest) (xs ys : List Stmt) : (n.add xs).add ys = n.add (xs ++ ys) := by
  cases n <;> simp [add]

/-- Adding statements to a nest is adding them to its blocks. -/
@[simp] theorem blocks_add (n : Nest) (xs : List Stmt) : (n.add xs).blocks = n.blocks.add xs := by
  cases n <;> rw [add, blocks, blocks, OpenBlocks.add_add]

theorem blocks_condition_nil (n : Nest) (test : Expr) :
    (condition n [] test []).blocks = n.blocks.openChain test :=
  OpenBlocks.inCondition_add_nil _ [] test

theorem exists_condition (h : n.blocks.closeCondition = .ok b) :
    ∃ around done test body, n = condition around done test body := by
  have hhead := OpenBlocks.head?_of_closeCondition h
  cases n with
  | condition around done test body => exact ⟨_, _, _, _, rfl⟩
  | _ => simp [blocks, OpenBlocks.inOtherwise, OpenBlocks.openLoop, OpenBlocks.openWith] at hhead

/-- A further condition comes only after a condition of the same chain. -/
theorem elseIf_eq_ok (h : n.blocks.elseIf next = .ok b) :
    ∃ around done test body, n = condition around done test body ∧
      b = (condition around (done ++ [(test, orPass body)]) next []).blocks := by
  obtain ⟨_, hclose, -⟩ := of_bind h
  obtain ⟨around, done, test, body, rfl⟩ := exists_condition hclose
  rw [blocks, OpenBlocks.elseIf_inCondition] at h
  cases h
  exact ⟨_, _, _, _, rfl, (OpenBlocks.inCondition_add_nil _ _ _).symm⟩

/-- A last branch comes only after a condition. -/
theorem otherwise_eq_ok (h : n.blocks.otherwise = .ok b) :
    ∃ around done test body, n = condition around done test body ∧
      b = (otherwise around (done ++ [(test, orPass body)]) (by simp) []).blocks := by
  obtain ⟨_, hclose, -⟩ := of_bind h
  obtain ⟨around, done, test, body, rfl⟩ := exists_condition hclose
  rw [blocks, OpenBlocks.otherwise_inCondition] at h
  exact ⟨_, _, _, _, rfl, (Except.ok.inj h).symm⟩

/-- A chain is closed from a condition or from a last branch. -/
theorem closeChain_eq_ok (h : n.blocks.closeChain = .ok b) :
    (∃ around done test body, n = condition around done test body ∧
      b = (around.add (chainOf (done ++ [(test, orPass body)]) [])).blocks) ∨
    ∃ around done hdone body, n = otherwise around done hdone body ∧
      b = (around.add (chainOf done (orPass body))).blocks := by
  have hhead := OpenBlocks.head?_of_closeChain h
  simp only [blocks_add]
  cases n with
  | condition around done test body =>
    rw [blocks, OpenBlocks.closeChain_inCondition] at h
    exact .inl ⟨_, _, _, _, rfl, (Except.ok.inj h).symm⟩
  | otherwise around done hdone body =>
    rw [blocks, OpenBlocks.closeChain_inOtherwise _ hdone] at h
    exact .inr ⟨_, _, hdone, _, rfl, (Except.ok.inj h).symm⟩
  | _ => simp [blocks, OpenBlocks.openLoop, OpenBlocks.openWith] at hhead

/-- A loop is closed only from its own body. -/
theorem closeInnerLoop_eq_ok (h : n.blocks.closeInnerLoop = .ok b) :
    ∃ around test body, n = loop around test body ∧
      b = (around.add [.loop 0 test (orPass body) []]).blocks := by
  have hhead := OpenBlocks.head?_of_closeInnerLoop h
  simp only [blocks_add]
  cases n with
  | loop around test body =>
    rw [blocks, OpenBlocks.closeInnerLoop_openLoop] at h
    exact ⟨_, _, _, rfl, (Except.ok.inj h).symm⟩
  | condition around done =>
    cases done <;> simp [blocks, OpenBlocks.inCondition, OpenBlocks.openChain,
      OpenBlocks.openWith] at hhead
  | _ => simp [blocks, OpenBlocks.inOtherwise] at hhead

end Nest

end NovelScript
