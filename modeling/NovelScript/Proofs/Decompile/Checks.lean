import NovelScript.Proofs.Decompile.LostLabels

/-!
# Checks of open blocks

However the commands of a script follow each other, the lists of the blocks that are open and the
entries of what opened them fit together (`OpenBlocks.Fits`), for all that can be open is a `Nest`.
So a command of a block can fail by its arguments and by the entry on top alone: that there is a
statement to close, that it is a condition or a loop, and that there is an opening condition below
another branch need no check (`roleStatement_eq_roleChecks`).
-/

namespace NovelScript

/-! ## Lists and entries -/

/-- The statement that the innermost block belongs to is the latest one of the list around it. The
branch without a condition belongs to the last condition of a chain, each of which is the only
statement in the other branch of the one before it. -/
def Belongs (lists : List (List Stmt)) : Control → Prop
  | .opening | .elseIf => ∃ body test earlier outer,
      lists = body :: (.branch 0 test [] [] :: earlier) :: outer
  | .otherwise => ∃ body done earlier outer,
      done ≠ [] ∧ lists = body :: (chainOf done [] ++ earlier) :: outer
  | .loop => ∃ body test earlier outer, lists = body :: (.loop 0 test [] [] :: earlier) :: outer

namespace OpenBlocks

/-- The lists and the entries of what is open fit together. -/
structure Fits (b : OpenBlocks) : Prop where
  height : b.lists.length = 1 + b.controls.countP (· != .otherwise)
  above : ∀ i : Nat, b.controls[i]? = some .elseIf ∨ b.controls[i]? = some .otherwise →
    b.controls[i + 1]? = some .opening
  owned : ∀ control ∈ b.controls.head?, Belongs b.lists control

/-- A branch that is not the first of its chain stands on the chain. -/
def BranchesStand (controls : List Control) : Prop :=
  ∀ i : Nat, controls[i]? = some .elseIf ∨ controls[i]? = some .otherwise →
    controls[i + 1]? = some .opening

variable {controls : List Control} (h : BranchesStand controls) (control : Control)
include h

theorem BranchesStand.cons (hcontrol : control ≠ .elseIf ∧ control ≠ .otherwise) :
    BranchesStand (control :: controls) := by
  rintro (_ | i) hi
  · simp [hcontrol] at hi
  · exact h i hi

theorem BranchesStand.branch : BranchesStand (control :: .opening :: controls) := by
  rintro (_ | i) hi
  · rfl
  · exact h.cons _ (by decide) i hi

end OpenBlocks

namespace Nest

theorem exists_lists {n : Nest} (h : n.blocks.Fits) : ∃ innermost rest,
    (∀ xs, (n.blocks.add xs).lists = (xs.reverse ++ innermost) :: rest) ∧
      rest.length = n.blocks.controls.countP (· != .otherwise) := by
  obtain ⟨innermost, rest, hlists⟩ := n.blocks.exists_lists_add
  have hheight := h.height
  rw [← add_nil n, blocks_add, hlists, OpenBlocks.controls_add, List.length_cons] at hheight
  exact ⟨innermost, rest, hlists, by omega⟩

theorem fits (n : Nest) : n.blocks.Fits := by
  induction n with
  | script body => exact ⟨by simp [blocks, OpenBlocks.add], by simp [blocks], by simp [blocks]⟩
  | condition around done test body ih =>
    obtain ⟨innermost, rest, hlists, hrest⟩ := exists_lists ih
    -- The first condition of a chain has no branch around it.
    cases done with
    | nil =>
      rw [blocks, OpenBlocks.inCondition_nil_add hlists]
      refine ⟨by simp [hrest]; omega, OpenBlocks.BranchesStand.cons ih.above _ (by decide), ?_⟩
      rintro _ ⟨⟩
      exact ⟨_, _, _, _, rfl⟩
    | cons first others =>
      rw [blocks, OpenBlocks.inCondition_cons_add hlists]
      refine ⟨by simp [hrest]; omega, OpenBlocks.BranchesStand.branch ih.above _, ?_⟩
      rintro _ ⟨⟩
      exact ⟨_, _, _, _, rfl⟩
  | otherwise around done hdone body ih =>
    obtain ⟨innermost, rest, hlists, hrest⟩ := exists_lists ih
    obtain ⟨first, others, rfl⟩ := List.exists_cons_of_ne_nil hdone
    rw [blocks, OpenBlocks.inOtherwise_cons_add hlists]
    refine ⟨by simp [hrest]; omega, OpenBlocks.BranchesStand.branch ih.above _, ?_⟩
    rintro _ ⟨⟩
    exact ⟨_, _, _, _, hdone, rfl⟩
  | loop around test body ih =>
    obtain ⟨innermost, rest, hlists, hrest⟩ := exists_lists ih
    rw [blocks, OpenBlocks.openLoop_add hlists]
    refine ⟨by simp [hrest]; omega, OpenBlocks.BranchesStand.cons ih.above _ (by decide), ?_⟩
    rintro _ ⟨⟩
    exact ⟨_, _, _, _, rfl⟩

end Nest

/-! ## Checks that can fail -/

/-- Whether a control is one of a test. -/
def Control.isCondition (control : Control) : Bool := control == .opening || control == .elseIf

/-- The check of the entry on top, which may be missing. -/
def requireTop (top : Option Control) (allowed : Control → Bool) : Except Fault Unit :=
  match top with
  | none => .error Cause.emptyStack
  | some control => require (allowed control) Condition.blockKind

/-- The checks of a command with a role: the number of its arguments and their data, and the entry
on top of those that are open. -/
def Decompiler.roleChecks (d : Decompiler) (locals : Temporaries) (top : Option Control)
    (c : Command) : BlockRole → Except Fault Unit
  | .condition => do let _ ← d.expr locals (← c.firstCode 3)
  | .otherwise =>
    if c.arguments.length = 3 then do
      requireTop top Control.isCondition
      let _ ← d.expr locals (← c.firstCode 3)
    else do
      c.requireBare
      requireTop top Control.isCondition
  | .closeChain => do
    c.requireBare
    requireTop top (· != .loop)
  | .blend => do
    c.requireBare
    requireTop top Control.isCondition
  | .loop => do let _ ← d.expr locals (← c.firstCode 2)
  | .closeLoop => do
    c.requireBare
    requireTop top (· == .loop)
  | .evaluate => do let _ ← d.expr locals (← c.firstCode 1)
  | .text => do let _ ← c.onlyText
  | .textEnd => do let _ ← c.onlyNumber

theorem OpenBlocks.requireCondition_eq (b : OpenBlocks) :
    b.requireCondition = requireTop b.controls.head? Control.isCondition := by
  unfold requireCondition
  split
  · next h => rw [h]; rfl
  · next h => rw [h]; rfl

namespace Nest

variable {n : Nest}

theorem exists_closed (h : n.blocks.requireCondition = .ok ()) :
    ∃ b, n.blocks.closeCondition = .ok b := by
  cases n with
  | condition around done test body => exact ⟨_, OpenBlocks.closeCondition_inCondition _ _ _ _⟩
  | script | otherwise | loop =>
    simp [blocks, OpenBlocks.requireCondition, OpenBlocks.inOtherwise, OpenBlocks.openLoop,
      OpenBlocks.openWith, require] at h

/-- To close a chain only asks for an innermost block that is no loop. -/
theorem closeChain_eq_requireTop (n : Nest) :
    (fun _ => ()) <$> n.blocks.closeChain = requireTop n.blocks.controls.head? (· != .loop) := by
  cases n with
  | script body => rfl
  | condition around done test body =>
    rw [blocks, OpenBlocks.closeChain_inCondition, OpenBlocks.controls_add]
    cases done <;> rfl
  | otherwise around done hdone body =>
    rw [blocks, OpenBlocks.closeChain_inOtherwise _ hdone, OpenBlocks.controls_add]
    rfl
  | loop around test body => rfl

theorem closeInnerLoop_eq_requireTop (n : Nest) :
    (fun _ => ()) <$> n.blocks.closeInnerLoop =
      requireTop n.blocks.controls.head? (· == .loop) := by
  cases n with
  | script body => rfl
  | condition around done test body =>
    cases done <;> rfl
  | otherwise around done hdone body => rfl
  | loop around test body =>
    rw [blocks, OpenBlocks.closeInnerLoop_openLoop, OpenBlocks.controls_add]
    rfl

end Nest

namespace Decompiler

variable {d : Decompiler} {s : StatementState} {n : Nest} {c : Command}

/-- **A command of a block fails by its arguments and the entry on top alone.** -/
theorem roleStatement_eq_roleChecks (hs : s.blocks = n.blocks) (role : BlockRole) :
    (fun _ => ()) <$> d.roleStatement s c role =
      d.roleChecks s.locals s.blocks.controls.head? c role := by
  obtain ⟨blocks, locals⟩ := s
  obtain rfl : blocks = n.blocks := hs
  cases role with
  | condition | loop | evaluate | text | textEnd =>
    simp only [roleStatement, roleChecks, map_bind, map_pure]
  | closeChain =>
    simp only [roleStatement, roleChecks, map_bind, ← Nest.closeChain_eq_requireTop,
      bind_pure_comp, Functor.map_map]
  | closeLoop =>
    simp only [roleStatement, roleChecks, map_bind, ← Nest.closeInnerLoop_eq_requireTop,
      bind_pure_comp, Functor.map_map]
  | blend =>
    have hforget (m : Except Fault Unit) : (fun _ => ()) <$> m = m := id_map m
    simp only [roleStatement, roleChecks, map_bind, OpenBlocks.requireCondition_eq,
      bind_pure_comp, Functor.map_map, hforget]
  | otherwise =>
    simp only [roleStatement, roleChecks, ← OpenBlocks.requireCondition_eq]
    -- once the entry on top is a condition, the rest of what is closed is there
    cases hcondition : n.blocks.requireCondition with
    | error f => split <;> simp [map_bind]
    | ok _ =>
      obtain ⟨b, hb⟩ := Nest.exists_closed hcondition
      split
      · simp [map_bind, OpenBlocks.elseIf, hb]
      · simp [map_bind, OpenBlocks.otherwise, hb]

/-- Blocks stay nested as long as commands are shown. -/
theorem exists_nest {xs : List LabelledCommand} {s s' : StatementState} (n : Nest)
    (hs : s.blocks = n.blocks) (h : xs.foldlM d.afterLabels s = .ok s') :
    ∃ n' : Nest, s'.blocks = n'.blocks := by
  induction xs generalizing s n with
  | nil =>
    cases h
    exact ⟨n, hs⟩
  | cons x rest ih =>
    obtain ⟨s₁, hstep, hrest⟩ := of_bind h
    obtain ⟨n₁, hs₁, -⟩ := afterLabels_cases hs hstep
    exact ih n₁ hs₁ hrest

/-- **At every step, the lists and the entries of what is open fit together, and no command of a
block fails but by its arguments or the entry on top.** This is so for all commands before, and for
all labels that are put before the next one. -/
theorem fits_of_labelledStatements {own : Option Nat} {before : List Command}
    {waiting left : WaitingLabels}
    (h : before.foldlM (d.labelledStatement own) {} waiting = .ok s left) (labels : List Wording) :
    (s.blocks.add (labels.map labelStatement)).Fits ∧
      ∀ c role,
        (fun _ => ()) <$> d.roleStatement
            { s with blocks := s.blocks.add (labels.map labelStatement) } c role =
          d.roleChecks s.locals s.blocks.controls.head? c role := by
  obtain ⟨xs, -, hfold⟩ := foldlM_labelledStatement h
  obtain ⟨n, hn⟩ := exists_nest (.script []) rfl hfold
  have hlabels : s.blocks.add (labels.map labelStatement) =
      (n.add (labels.map labelStatement)).blocks := by rw [Nest.blocks_add, hn]
  refine ⟨hlabels ▸ Nest.fits _, fun c role => ?_⟩
  rw [roleStatement_eq_roleChecks hlabels, OpenBlocks.controls_add]

end Decompiler

/-- A command of a code at an offset whose test is one and which has some more arguments. -/
def testAt (offset code : Int) (more : Nat) : Command :=
  ⟨offset, 1, code, ⟨0, .int, .set, 2, 0, .code [.int .w8 1]⟩ ::
    List.replicate more ⟨1, .unknown, .set, 0, 0, .none⟩, 0⟩

/-- In the second condition of a chain, whose first one has a loop in it, three lists are open. The
branch without a condition can follow, but the end of a loop cannot. -/
theorem fits_of_secondCondition :
    ∃ s, [testAt 0 2 2, testAt 4 6 1, ⟨8, 1, 7, [], 0⟩, testAt 12 3 2].foldlM
        (endDecompiler.labelledStatement (some 0)) {} [] = .ok s [] ∧
      s.blocks.lists.length = 3 ∧ (s.blocks.add [labelStatement (.ofString "next")]).Fits ∧
      (fun _ => ()) <$> endDecompiler.roleStatement { s with
        blocks := s.blocks.add [labelStatement (.ofString "next")] } ⟨16, 1, 3, [], 0⟩ .otherwise =
          .ok () ∧
      (fun _ => ()) <$> endDecompiler.roleStatement { s with
        blocks := s.blocks.add [labelStatement (.ofString "next")] } ⟨16, 1, 7, [], 0⟩ .closeLoop =
          .error Condition.blockKind := by
  obtain ⟨s, hrun, hcontrols⟩ : ∃ s : StatementState,
      [testAt 0 2 2, testAt 4 6 1, ⟨8, 1, 7, [], 0⟩, testAt 12 3 2].foldlM
        (endDecompiler.labelledStatement (some 0)) {} [] = .ok s [] ∧
      s.blocks.lists.length = 3 ∧ s.blocks.controls = [.elseIf, .opening] := ⟨_, rfl, rfl, rfl⟩
  obtain ⟨hfits, hchecks⟩ :=
    Decompiler.fits_of_labelledStatements hrun [.ofString "next"]
  refine ⟨s, hrun, hcontrols.1, hfits, (hchecks _ _).trans ?_, (hchecks _ _).trans ?_⟩
  · rw [hcontrols.2]
    rfl
  · rw [hcontrols.2]
    rfl

end NovelScript
