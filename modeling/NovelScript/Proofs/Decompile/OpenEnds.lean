import NovelScript.Proofs.Decompile.LostLabels

/-!
# Blocks that are left open

A script is decompiled only if each command that divides or closes a block finds the block open. But
nothing asks at the end whether all blocks are closed, so a script may break off inside of one. What
was read of such a block is kept, and that may be nothing (`openLoop_decompiled`). If all blocks are
closed, each of them has at least one statement (`bracketed_iff_of_statements`).
-/

namespace NovelScript

/-! ## Counting blocks -/

/-- Every block that is opened is closed, by a command of its own kind. -/
def Bracketed {α : Type} (items : List (BlockKind × α)) : Prop :=
  ∃ jumps, readBlocks items [] = some (jumps, [])

/-- Whether a kind opens a block. -/
def BlockKind.opens : BlockKind → Bool
  | .condition | .loop => true
  | _ => false

/-- Whether a kind closes a block. -/
def BlockKind.closes : BlockKind → Bool
  | .closeChain | .closeLoop => true
  | _ => false

theorem countP_of_readBlocks {α : Type} {items : List (BlockKind × α)}
    {blocks blocks' : List (OpenBlock α)} {jumps : List (Jump α)}
    (h : readBlocks items blocks = some (jumps, blocks')) :
    blocks.length + items.countP (fun x => x.1.opens) =
      items.countP (fun x => x.1.closes) + blocks'.length := by
  induction items generalizing blocks jumps with
  | nil =>
    cases h
    simp
  | cons item items ih =>
    obtain ⟨kind, x⟩ := item
    obtain ⟨first, others, middle, hfirst, hothers, -⟩ := exists_readBlocks_cons h
    have hrest := ih hothers
    unfold readBlock at hfirst
    split at hfirst <;> cases hfirst <;> simp [BlockKind.opens, BlockKind.closes] at hrest ⊢ <;>
      omega

/-! ## Open blocks whose parts are filled -/

/-- What is open is what a bracket reader has, and all that is closed in it has statements. -/
inductive Growing : Nest → List (OpenBlock Command) → Prop
  | script {body : List Stmt} (hbody : Filled body) : Growing (.script body) []
  | condition {around : Nest} {blocks : List (OpenBlock Command)} {done : List (Expr × List Stmt)}
      {test : Expr} {body : List Stmt} {opening latest : Command} (h : Growing around blocks)
      (hdone : Filled (chainOf done [])) (hbody : Filled body) :
      Growing (.condition around done test body) (.chain opening (some latest) :: blocks)
  | otherwise {around : Nest} {blocks : List (OpenBlock Command)} {done : List (Expr × List Stmt)}
      {hsome : done ≠ []} {body : List Stmt} {opening : Command} (h : Growing around blocks)
      (hdone : Filled (chainOf done [])) (hbody : Filled body) :
      Growing (.otherwise around done hsome body) (.chain opening none :: blocks)
  | loop {around : Nest} {blocks : List (OpenBlock Command)} {test : Expr} {body : List Stmt}
      {opening : Command} (h : Growing around blocks) (hbody : Filled body) :
      Growing (.loop around test body) (.loop opening :: blocks)

theorem filled_closed {done : List (Expr × List Stmt)} {body : List Stmt}
    (hdone : Filled (chainOf done [])) (hbody : Filled body) (test : Expr) :
    Filled (chainOf (done ++ [(test, orPass body)]) []) := by
  rw [filled_chainOf] at hdone ⊢
  simpa [or_imp, forall_and, orPass_ne_nil, hbody] using hdone

theorem Growing.add {n : Nest} {blocks : List (OpenBlock Command)} (h : Growing n blocks)
    {xs : List Stmt} (hxs : Filled xs) : Growing (n.add xs) blocks := by
  cases h with
  | script hbody => exact .script (filled_append.mpr ⟨hbody, hxs⟩)
  | condition h hdone hbody => exact .condition h hdone (filled_append.mpr ⟨hbody, hxs⟩)
  | otherwise h hdone hbody => exact .otherwise h hdone (filled_append.mpr ⟨hbody, hxs⟩)
  | loop h hbody => exact .loop h (filled_append.mpr ⟨hbody, hxs⟩)

/-! ## Reading scripts -/

/-- What a command with a role and a number of arguments does to blocks. -/
def BlockRole.kind (arguments : Nat) : Option BlockRole → BlockKind
  | some .condition => .condition
  | some .otherwise => if arguments = 3 then .elseIf else .otherwise
  | some .closeChain => .closeChain
  | some .loop => .loop
  | some .closeLoop => .closeLoop
  | _ => .plain

/-- A move opens and closes blocks as their brackets do. -/
theorem Growing.move {n n' : Nest} {blocks : List (OpenBlock Command)} {c : Command}
    {role : BlockRole} (h : Growing n blocks) (hmoves : Decompiler.Moves c role n n') :
    ∃ jumps blocks', readBlock (BlockRole.kind c.arguments.length (some role)) c blocks =
      some (jumps, blocks') ∧ Growing n' blocks' := by
  cases hmoves with
  | condition => exact ⟨_, _, rfl, h.condition filled_nil filled_nil⟩
  | loop => exact ⟨_, _, rfl, h.loop filled_nil⟩
  | blend => exact ⟨_, _, rfl, h⟩
  | elseIf hcount =>
    rw [BlockRole.kind, if_pos hcount]
    cases h with
    | condition h hdone hbody =>
      exact ⟨_, _, rfl, h.condition (filled_closed hdone hbody _) filled_nil⟩
  | otherwise hcount =>
    rw [BlockRole.kind, if_neg hcount]
    cases h with
    | condition h hdone hbody =>
      exact ⟨_, _, rfl, h.otherwise (filled_closed hdone hbody _) filled_nil⟩
  | closeCondition =>
    cases h with
    | condition h hdone hbody => exact ⟨_, _, rfl, h.add (filled_closed hdone hbody _)⟩
  | closeOtherwise =>
    cases h with
    | otherwise h hdone hbody =>
      exact ⟨_, _, rfl, h.add (filled_chainOf.mpr ⟨(filled_chainOf.mp hdone).1, by simpa⟩)⟩
  | closeLoop =>
    cases h with
    | loop h hbody =>
      exact ⟨_, _, rfl, h.add (filled_loop.mpr ⟨orPass_ne_nil _, by simpa, filled_nil⟩)⟩

namespace Decompiler

variable {d : Decompiler} {s s' : StatementState} {n : Nest} {blocks : List (OpenBlock Command)}

/-- Commands with their kinds. -/
def blockItems (d : Decompiler) (commands : List Command) : List (BlockKind × Command) :=
  commands.map fun c => (BlockRole.kind c.arguments.length (d.roleOf c.code), c)

theorem growing_of_afterLabels {x : LabelledCommand} (h : Growing n blocks)
    (hs : s.blocks = n.blocks) (hstep : d.afterLabels s x = .ok s') :
    ∃ n' jumps blocks', s'.blocks = n'.blocks ∧ readBlock (BlockRole.kind
      x.command.arguments.length (d.roleOf x.code)) x.command blocks = some (jumps, blocks') ∧
        Growing n' blocks' := by
  have hlabels : Filled x.labelling := filled_of_simple fun line hline => by
    obtain ⟨name, -, rfl⟩ := List.mem_map.mp hline
    rfl
  obtain ⟨n', hs', ⟨hplain, line, -, hline, rfl⟩ | ⟨role, hrole, hmoves⟩⟩ :=
    afterLabels_cases hs hstep
  · have hkind : BlockRole.kind x.command.arguments.length (d.roleOf x.code) = .plain := by
      cases hrole : d.roleOf x.code with
      | none => rfl
      | some role =>
        have hmem := hplain role hrole
        simp only [List.mem_cons, List.not_mem_nil, or_false] at hmem
        rcases hmem with rfl | rfl | rfl <;> rfl
    rw [hkind]
    exact ⟨_, _, _, hs', rfl, h.add (filled_append.mpr ⟨hlabels, hline⟩)⟩
  · rw [hrole]
    obtain ⟨jumps, blocks', hread, hgrowing⟩ := (h.add hlabels).move hmoves
    exact ⟨n', jumps, blocks', hs', hread, hgrowing⟩

/-- So does a run of commands. -/
theorem growing_of_foldlM {xs : List LabelledCommand} (h : Growing n blocks)
    (hs : s.blocks = n.blocks) (hfold : xs.foldlM d.afterLabels s = .ok s') :
    ∃ n' jumps blocks', s'.blocks = n'.blocks ∧ readBlocks (d.blockItems
      (xs.map LabelledCommand.command)) blocks = some (jumps, blocks') ∧ Growing n' blocks' := by
  induction xs generalizing s n blocks with
  | nil =>
    cases hfold
    exact ⟨_, _, _, hs, rfl, h⟩
  | cons x rest ih =>
    obtain ⟨s₁, hstep, hrest⟩ := of_bind hfold
    obtain ⟨n₁, first, middle, hs₁, hfirst, hmiddle⟩ := growing_of_afterLabels h hs hstep
    obtain ⟨n', others, last, hs', hothers, hlast⟩ := ih hmiddle hs₁ hrest
    exact ⟨_, _, _, hs', readBlocks_cons hfirst hothers, hlast⟩

/-- In a script that is decompiled, every command that divides or closes a block has one to divide
or close. The blocks are all closed if and only if as many are closed as opened, and then each of
them has at least one statement. -/
theorem bracketed_iff_of_statements {number : Int} {script : Script}
    {waiting left : WaitingLabels} {statements : List Stmt}
    (h : d.statements number script waiting = .ok statements left) :
    (readBlocks (d.blockItems script.commands) []).isSome ∧
      (Bracketed (d.blockItems script.commands) ↔
        (d.blockItems script.commands).countP (fun x => x.1.opens) =
          (d.blockItems script.commands).countP (fun x => x.1.closes)) ∧
      (Bracketed (d.blockItems script.commands) → Filled statements) := by
  obtain ⟨xs, s, hxs, hfold, rfl⟩ := exists_labelled h
  obtain ⟨n, jumps, blocks, hs, hread, hgrowing⟩ :=
    growing_of_foldlM (.script filled_nil) rfl hfold
  rw [commands_of_labelled hxs] at hread
  have hcount := countP_of_readBlocks hread
  have hclosed : Bracketed (d.blockItems script.commands) ↔ blocks = [] := by
    rw [Bracketed, hread]
    simp
  refine ⟨by simp [hread], ?_, fun hbracketed => ?_⟩
  · rw [hclosed, ← List.length_eq_zero_iff]
    simp only [List.length_nil] at hcount
    omega
  · rw [hclosed] at hbracketed
    subst hbracketed
    rw [hs]
    cases hgrowing with
    | script hbody => rwa [Nest.blocks, OpenBlocks.statements_add]

end Decompiler

/-- A loop, whose test is one, at an offset. -/
def loopAt (offset : Int) : Command :=
  ⟨offset, 1, 6, [⟨0, .int, .set, 2, 0, .code [.int .w8 1]⟩, ⟨1, .unknown, .set, 0, 0, .none⟩], 0⟩

/-- A loop that is closed has a statement, also if it has no command. -/
theorem bracketed_iff_of_closedLoop :
    ∃ statements, endDecompiler.statements 0 ⟨480, 0, [loopAt 0, ⟨4, 1, 7, [], 0⟩]⟩ [] =
        .ok statements [] ∧
      Bracketed (endDecompiler.blockItems [loopAt 0, ⟨4, 1, 7, [], 0⟩]) ∧ Filled statements := by
  have hrun : endDecompiler.statements 0 ⟨480, 0, [loopAt 0, ⟨4, 1, 7, [], 0⟩]⟩ [] =
      .ok [.loop 0 (.int 1) [.pass 0] []] [] := rfl
  obtain ⟨-, hiff, hfilled⟩ := Decompiler.bracketed_iff_of_statements hrun
  exact ⟨_, hrun, hiff.mpr rfl, hfilled (hiff.mpr rfl)⟩

/-- A script that ends in a loop is decompiled, to a loop without a statement. -/
theorem openLoop_decompiled :
    endDecompiler.statements 0 ⟨480, 0, [loopAt 0]⟩ [] = .ok [.loop 0 (.int 1) [] []] [] ∧
      ¬Bracketed (endDecompiler.blockItems [loopAt 0]) ∧ ¬Filled [.loop 0 (.int 1) [] []] := by
  refine ⟨rfl, ?_, by simp⟩
  rintro ⟨jumps, h⟩
  cases h

end NovelScript
