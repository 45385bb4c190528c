import NovelScript.Proofs.Decompile.Labels
import NovelScript.Proofs.Decompile.Layout

/-!
# Outlines

The statements of a source can be listed in their order, each with the blocks around it
(`outlineIn`). The commands of a script tell the same list for the statements that they are
decompiled to, whether their blocks are closed or not (`outline_of_foldlM`): a standpoint follows
the blocks, and before what a command shows stand its labels, in the block that is open there.
-/

namespace NovelScript

open List

/-! ## Outlines of statements -/

/-- A part of a block. -/
inductive Side where
  | body | otherwise | loop
  deriving DecidableEq

/-- What stands at a place of a source. -/
inductive Shown where
  | label (name : Wording)
  | condition
  | loop
  /-- A statement without blocks, for the command of a name. -/
  | command (name : Option String)
  deriving DecidableEq

/-- A place of a source: the parts of blocks around it, innermost first, and what stands there. -/
structure Entry where
  path : List Side
  shown : Shown
  deriving DecidableEq

mutual

/-- What a statement shows, and where. -/
def Stmt.outline (path : List Side) : Stmt → List Entry
  | .pass _ => []
  | .branch _ _ body elseBody => ⟨path, .condition⟩ ::
      (outlineIn (.body :: path) body ++ outlineIn (.otherwise :: path) elseBody)
  | .loop _ _ body elseBody => ⟨path, .loop⟩ ::
      (outlineIn (.loop :: path) body ++ outlineIn (.otherwise :: path) elseBody)
  | s => [⟨path, (s.label?.map Shown.label).getD (.command s.commandName?)⟩]

/-- The places of statements, in their order. -/
def outlineIn (path : List Side) : List Stmt → List Entry
  | [] => []
  | s :: rest => s.outline path ++ outlineIn path rest

end

/-- The label that is shown. -/
def Entry.label? (x : Entry) : Option Wording :=
  match x.shown with
  | .label name => some name
  | _ => none

/-- The labels in statements. -/
def labelNamesIn (statements : List Stmt) : List Wording :=
  (outlineIn [] statements).filterMap Entry.label?

variable (path : List Side)

/-- Statements show what they do in turn. -/
@[simp] theorem outlineIn_append (xs ys : List Stmt) :
    outlineIn path (xs ++ ys) = outlineIn path xs ++ outlineIn path ys := by
  induction xs with
  | nil => rfl
  | cons x xs ih => rw [cons_append, outlineIn, outlineIn, ih, append_assoc]

theorem outlineIn_orPass (body : List Stmt) :
    outlineIn path (orPass body) = outlineIn path body := by
  cases body <;> rfl

theorem outlineIn_labels (labels : List Wording) :
    outlineIn path (labels.map labelStatement) = labels.map fun name => ⟨path, .label name⟩ := by
  induction labels with
  | nil => rfl
  | cons name labels ih =>
    rw [map_cons, outlineIn, ih]
    rfl

/-- A statement that names a command shows it. -/
theorem Stmt.outline_of_commandName? {s : Stmt} {name : String} (h : s.commandName? = some name)
    (path : List Side) : s.outline path = [⟨path, .command (some name)⟩] := by
  have hlabel : s.label? = none := by
    unfold label?
    split
    · cases h
    · rfl
  cases s with
  | pass | branch | loop => cases h
  | _ => simp only [outline, hlabel, h, Option.map_none, Option.getD_none]

/-- The path in the branch after some conditions of a chain. -/
def chainPath (path : List Side) (done : List (Expr × List Stmt)) : List Side :=
  replicate done.length .otherwise ++ path

theorem chainPath_cons (c : Expr × List Stmt) (done : List (Expr × List Stmt)) :
    chainPath (.otherwise :: path) done = chainPath path (c :: done) := by
  rw [chainPath, chainPath, length_cons, replicate_succ', append_assoc]
  rfl

section

variable (done : List (Expr × List Stmt))
include done

theorem chainPath_append_singleton
    (c : Expr × List Stmt) : chainPath path (done ++ [c]) = .otherwise :: chainPath path done := by
  rw [chainPath, chainPath, length_append, length_singleton, replicate_succ]
  rfl

/-- The last branch stands behind the others. -/
theorem outlineIn_chainOf (elseBody : List Stmt) :
    outlineIn path (chainOf done elseBody) =
      outlineIn path (chainOf done []) ++ outlineIn (chainPath path done) elseBody := by
  induction done generalizing path with
  | nil => rfl
  | cons c done ih =>
    obtain ⟨test, body⟩ := c
    simp only [chainOf, outlineIn, Stmt.outline, append_nil]
    rw [ih, chainPath_cons _ (test, body), cons_append, append_assoc]

theorem outlineIn_chainOf_append (test : Expr) (body : List Stmt) :
    outlineIn path (chainOf (done ++ [(test, body)]) []) =
      outlineIn path (chainOf done []) ++ ⟨chainPath path done, .condition⟩ ::
        outlineIn (.body :: chainPath path done) body := by
  rw [chainOf_append, outlineIn_chainOf]
  simp [chainOf, outlineIn, Stmt.outline]

end

/-! ## Outlines of commands -/

/-- Where commands are read: the path of the block that is open, and those of the blocks around the
block statements that are open. -/
structure Standpoint where
  path : List Side := []
  around : List (List Side) := []

namespace Standpoint

/-- The standpoint after a command with some role and number of arguments. -/
def after (c : Standpoint) (arguments : Nat) : Option BlockRole → Standpoint
  | some .condition => ⟨.body :: c.path, c.path :: c.around⟩
  | some .loop => ⟨.loop :: c.path, c.path :: c.around⟩
  | some .otherwise =>
    if arguments = 3 then ⟨.body :: .otherwise :: c.path.tail, c.around⟩
    else ⟨.otherwise :: c.path.tail, c.around⟩
  | some .closeChain | some .closeLoop => ⟨c.around.headD [], c.around.tail⟩
  | _ => c

/-- What a command with a name shows. A further condition of a chain stands in the other branch of
the one before it. -/
def shown (c : Standpoint) (arguments : Nat) (name : Option String) : Option BlockRole → List Entry
  | some .condition => [⟨c.path, .condition⟩]
  | some .loop => [⟨c.path, .loop⟩]
  | some .otherwise => if arguments = 3 then [⟨.otherwise :: c.path.tail, .condition⟩] else []
  | some .closeChain | some .closeLoop | some .blend => []
  | _ => [⟨c.path, .command name⟩]

end Standpoint

namespace Decompiler

/-- The name of the command with a code. -/
def nameOf (d : Decompiler) (code : Int) : Option String :=
  (d.command code).toOption.map CommandInfo.name

/-- What a command shows where it stands. -/
def placesOf (d : Decompiler) (c : Standpoint) (x : LabelledCommand) : List Entry :=
  x.labels.map (fun name => ⟨c.path, .label name⟩) ++
    c.shown x.command.arguments.length (d.nameOf x.code) (d.roleOf x.code)

/-- What commands show, from a standpoint on. -/
def outline (d : Decompiler) (c : Standpoint) : List LabelledCommand → List Entry
  | [] => []
  | x :: rest => d.placesOf c x ++
      d.outline (c.after x.command.arguments.length (d.roleOf x.code)) rest

end Decompiler

/-! ## Outlines of what is open -/

namespace Nest

/-- Where the next command stands. -/
def standpoint : Nest → Standpoint
  | script _ => {}
  | condition around done _ _ =>
    ⟨.body :: chainPath around.standpoint.path done,
      around.standpoint.path :: around.standpoint.around⟩
  | otherwise around done _ _ =>
    ⟨chainPath around.standpoint.path done, around.standpoint.path :: around.standpoint.around⟩
  | loop around _ _ =>
    ⟨.loop :: around.standpoint.path, around.standpoint.path :: around.standpoint.around⟩

@[simp] theorem standpoint_add (n : Nest) (xs : List Stmt) :
    (n.add xs).standpoint = n.standpoint := by
  cases n <;> rfl

/-- What nested blocks show. -/
def outline (n : Nest) : List Entry := outlineIn [] n.blocks.statements

variable {around : Nest} {done : List (Expr × List Stmt)} {test : Expr} {body : List Stmt}

theorem outline_condition : (condition around done test body).outline =
    (around.add (chainOf (done ++ [(test, body)]) [])).outline := by
  rw [outline, blocks, OpenBlocks.statements_inCondition, outline, blocks_add]

theorem outline_otherwise {hdone : done ≠ []} : (otherwise around done hdone body).outline =
    (around.add (chainOf done body)).outline := by
  rw [outline, blocks, OpenBlocks.statements_inOtherwise _ hdone, outline, blocks_add]

theorem outline_loop :
    (loop around test body).outline = (around.add [.loop 0 test body []]).outline := by
  rw [outline, blocks, OpenBlocks.statements_openLoop, outline, blocks_add]

/-- Statements that are added show what they do at the standpoint. -/
theorem outline_add (n : Nest) (xs : List Stmt) :
    (n.add xs).outline = n.outline ++ outlineIn n.standpoint.path xs := by
  induction n generalizing xs with
  | script body =>
    rw [outline, outline, add, blocks, blocks, OpenBlocks.statements_add,
      OpenBlocks.statements_add, outlineIn_append]
    rfl
  | condition around done test body ih =>
    rw [add, outline_condition, outline_condition, ih, ih, outlineIn_chainOf_append,
      outlineIn_chainOf_append, outlineIn_append]
    simp [standpoint]
  | otherwise around done hdone body ih =>
    rw [add, outline_otherwise, outline_otherwise, ih, ih, outlineIn_chainOf,
      outlineIn_chainOf _ _ body, outlineIn_append]
    simp [standpoint]
  | loop around test body ih =>
    rw [add, outline_loop, outline_loop, ih, ih]
    simp [outlineIn, Stmt.outline, standpoint]

/-- A move shows the command where it stands. -/
theorem outline_of_moves {n n' : Nest} {command : Command} {role : BlockRole}
    (h : Decompiler.Moves command role n n') (name : Option String) :
    n'.standpoint = n.standpoint.after command.arguments.length (some role) ∧
      n'.outline = n.outline ++ n.standpoint.shown command.arguments.length name (some role) := by
  cases h with
  | condition _ test =>
    exact ⟨rfl, by simp [outline_condition, outline_add, chainOf, outlineIn, Stmt.outline,
      Standpoint.shown]⟩
  | loop _ test =>
    exact ⟨rfl, by simp [outline_loop, outline_add, outlineIn, Stmt.outline, Standpoint.shown]⟩
  | blend => exact ⟨rfl, (append_nil _).symm⟩
  | elseIf hcount =>
    rw [Standpoint.after, Standpoint.shown, if_pos hcount, if_pos hcount, outline_condition,
      outline_condition, outline_add, outline_add, outlineIn_chainOf_append _ (_ ++ _),
      outlineIn_chainOf_append, outlineIn_chainOf_append, outlineIn_orPass]
    exact ⟨by simp [standpoint, chainPath_append_singleton], by
      simp [standpoint, chainPath_append_singleton, outlineIn]⟩
  | otherwise hcount =>
    rw [Standpoint.after, Standpoint.shown, if_neg hcount, if_neg hcount, append_nil]
    exact ⟨by simp [standpoint, chainPath_append_singleton], by simp [outline_condition,
      outline_otherwise, outline_add, outlineIn_chainOf_append, outlineIn_orPass]⟩
  | closeCondition =>
    exact ⟨by simp [standpoint, Standpoint.after], by simp [outline_condition, outline_add,
      outlineIn_chainOf_append, outlineIn_orPass, Standpoint.shown]⟩
  | closeOtherwise =>
    rw [outline_otherwise, outline_add, outline_add, outlineIn_chainOf, outlineIn_orPass,
      ← outlineIn_chainOf]
    exact ⟨by simp [standpoint, Standpoint.after], (append_nil _).symm⟩
  | closeLoop =>
    exact ⟨by simp [standpoint, Standpoint.after], by simp [outline_loop, outline_add, outlineIn,
      Stmt.outline, outlineIn_orPass, Standpoint.shown]⟩

end Nest

namespace Decompiler

variable {d : Decompiler} {s s' : StatementState} {n : Nest}

theorem outline_of_afterLabels {x : LabelledCommand} (hs : s.blocks = n.blocks)
    (h : d.afterLabels s x = .ok s') :
    ∃ n' : Nest, s'.blocks = n'.blocks ∧
      n'.standpoint = n.standpoint.after x.command.arguments.length (d.roleOf x.code) ∧
      n'.outline = n.outline ++ d.placesOf n.standpoint x := by
  have hlabels : (n.add x.labelling).outline =
      n.outline ++ x.labels.map fun name => ⟨n.standpoint.path, .label name⟩ := by
    rw [Nest.outline_add, LabelledCommand.labelling, outlineIn_labels]
  rw [placesOf, ← append_assoc, ← hlabels]
  obtain ⟨n', hs', ⟨hplain, line, ⟨info, hinfo, hline⟩, -, rfl⟩ | ⟨role, hrole, hmoves⟩⟩ :=
    afterLabels_cases hs h
  · -- the statement of the command stands after the labels
    have hname : d.nameOf x.code = some info.name := by
      rw [nameOf, hinfo]
      rfl
    have hsame : n.standpoint.after x.command.arguments.length (d.roleOf x.code) = n.standpoint ∧
        n.standpoint.shown x.command.arguments.length (some info.name) (d.roleOf x.code) =
          [⟨n.standpoint.path, .command (some info.name)⟩] := by
      cases hrole : d.roleOf x.code with
      | none => exact ⟨rfl, rfl⟩
      | some role =>
        have hmem := hplain role hrole
        simp only [mem_cons, not_mem_nil, or_false] at hmem
        rcases hmem with rfl | rfl | rfl <;> exact ⟨rfl, rfl⟩
    refine ⟨_, hs', ?_, ?_⟩
    · rw [hsame.1, Nest.standpoint_add]
    · rw [hname, hsame.2, ← Nest.add_add, Nest.outline_add, Nest.standpoint_add, outlineIn,
        Stmt.outline_of_commandName? hline]
      rfl
  · rw [hrole]
    have hmoved := Nest.outline_of_moves hmoves (d.nameOf x.code)
    rw [Nest.standpoint_add] at hmoved
    exact ⟨n', hs', hmoved⟩

/-- Commands show what the outline tells. -/
theorem outline_of_foldlM {xs : List LabelledCommand} (n : Nest) {locals : Temporaries}
    (hfold : xs.foldlM d.afterLabels ⟨n.blocks, locals⟩ = .ok s') :
    outlineIn [] s'.blocks.statements = n.outline ++ d.outline n.standpoint xs := by
  induction xs generalizing n locals with
  | nil =>
    cases hfold
    exact (append_nil _).symm
  | cons x rest ih =>
    obtain ⟨⟨b, locals₁⟩, hstep, hrest⟩ := of_bind hfold
    obtain ⟨n', rfl, hstandpoint, houtline⟩ := outline_of_afterLabels rfl hstep
    rw [ih n' hrest, houtline, hstandpoint, outline, append_assoc]

end Decompiler

end NovelScript
