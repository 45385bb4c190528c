import NovelScript.Proofs.Decompile.Blocks
import NovelScript.Proofs.Decompile.Commands
import NovelScript.Proofs.Session

/-!
# Layouts of blocks

The commands of a script whose blocks are all closed form a `Layout`: a list of commands, chains of
conditions and loops. When such commands are decompiled, the statements that come out follow the
layout (`rebuilt_of_foldlM`).
-/

namespace NovelScript

open List

variable {d : Decompiler} {s s' : StatementState}

/-! ## Commands with their labels -/

/-- A command with the labels that are handed out before it. -/
structure LabelledCommand where
  labels : List Wording
  command : Command

namespace LabelledCommand

/-- The code of the command. -/
def code (x : LabelledCommand) : Int := x.command.code

/-- The statements of its labels. -/
def labelling (x : LabelledCommand) : List Stmt := x.labels.map labelStatement

end LabelledCommand

namespace Decompiler

variable {labels labels' left : WaitingLabels} {number : Int} {script : Script}
  {statements : List Stmt}

/-- The commands of a script, each with the labels that are handed out before it. -/
def labelled (d : Decompiler) (number : Int) (script : Script) :
    Labelling (List LabelledCommand) := do
  let own ← ofResult (d.labelledScript number)
  script.commands.mapM fun c => return ⟨← WaitingLabels.take own c.offset, c⟩

/-- The step of a command once its labels have been shown. -/
def afterLabels (d : Decompiler) (s : StatementState) (x : LabelledCommand) :
    Except Fault StatementState :=
  d.statementOf { s with blocks := s.blocks.add x.labelling } x.command

/-- Labels can be handed out before statements are made. -/
theorem foldlM_labelledStatement {own : Option Nat} {commands : List Command}
    (h : commands.foldlM (d.labelledStatement own) s labels = .ok s' labels') :
    ∃ xs, commands.mapM (fun c => (do return ⟨← WaitingLabels.take own c.offset, c⟩ :
        Labelling LabelledCommand)) labels = .ok xs labels' ∧
      xs.foldlM d.afterLabels s = .ok s' := by
  induction commands generalizing s labels with
  | nil =>
    obtain ⟨rfl, rfl⟩ := runPure_eq_ok.mp h
    exact ⟨[], rfl, rfl⟩
  | cons c rest ih =>
    obtain ⟨s₁, labels₁, hstep, hrest⟩ := of_runBind h
    obtain ⟨names, labels₂, htake, hstatement⟩ := of_runBind hstep
    obtain ⟨hresult, rfl⟩ := ofResult_eq_ok.mp hstatement
    obtain ⟨xs, hxs, hfold⟩ := ih hrest
    refine ⟨⟨names, c⟩ :: xs, ?_, ?_⟩
    · rw [mapM_cons]
      refine runBind_eq_ok.mpr ⟨⟨names, c⟩, labels₁, ?_, runBind_eq_ok.mpr ⟨xs, labels', hxs, rfl⟩⟩
      exact runBind_eq_ok.mpr ⟨names, labels₁, htake, rfl⟩
    · rw [foldlM_cons]
      exact bind_eq_ok.mpr ⟨s₁, hresult, hfold⟩

variable {xs : List LabelledCommand}

theorem commands_of_labelled (h : d.labelled number script labels = .ok xs left) :
    xs.map LabelledCommand.command = script.commands := by
  obtain ⟨own, labels₁, -, hmap⟩ := of_runBind h
  clear h
  generalize script.commands = commands at hmap ⊢
  induction commands generalizing labels₁ left xs with
  | nil =>
    obtain ⟨rfl, -⟩ := runPure_eq_ok.mp hmap
    rfl
  | cons c rest ih =>
    rw [mapM_cons] at hmap
    obtain ⟨x, labels₂, hx, h₁⟩ := of_runBind hmap
    obtain ⟨names, labels₃, -, hnames⟩ := of_runBind hx
    obtain ⟨rfl, -⟩ := runPure_eq_ok.mp hnames
    obtain ⟨ys, labels₄, hys, h₂⟩ := of_runBind h₁
    obtain ⟨rfl, -⟩ := runPure_eq_ok.mp h₂
    rw [map_cons, ih _ hys]

/-- What is shown of a script is shown of its labelled commands. -/
theorem exists_labelled (h : d.statements number script labels = .ok statements left) :
    ∃ xs s, d.labelled number script labels = .ok xs left ∧
      xs.foldlM d.afterLabels {} = .ok s ∧ statements = s.blocks.statements := by
  obtain ⟨_, labels₁, hversion, h₁⟩ := of_runBind h
  obtain ⟨-, rfl⟩ := runRequire_eq_ok.mp hversion
  obtain ⟨own, labels₂, hown, h₂⟩ := of_runBind h₁
  obtain ⟨s, labels₃, hrun, h₃⟩ := of_runBind h₂
  obtain ⟨rfl, rfl⟩ := runPure_eq_ok.mp h₃
  obtain ⟨xs, hxs, hfold⟩ := foldlM_labelledStatement hrun
  exact ⟨xs, s, runBind_eq_ok.mpr ⟨own, labels₂, hown, hxs⟩, hfold, rfl⟩

theorem foldlM_of_statements (h : d.statements number script labels = .ok statements labels')
    (hxs : d.labelled number script labels = .ok xs left) :
    ∃ s, xs.foldlM d.afterLabels {} = .ok s ∧ statements = s.blocks.statements := by
  obtain ⟨ys, s, hys, hs⟩ := exists_labelled h
  cases hys.symm.trans hxs
  exact ⟨s, hs⟩

end Decompiler

/-! ## Layouts -/

mutual

/-- Commands in which every block is closed. -/
inductive Layout where
  | nil
  | plain (x : LabelledCommand) (rest : Layout)
  | chain (opening : LabelledCommand) (body : Layout) (branches : Branches) (rest : Layout)
  | loop (opening : LabelledCommand) (body : Layout) (close : LabelledCommand) (rest : Layout)

/-- What follows the first body of a chain of conditions. Two commands stand before each further
body. -/
inductive Branches where
  | close (x : LabelledCommand)
  | elseIf (blend test : LabelledCommand) (body : Layout) (rest : Branches)
  | otherwise (blend bare : LabelledCommand) (body : Layout) (close : LabelledCommand)

end

mutual

/-- The commands of a layout, in order. -/
def Layout.flatten : Layout → List LabelledCommand
  | .nil => []
  | .plain x rest => x :: rest.flatten
  | .chain opening body branches rest =>
    opening :: (body.flatten ++ (branches.flatten ++ rest.flatten))
  | .loop opening body close rest => opening :: (body.flatten ++ close :: rest.flatten)

/-- The commands of branches, in order. -/
def Branches.flatten : Branches → List LabelledCommand
  | .close x => [x]
  | .elseIf blend test body rest => blend :: test :: (body.flatten ++ rest.flatten)
  | .otherwise blend bare body close => blend :: bare :: (body.flatten ++ [close])

end

/-- The codes of a layout. -/
def Layout.codes (l : Layout) : List Int := l.flatten.map LabelledCommand.code

/-- The codes of branches. -/
def Branches.codes (b : Branches) : List Int := b.flatten.map LabelledCommand.code

@[simp] theorem Layout.codes_nil : Layout.nil.codes = [] := rfl

@[simp] theorem Layout.codes_plain (x : LabelledCommand) (rest : Layout) :
    (plain x rest).codes = x.code :: rest.codes := rfl

@[simp] theorem Layout.codes_chain (opening : LabelledCommand) (body rest : Layout)
    (branches : Branches) :
    (chain opening body branches rest).codes =
      opening.code :: (body.codes ++ (branches.codes ++ rest.codes)) := by
  simp [codes, Branches.codes, flatten]

@[simp] theorem Layout.codes_loop (opening close : LabelledCommand) (body rest : Layout) :
    (loop opening body close rest).codes =
      opening.code :: (body.codes ++ close.code :: rest.codes) := by
  simp [codes, flatten]

@[simp] theorem Branches.codes_close (x : LabelledCommand) : (close x).codes = [x.code] := rfl

@[simp] theorem Branches.codes_elseIf (blend test : LabelledCommand) (body : Layout)
    (rest : Branches) :
    (elseIf blend test body rest).codes =
      blend.code :: test.code :: (body.codes ++ rest.codes) := by
  simp [codes, Layout.codes, flatten]

@[simp] theorem Branches.codes_otherwise (blend bare close : LabelledCommand) (body : Layout) :
    (otherwise blend bare body close).codes =
      blend.code :: bare.code :: (body.codes ++ [close.code]) := by
  simp [codes, Layout.codes, flatten]

/-- The statements of the labels before branches, which belong to the body before them. -/
def Branches.labelling : Branches → List Stmt
  | .close x => x.labelling
  | .elseIf blend test _ _ => blend.labelling ++ test.labelling
  | .otherwise blend bare _ _ => blend.labelling ++ bare.labelling

theorem Branches.labelling_eq_map (b : Branches) :
    ∃ labels : List Wording, b.labelling = labels.map labelStatement := by
  cases b with
  | close x => exact ⟨x.labels, rfl⟩
  | elseIf blend test => exact ⟨blend.labels ++ test.labels, map_append.symm⟩
  | otherwise blend bare => exact ⟨blend.labels ++ bare.labels, map_append.symm⟩

namespace Decompiler

/-- A command has a role in blocks. -/
def HasRole (d : Decompiler) (x : LabelledCommand) (role : BlockRole) : Prop :=
  d.firstNamed x.code BlockRole.names = .ok (some role)

/-- A command that neither opens nor divides nor closes a block. -/
structure IsPlain (d : Decompiler) (x : LabelledCommand) : Prop where
  nonneg : 0 ≤ x.code
  role : ∀ role, d.HasRole x role → role ∈ [.evaluate, .text, .textEnd]

mutual

/-- The commands of a layout have the roles that it gives them. -/
def Fits (d : Decompiler) : Layout → Prop
  | .nil => True
  | .plain x rest => d.IsPlain x ∧ d.Fits rest
  | .chain opening body branches rest =>
    d.HasRole opening .condition ∧ d.Fits body ∧ d.FitsBranches branches ∧ d.Fits rest
  | .loop opening body close rest =>
    d.HasRole opening .loop ∧ d.Fits body ∧ d.HasRole close .closeLoop ∧ d.Fits rest

/-- The commands of branches have the roles that they should have. -/
def FitsBranches (d : Decompiler) : Branches → Prop
  | .close x => d.HasRole x .closeChain
  | .elseIf blend test body rest =>
    d.HasRole blend .blend ∧ d.HasRole test .otherwise ∧ test.command.arguments.length = 3 ∧
      d.Fits body ∧ d.FitsBranches rest
  | .otherwise blend bare body close =>
    d.HasRole blend .blend ∧ d.HasRole bare .otherwise ∧ bare.command.arguments = [] ∧
      d.Fits body ∧ d.HasRole close .closeChain

end

end Decompiler

/-! ## Statements that stand for a command -/

/-- The name of the command that a statement without blocks stands for. -/
def Stmt.commandName? : Stmt → Option String
  | .expression _ (.const (.text _ _)) => some "WORD"
  | .expression _ (.yield _) => some "RETURNCODE"
  | .expression _ (.call (.name name) [] _) => some name
  | .expression _ (.subscript (.name name) _) => some name
  | .assign _ [.subscript (.name name) _] _ => some name
  | .assign _ [.attribute _ _] _ => some "LET"
  | .augment _ _ _ _ => some "LET"
  | .context _ [(.call (.name name) [] _, _)] _ => some name
  | _ => none

namespace CommandTable

variable {table : CommandTable} {line : Stmt} {code : Int}

/-- A statement is compiled to a command with a code. -/
def Gives (table : CommandTable) (line : Stmt) (code : Int) : Prop :=
  ∃ name n, line.commandName? = some name ∧ table.code name = .ok n ∧ code = n

theorem code_of_getElem? (hnames : (table.commands.map CommandInfo.name).Nodup) {n : Nat}
    {info : CommandInfo} (h : table.commands[n]? = some info) : table.code info.name = .ok n := by
  have hsome : (table.commands.zipIdx.reverse.find? fun command =>
      command.1.name == info.name).isSome := by
    rw [find?_isSome]
    exact ⟨(info, n), mem_reverse.mpr (mem_zipIdx_iff_getElem?.mpr h), beq_self_eq_true _⟩
  obtain ⟨⟨other, m⟩, hfind⟩ := Option.isSome_iff_exists.mp hsome
  have hcode : table.code info.name = .ok m :=
    orFault_eq_ok.mpr (congrArg (Option.map Prod.snd) hfind)
  obtain ⟨found, hfound, hname⟩ := code_eq_ok hcode
  have hlt : m < (table.commands.map CommandInfo.name).length := by
    rw [length_map]
    exact (List.getElem?_eq_some_iff.mp hfound).1
  have hsame : (table.commands.map CommandInfo.name)[m]? =
      (table.commands.map CommandInfo.name)[n]? := by
    rw [getElem?_map, getElem?_map, hfound, h, Option.map_some, Option.map_some, hname]
  rw [hcode, (getElem?_inj hlt hnames).mp hsame]

end CommandTable

namespace Decompiler

variable {code : Int} {role : BlockRole} {name : String} {n : Nat} {c : Command}
  {around : OpenBlocks} {before first : List Stmt} {test : Expr} {done : List (Expr × List Stmt)}

/-- A meaning belongs to the code of its name. -/
theorem code_of_firstNamed {α : Type} {meanings : List (String × Option α)} {m : α}
    (h : d.firstNamed code meanings = .ok (some m)) :
    ∃ name n, (name, some m) ∈ meanings ∧ d.commands.code name = .ok n ∧ code = n := by
  induction meanings with
  | nil => cases h
  | cons first rest ih =>
    obtain ⟨name, meaning⟩ := first
    obtain ⟨own, hown, h₁⟩ := of_bind h
    have hrest (h : d.firstNamed code rest = .ok (some m)) :
        ∃ name' n, (name', some m) ∈ (name, meaning) :: rest ∧ d.commands.code name' = .ok n ∧
          code = n := by
      obtain ⟨name', n, hmem, hcode⟩ := ih h
      exact ⟨name', n, mem_cons_of_mem _ hmem, hcode⟩
    cases meaning with
    | none => exact hrest h₁
    | some m' =>
      dsimp only at h₁
      split at h₁
      · next heq =>
        cases h₁
        exact ⟨name, own, by simp, hown, (eq_of_beq heq).symm⟩
      · exact hrest h₁

variable {x : LabelledCommand}

theorem HasRole.code_eq (h : d.HasRole x role) (hname : (name, some role) ∈ BlockRole.names)
    (hn : d.commands.code name = .ok n) : x.code = n := by
  obtain ⟨name', n', hmem, hn', hcode⟩ := code_of_firstNamed h
  have hsame : name' = name := by
    cases role <;> simp [BlockRole.names] at hname hmem <;> rw [hname, hmem]
  subst hsame
  cases hn'.symm.trans hn
  exact hcode

/-- A statement names the command with a code. -/
def NamesCommand (d : Decompiler) (line : Stmt) (code : Int) : Prop :=
  ∃ info, d.command code = .ok info ∧ line.commandName? = some info.name

theorem namesCommand_of_code (hn : d.commands.code name = .ok n) {line : Stmt}
    (hline : line.commandName? = some name) (hcode : code = n) : d.NamesCommand line code := by
  obtain ⟨info, hinfo, hname⟩ := CommandTable.code_eq_ok hn
  refine ⟨info, orFault_eq_ok.mpr ?_, by rw [hline, hname]⟩
  rw [hcode, itemAt?_natCast, hinfo]

theorem namesCommand_of_roleStatement (hrole : d.HasRole x role)
    (hplain : role ∈ [.evaluate, .text, .textEnd]) (h : d.roleStatement s x.command role = .ok s') :
    ∃ line, d.NamesCommand line x.code ∧ Filled [line] ∧ s'.blocks = s.blocks.add [line] := by
  obtain ⟨name, n, hmem, hn, hcode⟩ := code_of_firstNamed hrole
  simp only [mem_cons, not_mem_nil, or_false] at hplain
  rcases hplain with rfl | rfl | rfl <;> simp [BlockRole.names] at hmem <;> subst hmem
  · obtain ⟨code, -, h₁⟩ := of_bind h
    obtain ⟨e, -, h₂⟩ := of_bind h₁
    cases h₂
    exact ⟨_, namesCommand_of_code hn rfl hcode, filled_of_simple (by simp [Stmt.bodies]), rfl⟩
  · obtain ⟨content, -, h₁⟩ := of_bind h
    cases h₁
    exact ⟨_, namesCommand_of_code hn rfl hcode, filled_of_simple (by simp [Stmt.bodies]), rfl⟩
  · obtain ⟨value, -, h₁⟩ := of_bind h
    cases h₁
    exact ⟨_, namesCommand_of_code hn rfl hcode, filled_of_simple (by simp [Stmt.bodies]), rfl⟩

theorem namesCommand_of_storeStatement (h : d.storeStatement s c = .ok s') :
    ∃ line, d.NamesCommand line c.code ∧ Filled [line] ∧ s'.blocks = s.blocks.add [line] := by
  obtain ⟨store, -, h₁⟩ := of_bind h
  obtain ⟨info, hinfo, h₂⟩ := of_bind h₁
  obtain ⟨locals, -, h₃⟩ := of_bind h₂
  obtain ⟨target, -, h₄⟩ := of_bind h₃
  obtain ⟨value, -, h₅⟩ := of_bind h₄
  obtain ⟨own, hown, h₆⟩ := of_bind h₅
  split at h₆
  · next heq =>
    obtain ⟨written, hwritten, h₇⟩ := of_bind h₆
    have hnames {line : Stmt} (hline : line.commandName? = some "LET") :
        d.NamesCommand line c.code := namesCommand_of_code hown hline (eq_of_beq heq).symm
    split at h₇
    · cases h₇
      refine ⟨_, hnames ?_, filled_of_simple (by simp [Stmt.bodies]), rfl⟩
      unfold storeTarget at hwritten
      split at hwritten <;> cases hwritten <;> rfl
    · cases h₇
      exact ⟨_, hnames rfl, filled_of_simple (by simp [Stmt.bodies]), rfl⟩
  · obtain ⟨omitted, -, h₇⟩ := of_bind h₆
    split at h₇
    · cases h₇
      exact ⟨_, ⟨info, hinfo, rfl⟩, filled_of_simple (by simp [Stmt.bodies]), rfl⟩
    · cases h₇
      exact ⟨_, ⟨info, hinfo, rfl⟩, filled_of_simple (by simp [Stmt.bodies]), rfl⟩

theorem namesCommand_of_callStatement (h : d.callStatement s c = .ok s') :
    ∃ line, d.NamesCommand line c.code ∧ Filled [line] ∧ s'.blocks = s.blocks.add [line] := by
  obtain ⟨info, hinfo, h₁⟩ := of_bind h
  obtain ⟨arguments, -, h₂⟩ := of_bind h₁
  dsimp only at h₂
  split at h₂
  · cases h₂
    exact ⟨_, ⟨info, hinfo, rfl⟩, filled_of_simple (by simp [Stmt.bodies]), rfl⟩
  · next hbody =>
    cases h₂
    refine ⟨_, ⟨info, hinfo, rfl⟩, filled_cons.mpr ⟨?_, filled_nil⟩, rfl⟩
    refine forall_mem_cons.mpr ⟨by simpa using hbody, filled_of_simple fun line hline => ?_⟩
    obtain ⟨⟨k, e, assignment⟩, -, hsome⟩ := mem_filterMap.mp hline
    split at hsome <;> cases hsome
    rfl

/-- A command that is no part of blocks is shown as a statement that names it. -/
theorem namesCommand_of_afterLabels
    (hx : ∀ role, d.HasRole x role → role ∈ [.evaluate, .text, .textEnd])
    (h : d.afterLabels s x = .ok s') :
    ∃ line, d.NamesCommand line x.code ∧ Filled [line] ∧
      s'.blocks = s.blocks.add (x.labelling ++ [line]) := by
  simp only [← OpenBlocks.add_add]
  obtain ⟨found, hfound, h₁⟩ := of_bind h
  cases found with
  | some role => exact namesCommand_of_roleStatement hfound (hx role hfound) h₁
  | none =>
    obtain ⟨stores, -, h₂⟩ := of_bind h₁
    cases stores with
    | true => exact namesCommand_of_storeStatement h₂
    | false => exact namesCommand_of_callStatement h₂

/-- A plain command is shown as a statement that gives its code. -/
theorem gives_of_plain (hnames : (d.commands.commands.map CommandInfo.name).Nodup)
    (hx : d.IsPlain x) (h : d.afterLabels s x = .ok s') :
    ∃ line, d.commands.Gives line x.code ∧ s'.blocks = s.blocks.add (x.labelling ++ [line]) := by
  obtain ⟨line, ⟨info, hinfo, hline⟩, -, hs⟩ := namesCommand_of_afterLabels hx.role h
  obtain ⟨n, hn⟩ := Int.eq_ofNat_of_zero_le hx.nonneg
  rw [hn, command, orFault_eq_ok, itemAt?_natCast] at hinfo
  exact ⟨line, ⟨info.name, n, hline, CommandTable.code_of_getElem? hnames hinfo, hn⟩, hs⟩

/-! ## Commands of blocks -/

/-- What a command that opens, divides or closes a block does to what is open. -/
inductive Moves (c : Command) : BlockRole → Nest → Nest → Prop
  | condition (n : Nest) (test : Expr) : Moves c .condition n (.condition n [] test [])
  | elseIf {around : Nest} {done : List (Expr × List Stmt)} {test next : Expr} {body : List Stmt}
      (hcount : c.arguments.length = 3) :
      Moves c .otherwise (.condition around done test body)
        (.condition around (done ++ [(test, orPass body)]) next [])
  | otherwise {around : Nest} {done : List (Expr × List Stmt)} {test : Expr} {body : List Stmt}
      (hcount : c.arguments.length ≠ 3) :
      Moves c .otherwise (.condition around done test body)
        (.otherwise around (done ++ [(test, orPass body)]) (by simp) [])
  | closeCondition {around : Nest} {done : List (Expr × List Stmt)} {test : Expr}
      {body : List Stmt} :
      Moves c .closeChain (.condition around done test body)
        (around.add (chainOf (done ++ [(test, orPass body)]) []))
  | closeOtherwise {around : Nest} {done : List (Expr × List Stmt)} {hdone : done ≠ []}
      {body : List Stmt} :
      Moves c .closeChain (.otherwise around done hdone body)
        (around.add (chainOf done (orPass body)))
  | blend (n : Nest) : Moves c .blend n n
  | loop (n : Nest) (test : Expr) : Moves c .loop n (.loop n test [])
  | closeLoop {around : Nest} {test : Expr} {body : List Stmt} :
      Moves c .closeLoop (.loop around test body)
        (around.add [.loop 0 test (orPass body) []])

variable {n : Nest}

theorem moves_of_roleStatement (hrole : role ∉ [.evaluate, .text, .textEnd])
    (hs : s.blocks = n.blocks) (h : d.roleStatement s c role = .ok s') :
    ∃ n', Moves c role n n' ∧ s'.blocks = n'.blocks := by
  cases role with
  | condition =>
    obtain ⟨code, -, h₁⟩ := of_bind h
    obtain ⟨test, -, h₂⟩ := of_bind h₁
    cases h₂
    exact ⟨_, .condition n test, by rw [Nest.blocks_condition_nil, ← hs]⟩
  | otherwise =>
    by_cases hcount : c.arguments.length = 3
    · rw [roleStatement, if_pos hcount] at h
      obtain ⟨_, -, h₁⟩ := of_bind h
      obtain ⟨code, -, h₂⟩ := of_bind h₁
      obtain ⟨test, -, h₃⟩ := of_bind h₂
      obtain ⟨blocks, hblocks, h₄⟩ := of_bind h₃
      cases h₄
      obtain ⟨_, _, _, _, rfl, hb⟩ := Nest.elseIf_eq_ok (hs ▸ hblocks)
      exact ⟨_, .elseIf hcount, hb⟩
    · rw [roleStatement, if_neg hcount] at h
      obtain ⟨_, -, h₁⟩ := of_bind h
      obtain ⟨_, -, h₂⟩ := of_bind h₁
      obtain ⟨blocks, hblocks, h₃⟩ := of_bind h₂
      cases h₃
      obtain ⟨_, _, _, _, rfl, hb⟩ := Nest.otherwise_eq_ok (hs ▸ hblocks)
      exact ⟨_, .otherwise hcount, hb⟩
  | closeChain =>
    obtain ⟨_, -, h₁⟩ := of_bind h
    obtain ⟨blocks, hblocks, h₂⟩ := of_bind h₁
    cases h₂
    rcases Nest.closeChain_eq_ok (hs ▸ hblocks) with
      ⟨_, _, _, _, rfl, hb⟩ | ⟨_, _, _, _, rfl, hb⟩
    · exact ⟨_, .closeCondition, hb⟩
    · exact ⟨_, .closeOtherwise, hb⟩
  | blend =>
    obtain ⟨_, -, h₁⟩ := of_bind h
    obtain ⟨_, -, h₂⟩ := of_bind h₁
    cases h₂
    exact ⟨_, .blend n, hs⟩
  | loop =>
    obtain ⟨code, -, h₁⟩ := of_bind h
    obtain ⟨test, -, h₂⟩ := of_bind h₁
    cases h₂
    exact ⟨_, .loop n test, congrArg (fun b => b.openLoop test) hs⟩
  | closeLoop =>
    obtain ⟨_, -, h₁⟩ := of_bind h
    obtain ⟨blocks, hblocks, h₂⟩ := of_bind h₁
    cases h₂
    obtain ⟨_, _, _, rfl, hb⟩ := Nest.closeInnerLoop_eq_ok (hs ▸ hblocks)
    exact ⟨_, .closeLoop, hb⟩
  | evaluate | text | textEnd => exact absurd (by decide) hrole

/-- Any other command moves between blocks. -/
theorem moves_of_afterLabels (hx : d.HasRole x role) (hrole : role ∉ [.evaluate, .text, .textEnd])
    (hs : s.blocks = n.blocks) (h : d.afterLabels s x = .ok s') :
    ∃ n', Moves x.command role (n.add x.labelling) n' ∧ s'.blocks = n'.blocks := by
  obtain ⟨found, hfound, h₁⟩ := of_bind h
  cases hx.symm.trans hfound
  exact moves_of_roleStatement hrole (by rw [Nest.blocks_add, ← hs]) h₁

/-- The role of the command with a code. -/
def roleOf (d : Decompiler) (code : Int) : Option BlockRole :=
  (d.firstNamed code BlockRole.names).toOption.join

theorem afterLabels_cases (hs : s.blocks = n.blocks) (h : d.afterLabels s x = .ok s') :
    ∃ n', s'.blocks = n'.blocks ∧
      ((∀ role, d.roleOf x.code = some role → role ∈ [.evaluate, .text, .textEnd]) ∧
          (∃ line, d.NamesCommand line x.code ∧ Filled [line] ∧
            n' = n.add (x.labelling ++ [line])) ∨
        ∃ role, d.roleOf x.code = some role ∧ Moves x.command role (n.add x.labelling) n') := by
  obtain ⟨found, hfound, -⟩ := of_bind h
  have hrole : d.roleOf x.code = found := by
    rw [roleOf, show d.firstNamed x.code _ = _ from hfound]
    rfl
  by_cases hplain : ∀ role, d.HasRole x role → role ∈ [.evaluate, .text, .textEnd]
  · obtain ⟨line, hline, hfilled, hs'⟩ := namesCommand_of_afterLabels hplain h
    rw [hs, ← Nest.blocks_add] at hs'
    refine ⟨_, hs', .inl ⟨fun role hsome => hplain role ?_, line, hline, hfilled, rfl⟩⟩
    exact hfound.trans (congrArg _ (hrole.symm.trans hsome))
  · obtain ⟨role, hnot⟩ := not_forall.mp hplain
    obtain ⟨hhas, hnot⟩ := Classical.not_imp.mp hnot
    cases Except.ok.inj (hfound.symm.trans hhas)
    obtain ⟨n', hmoves, hs'⟩ := moves_of_afterLabels hhas hnot hs h
    exact ⟨n', hs', .inr ⟨role, hrole, hmoves⟩⟩

/-! ## Statements of a layout -/

mutual

/-- Statements are those of a layout. -/
inductive Rebuilt (d : Decompiler) : Layout → List Stmt → Prop
  | nil : Rebuilt d .nil []
  | plain {x : LabelledCommand} {line : Stmt} {rest : Layout} {others : List Stmt}
      (hline : d.commands.Gives line x.code) (hrest : Rebuilt d rest others) :
      Rebuilt d (.plain x rest) (x.labelling ++ line :: others)
  | chain {opening : LabelledCommand} {test : Expr} {body rest : Layout} {branches : Branches}
      {first elseBody others : List Stmt} (hopening : d.HasRole opening .condition)
      (hbody : Rebuilt d body first) (hbranches : RebuiltBranches d branches elseBody)
      (hrest : Rebuilt d rest others) :
      Rebuilt d (.chain opening body branches rest) (opening.labelling ++
        .branch 0 test (orPass (first ++ branches.labelling)) elseBody :: others)
  | loop {opening close : LabelledCommand} {test : Expr} {body rest : Layout}
      {inside others : List Stmt} (hopening : d.HasRole opening .loop)
      (hbody : Rebuilt d body inside) (hclose : d.HasRole close .closeLoop)
      (hrest : Rebuilt d rest others) :
      Rebuilt d (.loop opening body close rest) (opening.labelling ++
        .loop 0 test (orPass (inside ++ close.labelling)) [] :: others)

/-- Statements are those of branches, without the labels before these. -/
inductive RebuiltBranches (d : Decompiler) : Branches → List Stmt → Prop
  | close {x : LabelledCommand} (hclose : d.HasRole x .closeChain) : RebuiltBranches d (.close x) []
  | elseIf {blend test : LabelledCommand} {next : Expr} {body : Layout} {rest : Branches}
      {first elseBody : List Stmt} (hblend : d.HasRole blend .blend)
      (htest : d.HasRole test .otherwise) (hbody : Rebuilt d body first)
      (hrest : RebuiltBranches d rest elseBody) :
      RebuiltBranches d (.elseIf blend test body rest)
        [.branch 0 next (orPass (first ++ rest.labelling)) elseBody]
  | otherwise {blend bare close : LabelledCommand} {body : Layout} {last : List Stmt}
      (hblend : d.HasRole blend .blend) (hbare : d.HasRole bare .otherwise)
      (hbody : Rebuilt d body last) (hclose : d.HasRole close .closeChain) :
      RebuiltBranches d (.otherwise blend bare body close) (orPass (last ++ close.labelling))

end

mutual

/-- A layout is rebuilt inside whatever is open. -/
theorem rebuilt_of_nest (hnames : (d.commands.commands.map CommandInfo.name).Nodup)
    {s s' : StatementState} {n : Nest} :
    ∀ {l : Layout}, d.Fits l → s.blocks = n.blocks → l.flatten.foldlM d.afterLabels s = .ok s' →
      ∃ statements, d.Rebuilt l statements ∧ s'.blocks = (n.add statements).blocks
  | .nil, _, hs, h => by
    cases h
    exact ⟨[], .nil, by rw [hs, Nest.add_nil]⟩
  | .plain x rest, ⟨hx, hfits⟩, hs, h => by
    obtain ⟨s₁, hstep, hfold⟩ := of_bind h
    obtain ⟨line, hline, hs₁⟩ := gives_of_plain hnames hx hstep
    rw [hs, ← Nest.blocks_add] at hs₁
    obtain ⟨others, hrest, hs'⟩ := rebuilt_of_nest hnames hfits hs₁ hfold
    exact ⟨_, .plain hline hrest, by simpa using hs'⟩
  -- Each part is folded from the nest that the one before it leaves.
  | .chain opening body branches rest, ⟨hopening, hbodyFits, hbranchesFit, hfits⟩, hs, h => by
    obtain ⟨s₁, hstep, h₁⟩ := of_bind h
    rw [foldlM_append] at h₁
    obtain ⟨s₂, hbodyFold, h₂⟩ := of_bind h₁
    rw [foldlM_append] at h₂
    obtain ⟨s₃, hbranchesFold, hfold⟩ := of_bind h₂
    obtain ⟨_, ⟨_, test⟩, hs₁⟩ := moves_of_afterLabels hopening (by decide) hs hstep
    obtain ⟨first, hbody, hs₂⟩ := rebuilt_of_nest hnames hbodyFits hs₁ hbodyFold
    obtain ⟨elseBody, hbranches, hs₃⟩ :=
      rebuiltBranches_of_nest hnames hbranchesFit hs₂ hbranchesFold
    obtain ⟨others, hrest, hs'⟩ := rebuilt_of_nest hnames hfits hs₃ hfold
    exact ⟨_, .chain hopening hbody hbranches hrest, by simpa [chainOf] using hs'⟩
  | .loop opening body close rest, ⟨hopening, hbodyFits, hclose, hfits⟩, hs, h => by
    obtain ⟨s₁, hstep, h₁⟩ := of_bind h
    rw [foldlM_append] at h₁
    obtain ⟨s₂, hbodyFold, h₂⟩ := of_bind h₁
    obtain ⟨s₃, hlast, hfold⟩ := of_bind h₂
    obtain ⟨_, ⟨_, test⟩, hs₁⟩ := moves_of_afterLabels hopening (by decide) hs hstep
    obtain ⟨inside, hbody, hs₂⟩ := rebuilt_of_nest hnames hbodyFits hs₁ hbodyFold
    obtain ⟨_, ⟨⟩, hs₃⟩ := moves_of_afterLabels hclose (by decide) hs₂ hlast
    obtain ⟨others, hrest, hs'⟩ := rebuilt_of_nest hnames hfits hs₃ hfold
    exact ⟨_, .loop hopening hbody hclose hrest, by simpa using hs'⟩

theorem rebuiltBranches_of_nest (hnames : (d.commands.commands.map CommandInfo.name).Nodup)
    {s s' : StatementState} {around : Nest} {done : List (Expr × List Stmt)} {test : Expr}
    {first : List Stmt} : ∀ {b : Branches}, d.FitsBranches b →
      s.blocks = (Nest.condition around done test first).blocks →
      b.flatten.foldlM d.afterLabels s = .ok s' →
      ∃ elseBody, d.RebuiltBranches b elseBody ∧ s'.blocks =
        (around.add (chainOf (done ++ [(test, orPass (first ++ b.labelling))]) elseBody)).blocks
  | .close x, hx, hs, h => by
    obtain ⟨s₁, hstep, h₁⟩ := of_bind h
    cases h₁
    obtain ⟨_, ⟨⟩, hs'⟩ := moves_of_afterLabels hx (by decide) hs hstep
    exact ⟨[], .close hx, hs'⟩
  | .elseIf blend next body rest, ⟨hblend, hnext, hcount, hbodyFits, hfits⟩, hs, h => by
    obtain ⟨s₁, hblendStep, h₁⟩ := of_bind h
    obtain ⟨s₂, hstep, h₂⟩ := of_bind h₁
    rw [foldlM_append] at h₂
    obtain ⟨s₃, hbodyFold, hfold⟩ := of_bind h₂
    obtain ⟨_, ⟨⟩, hs₁⟩ := moves_of_afterLabels hblend (by decide) hs hblendStep
    obtain ⟨_, hmoves, hs₂⟩ := moves_of_afterLabels hnext (by decide) hs₁ hstep
    -- A condition has a test, a last branch has none.
    cases hmoves with
    | otherwise hother => exact absurd hcount hother
    | elseIf =>
      obtain ⟨inner, hbody, hs₃⟩ := rebuilt_of_nest hnames hbodyFits hs₂ hbodyFold
      obtain ⟨elseBody, hrest, hs'⟩ := rebuiltBranches_of_nest hnames hfits hs₃ hfold
      rw [append_assoc first, chainOf_append] at hs'
      exact ⟨_, .elseIf hblend hnext hbody hrest, hs'⟩
  | .otherwise blend bare body close, ⟨hblend, hbare, hcount, hbodyFits, hclose⟩, hs, h => by
    obtain ⟨s₁, hblendStep, h₁⟩ := of_bind h
    obtain ⟨s₂, hstep, h₂⟩ := of_bind h₁
    rw [foldlM_append] at h₂
    obtain ⟨s₃, hbodyFold, h₃⟩ := of_bind h₂
    obtain ⟨s₄, hlast, h₄⟩ := of_bind h₃
    cases h₄
    obtain ⟨_, ⟨⟩, hs₁⟩ := moves_of_afterLabels hblend (by decide) hs hblendStep
    obtain ⟨_, hmoves, hs₂⟩ := moves_of_afterLabels hbare (by decide) hs₁ hstep
    cases hmoves with
    | elseIf hother => simp [hcount] at hother
    | otherwise =>
      obtain ⟨last, hbody, hs₃⟩ := rebuilt_of_nest hnames hbodyFits hs₂ hbodyFold
      obtain ⟨_, ⟨⟩, hs'⟩ := moves_of_afterLabels hclose (by decide) hs₃ hlast
      rw [append_assoc first] at hs'
      exact ⟨_, .otherwise hblend hbare hbody hclose, hs'⟩

end

/-- A layout that fits is rebuilt from its commands. -/
theorem rebuilt_of_foldlM (hnames : (d.commands.commands.map CommandInfo.name).Nodup) {l : Layout}
    {before : List Stmt} (hfits : d.Fits l) (hs : s.blocks = ({} : OpenBlocks).add before)
    (h : l.flatten.foldlM d.afterLabels s = .ok s') :
    ∃ statements, d.Rebuilt l statements ∧
      s'.blocks = ({} : OpenBlocks).add (before ++ statements) := by
  obtain ⟨statements, hrebuilt, hs'⟩ := rebuilt_of_nest (n := .script before) hnames hfits hs h
  exact ⟨statements, hrebuilt, hs'⟩

end Decompiler

end NovelScript
