import NovelScript.Proofs.Assembly.Parts
import NovelScript.Proofs.Compile.Symbols
import NovelScript.Proofs.Decompile.Commands

/-!
# Which statements have a command of their own

Every statement that is compiled has a command of its own, apart from those that only name a place,
choose a codec or do nothing; the other commands divide and close blocks. But one list of statements
is never compiled: what a loop has to do when its condition fails. So a script has a command for
each of its statements if and only if nothing stands there (`ownParts_of_compileScript`).
-/

namespace NovelScript

open List Compiling Draft

variable {names : List String} {xs ys : List (Bool × Stmt)} {name : String} {code line : Nat}
  {command : Draft.Command} {target : Expr} {options : CompileOptions} {vocabulary : Vocabulary}
  {source : List Stmt} {compiled : CompiledScript}

/-! ## Statements -/

/-- The commands that only divide or close a block. -/
def dividerNames : List String := ["IFBLEND", "ELSE", "IFEND", "LOOPEND"]

/-- Whether a statement needs no command: it does nothing, names a place or chooses a codec. -/
def Stmt.isSilent : Stmt → Bool
  | .pass _ | .assign _ [.name "LBL"] _ | .assign _ [.name "ENC"] _ => true
  | _ => false

/-- Whether a statement has blocks. -/
def Stmt.isBlock : Stmt → Bool
  | .branch .. | .loop .. => true
  | _ => false

/-- The name of the command that a statement has for itself. -/
def Stmt.ownName : Stmt → String
  | .branch .. => "IF"
  | .loop .. => "LOOP"
  | .expression _ (.const _) => "WORD"
  | .expression _ (.yield _) => "RETURNCODE"
  | .expression _ (.call (.name name) _ _) => name
  | .expression _ (.subscript (.name name) _) => name
  | .context _ [(.call (.name name) _ _, _)] _ => name
  | .assign _ [.subscript (.name name) _] _ => name
  | _ => "LET"

/-- The command that a statement calls by its name. -/
def Stmt.called? : Stmt → Option String
  | .expression _ (.call (.name name) _ _) => some name
  | .context _ [(.call (.name name) _ _, _)] _ => some name
  | _ => none

mutual

/-- The statements in a statement that need a command of their own, in order, each with whether it
can be reached: all can, but for those that a loop has for the failure of its condition. -/
def Stmt.owners (reached : Bool) : Stmt → List (Bool × Stmt)
  | .branch line test body elseBody =>
    (reached, .branch line test body elseBody) ::
      (ownersIn reached body ++ chainOwners reached elseBody)
  | .loop line test body elseBody =>
    (reached, .loop line test body elseBody) ::
      (ownersIn reached body ++ ownersIn false elseBody)
  | s => if s.isSilent then [] else [(reached, s)]

/-- The statements with a command of their own in a list of statements. -/
def ownersIn (reached : Bool) : List Stmt → List (Bool × Stmt)
  | [] => []
  | s :: rest => s.owners reached ++ ownersIn reached rest

/-- The statements with a command of their own in what follows the body of a condition. A further
condition belongs to the statement that the chain starts with. -/
def chainOwners (reached : Bool) : List Stmt → List (Bool × Stmt)
  | [] => []
  | [.branch _ _ body elseBody] => ownersIn reached body ++ chainOwners reached elseBody
  | s :: rest => s.owners reached ++ ownersIn reached rest

end

theorem Stmt.owners_of_silent {s : Stmt} (h : s.isSilent = true) (reached : Bool) :
    s.owners reached = [] := by
  cases s with
  | branch | loop => cases h
  | _ => rw [owners, if_pos h] <;> exact fun _ _ _ _ h => by cases h

theorem Stmt.owners_of_own {s : Stmt} (hblock : s.isBlock = false) (hsilent : s.isSilent = false)
    (reached : Bool) : s.owners reached = [(reached, s)] := by
  cases s with
  | branch | loop => cases hblock
  | _ => rw [owners, if_neg (by simp [hsilent])] <;> exact fun _ _ _ _ h => by cases h

/-- The statements that are reached. -/
def reachedOf (owners : List (Bool × Stmt)) : List Stmt := (owners.filter Prod.fst).map Prod.snd

/-- No statement calls a command of some names. -/
def CallsNone (names : List String) (owners : List (Bool × Stmt)) : Prop :=
  ∀ x ∈ owners, ∀ name ∈ x.2.called?, name ∉ names

instance (names : List String) (owners : List (Bool × Stmt)) : Decidable (CallsNone names owners) :=
  inferInstanceAs (Decidable (∀ x ∈ owners, ∀ name ∈ x.2.called?, name ∉ names))

theorem CallsNone.append (h : CallsNone names (xs ++ ys)) :
    CallsNone names xs ∧ CallsNone names ys :=
  forall_mem_append.mp h

theorem CallsNone.tail {x : Bool × Stmt} (h : CallsNone names (x :: xs)) : CallsNone names xs :=
  (forall_mem_cons.mp h).2

theorem reachedOf_append (xs ys : List (Bool × Stmt)) :
    reachedOf (xs ++ ys) = reachedOf xs ++ reachedOf ys := by
  rw [reachedOf, filter_append, map_append]
  rfl

/-- A last branch that is no single condition is a list of statements. -/
theorem chainOwners_of_ne {s : Stmt} {rest : List Stmt} (reached : Bool)
    (hne : ∀ line test body elseBody, s :: rest ≠ [.branch line test body elseBody]) :
    chainOwners reached (s :: rest) = ownersIn reached (s :: rest) := by
  refine chainOwners.eq_3 _ _ _ fun line test body elseBody hs hrest => ?_
  exact hne line test body elseBody (by rw [hs, hrest])

theorem owners_branch (line : Nat) (test : Expr) (body elseBody : List Stmt) (reached : Bool) :
    (Stmt.branch line test body elseBody).owners reached =
      [(reached, .branch line test body elseBody)] ++ ownersIn reached body ++
        chainOwners reached elseBody ++ [] := by
  simp [Stmt.owners]

theorem owners_loop (line : Nat) (test : Expr) (body elseBody : List Stmt) (reached : Bool) :
    (Stmt.loop line test body elseBody).owners reached =
      [(reached, .loop line test body elseBody)] ++ ownersIn reached body ++
        ownersIn false elseBody := by
  simp [Stmt.owners]

/-- Nothing is reached inside what is not. -/
theorem unreached_all :
    (∀ reached (s : Stmt), reached = false → ∀ x ∈ s.owners reached, x.1 = false) ∧
    (∀ reached statements, reached = false → ∀ x ∈ chainOwners reached statements, x.1 = false) ∧
    (∀ reached statements, reached = false → ∀ x ∈ ownersIn reached statements, x.1 = false) := by
  refine Stmt.owners.mutual_induct _ _ _ ?branch ?loop ?silent ?simple ?chainNil ?elseIf ?otherwise
    ?nil ?cons
  case branch =>
    intro reached line test body elseBody ihbody ihchain h x hx
    rcases mem_cons.mp hx with rfl | hx
    · exact h
    · exact (mem_append.mp hx).elim (ihbody h x) (ihchain h x)
  case loop =>
    intro reached line test body elseBody ihbody ihelse h x hx
    rcases mem_cons.mp hx with rfl | hx
    · exact h
    · exact (mem_append.mp hx).elim (ihbody h x) (ihelse rfl x)
  case silent =>
    intro reached s hbranch hloop hsilent h x hx
    rw [Stmt.owners.eq_3 _ _ hbranch hloop, if_pos hsilent] at hx
    cases hx
  case simple =>
    intro reached s hbranch hloop hsilent h x hx
    rw [Stmt.owners.eq_3 _ _ hbranch hloop, if_neg hsilent] at hx
    rwa [mem_singleton.mp hx]
  case chainNil => exact fun _ _ _ hx => by cases hx
  case elseIf =>
    intro reached line test body elseBody ihbody ihchain h x hx
    exact (mem_append.mp hx).elim (ihbody h x) (ihchain h x)
  case otherwise =>
    intro reached s rest hne ihs ihrest h x hx
    rw [chainOwners_of_ne _ fun _ _ _ _ h => by cases h; exact hne _ _ _ _ rfl rfl] at hx
    exact (mem_append.mp hx).elim (ihs h x) (ihrest h x)
  case nil => exact fun _ _ _ hx => by cases hx
  case cons =>
    intro reached s rest ihs ihrest h x hx
    exact (mem_append.mp hx).elim (ihs h x) (ihrest h x)

theorem reachedOf_ownersIn_false (statements : List Stmt) :
    reachedOf (ownersIn false statements) = [] := by
  rw [reachedOf, filter_eq_nil_iff.mpr, map_nil]
  intro x hx
  rw [unreached_all.2.2 false statements rfl x hx]
  decide

/-! ## Commands -/

/-- The name of the command with a code. -/
def Vocabulary.nameOf? (v : Vocabulary) (code : Nat) : Option String :=
  v.commands[code]?.map CommandInfo.name

/-- Whether the command with a code only divides or closes a block. -/
def Vocabulary.isDivider (v : Vocabulary) (code : Nat) : Bool :=
  (v.nameOf? code).any dividerNames.contains

variable {version : Int} {c : CompileContext} {depth : Depth} {p p' : Progress} {s : Stmt}
  {commands : List Draft.Command}

/-- A code that is found by a name has that name. -/
theorem CompileContext.HasCode.nameOf? (h : c.HasCode name code) :
    c.vocabulary.nameOf? code = some name := by
  obtain ⟨info, hinfo⟩ := h
  let table : CommandTable := ⟨0, c.vocabulary.commands, [], []⟩
  have htable : table.commands = c.vocabulary.commands := rfl
  obtain ⟨-, hget, hname⟩ := CommandTable.code_of_command? htable hinfo
  rw [Vocabulary.nameOf?, hget, Option.map_some, hname]

theorem CompileContext.HasCode.isDivider (h : c.HasCode name code) :
    c.vocabulary.isDivider code = dividerNames.contains name := by
  rw [Vocabulary.isDivider, h.nameOf?]
  rfl

/-- A command that is kept, with a name and a line. -/
structure Draft.Command.IsNamed (c : CompileContext) (name : String) (line : Nat)
    (command : Draft.Command) : Prop where
  code : ∃ code : Nat, c.HasCode name code ∧ command.code = code
  line : command.line = line
  kept : command.presence = .kept

/-- The commands of a draft that are not left out and do more than divide or close a block. -/
def Draft.ownCommands (version : Int) (v : Vocabulary) (commands : List Draft.Command) :
    List Draft.Command :=
  commands.filter fun command =>
    !command.presence.isLeftOut version && !v.isDivider command.code.toNat

theorem Draft.ownCommands_append (v : Vocabulary) (xs ys : List Draft.Command) :
    ownCommands version v (xs ++ ys) = ownCommands version v xs ++ ownCommands version v ys :=
  filter_append ..

/-- A command is an own one unless it only divides or closes. -/
theorem Draft.Command.IsNamed.ownCommands (h : command.IsNamed c name line) :
    Draft.ownCommands version c.vocabulary [command] =
      if name ∈ dividerNames then [] else [command] := by
  obtain ⟨code, hcode, heq⟩ := h.code
  rw [Draft.ownCommands, filter_singleton, heq, Int.toNat_natCast, hcode.isDivider, h.kept]
  by_cases hname : name ∈ dividerNames <;> simp [hname, Draft.Presence.isLeftOut]

/-- The names of the commands that open, divide and close blocks. -/
def blockNames : List String := ["IF", "ELSE", "IFBLEND", "IFEND", "LOOP", "LOOPEND"]

theorem notMem_blockNames_of_ofName? {d : DeclarationCommand}
    (h : DeclarationCommand.ofName? name = some d) : name ∉ blockNames := by
  intro hmem
  have hall : ∀ x ∈ blockNames, x ∈ "LET" :: BlockRole.names.map Prod.fst := by decide
  exact Decompiler.notMem_of_ofName? h (hall name hmem)

/-- A call becomes a command of its name and line. -/
theorem isNamed_keywordCommand {given : List (Option String × Draft.Argument)}
    (h : keywordCommand c line name given p = .ok (commands, p')) :
    ∃ command, commands = [command] ∧ command.IsNamed c name line := by
  obtain ⟨info, code, arguments, parameters, hinfo, -, rfl, -⟩ := keywordCommand_eq_ok h
  exact ⟨_, rfl, ⟨code, ⟨info, hinfo⟩, rfl⟩, rfl, rfl⟩

theorem isNamed_definition {value : Option Expr}
    (h : CompiledDefinition c p line name target value commands p') :
    ∃ command, commands = [command] ∧ command.IsNamed c name line ∧ name ∉ blockNames := by
  cases h with
  | @intro d variableName dims p₁ t w n₂ n₃ code hd htarget hfree hdefined ht hw hcode =>
    exact ⟨_, rfl, ⟨⟨code, hcode, rfl⟩, rfl, rfl⟩, notMem_blockNames_of_ofName? hd⟩

theorem isNamed_store {value : Expr} {op : Option BinaryOp}
    (h : CompiledStore c p line target op value commands p') :
    ∃ command, commands = [command] ∧ command.IsNamed c "LET" line := by
  cases h with
  | @intro t w n₁ n₂ assignment code ht hop hw hcode =>
    exact ⟨_, rfl, ⟨code, hcode, rfl⟩, rfl, rfl⟩

/-- A statement without blocks is compiled to a command of its own, or to a label or nothing. No
such statement opens, divides or closes a block unless it calls a command that does. -/
inductive Stmt.Emits (c : CompileContext) (s : Stmt) : List Draft.Command → Prop
  | silent {commands : List Draft.Command} (hsilent : s.isSilent = true)
      (hlabels : ∀ command ∈ commands, command.presence = .label) : s.Emits c commands
  | own {command : Draft.Command} (hblock : s.isBlock = false) (hsilent : s.isSilent = false)
      (h : command.IsNamed c s.ownName s.line)
      (hname : s.called? = some s.ownName ∨ s.ownName ∉ blockNames) : s.Emits c [command]

/-- What a statement without blocks becomes. -/
theorem CompiledSimple.emits (h : CompiledSimple c depth p s commands p') : s.Emits c commands := by
  cases h with
  | pass => exact .silent rfl fun _ h => by cases h
  | label => exact .silent rfl fun _ h => by rw [mem_singleton.mp h]
  | codec => exact .silent rfl fun _ h => by cases h
  | word hcode =>
    exact .own rfl rfl ⟨⟨_, hcode, rfl⟩, rfl, rfl⟩ (.inr (by decide : "WORD" ∉ blockNames))
  | returnCode _ hcode =>
    exact .own rfl rfl ⟨⟨_, hcode, rfl⟩, rfl, rfl⟩
      (.inr (by decide : "RETURNCODE" ∉ blockNames))
  | evaluate _ hcode =>
    exact .own rfl rfl ⟨⟨_, hcode, rfl⟩, rfl, rfl⟩ (.inr (by decide : "_" ∉ blockNames))
  | call _ hcommand | context _ _ _ _ hcommand =>
    obtain ⟨command, rfl, hnamed⟩ := isNamed_keywordCommand hcommand
    exact .own rfl rfl hnamed (.inl rfl)
  | define h | defineAs h =>
    obtain ⟨command, rfl, hnamed, hname⟩ := isNamed_definition h
    exact .own rfl rfl hnamed (.inr hname)
  | augment h =>
    obtain ⟨command, rfl, hnamed⟩ := isNamed_store h
    exact .own rfl rfl hnamed (.inr (by decide : "LET" ∉ blockNames))
  | store hwritten h =>
    obtain ⟨command, rfl, hnamed⟩ := isNamed_store h
    rcases hwritten with rfl | rfl
    · -- no name and no definition is compiled as an expression
      cases h with
      | intro ht =>
        cases ht <;>
          exact .own rfl rfl hnamed (.inr (by decide : "LET" ∉ blockNames))
    · exact .own rfl rfl hnamed (.inr (by decide : "LET" ∉ blockNames))

/-! ## Blocks -/

/-- The statements that are reached have the commands that do more than divide or close a block. -/
def OwnedBy (version : Int) (c : CompileContext) (owners : List (Bool × Stmt))
    (commands : List Draft.Command) : Prop :=
  Forall₂ (fun (s : Stmt) command => command.IsNamed c s.ownName s.line) (reachedOf owners)
    (Draft.ownCommands version c.vocabulary commands)

theorem OwnedBy.append {first rest : List Draft.Command} (hfirst : OwnedBy version c xs first)
    (hrest : OwnedBy version c ys rest) : OwnedBy version c (xs ++ ys) (first ++ rest) := by
  rw [OwnedBy, reachedOf_append, ownCommands_append]
  exact rel_append hfirst hrest

/-- Dividing commands belong to no statement. -/
theorem ownedBy_divider (h : command.IsNamed c name line) (hname : name ∈ dividerNames)
    (owners : List (Bool × Stmt)) (howners : reachedOf owners = []) :
    OwnedBy version c owners [command] := by
  rw [OwnedBy, howners, h.ownCommands, if_pos hname]
  exact .nil

theorem ownedBy_own (h : command.IsNamed c s.ownName s.line) (hname : s.ownName ∉ dividerNames) :
    OwnedBy version c [(true, s)] [command] := by
  rw [OwnedBy, h.ownCommands, if_neg hname]
  exact .cons h .nil

theorem Stmt.Emits.ownedBy (h : s.Emits c commands)
    (hcalls : CallsNone dividerNames (s.owners true)) :
    OwnedBy version c (s.owners true) commands := by
  cases h with
  | silent hsilent hlabels =>
    rw [Stmt.owners_of_silent hsilent, OwnedBy, Draft.ownCommands, filter_eq_nil_iff.mpr]
    · exact .nil
    · intro command hcommand
      rw [hlabels command hcommand]
      simp [Draft.Presence.isLeftOut]
  | own hblock hsilent h hname =>
    rw [Stmt.owners_of_own hblock hsilent] at hcalls ⊢
    refine ownedBy_own h fun hmem => ?_
    rcases hname with hcalled | hname
    · exact hcalls _ (mem_singleton.mpr rfl) _ hcalled hmem
    · have hall : ∀ x ∈ dividerNames, x ∈ blockNames := by decide
      exact hname (hall _ hmem)

mutual

/-- The own commands of a statement are those of what is reached in it. -/
theorem CompiledStatement.ownedBy {depth : Depth} {s : Stmt} {commands : List Draft.Command} :
    ∀ {p p' : Progress}, CompiledStatement c depth p s commands p' →
      CallsNone dividerNames (s.owners true) → OwnedBy version c (s.owners true) commands
  | _, _, .simple h, hcalls => h.emits.ownedBy hcalls
  | _, _, .branch _ hopen hbody hchain hclose, hcalls => by
    obtain ⟨hbodyCalls, hchainCalls⟩ := hcalls.tail.append
    rw [owners_branch]
    exact (((ownedBy_own (s := .branch ..) ⟨⟨_, hopen, rfl⟩, rfl, rfl⟩
      (by decide : "IF" ∉ dividerNames)).append (hbody.ownedBy hbodyCalls)).append
        (hchain.ownedBy hchainCalls)).append
          (ownedBy_divider ⟨⟨_, hclose, rfl⟩, rfl, rfl⟩ (by decide) _ rfl)
  | _, _, .loop _ hopen hbody hclose, hcalls => by
    rw [owners_loop]
    exact ((ownedBy_own (s := .loop ..) ⟨⟨_, hopen, rfl⟩, rfl, rfl⟩
      (by decide : "LOOP" ∉ dividerNames)).append (hbody.ownedBy hcalls.tail.append.1)).append
        (ownedBy_divider ⟨⟨_, hclose, rfl⟩, rfl, rfl⟩ (by decide) _ (reachedOf_ownersIn_false _))

theorem CompiledStatements.ownedBy {depth : Depth} {body : List Stmt}
    {commands : List Draft.Command} :
    ∀ {p p' : Progress}, CompiledStatements c depth p body commands p' →
      CallsNone dividerNames (ownersIn true body) → OwnedBy version c (ownersIn true body) commands
  | _, _, .nil, _ => .nil
  | _, _, .cons h hrest, hcalls =>
    (h.ownedBy hcalls.append.1).append (hrest.ownedBy hcalls.append.2)

theorem CompiledChain.ownedBy {depth : Depth} {elseBody : List Stmt} {next : Option Nat}
    {commands : List Draft.Command} :
    ∀ {p p' : Progress}, CompiledChain c depth p elseBody next commands p' →
      CallsNone dividerNames (chainOwners true elseBody) →
        OwnedBy version c (chainOwners true elseBody) commands
  | _, _, .nil, _ => .nil
  | _, _, .elseIf hblend _ hcode hbody hchain, hcalls =>
    (((ownedBy_divider ⟨⟨_, hblend, rfl⟩, rfl, rfl⟩ (by decide) [] rfl).append
      (ownedBy_divider ⟨⟨_, hcode, rfl⟩, rfl, rfl⟩ (by decide) [] rfl)).append
        (hbody.ownedBy hcalls.append.1)).append (hchain.ownedBy hcalls.append.2)
  | _, _, .otherwise hne hblend hcode hbody, hcalls => by
    rw [chainOwners_of_ne _ hne] at hcalls ⊢
    exact ((ownedBy_divider ⟨⟨_, hblend, rfl⟩, rfl, rfl⟩ (by decide) [] rfl).append
      (ownedBy_divider ⟨⟨_, hcode, rfl⟩, rfl, rfl⟩ (by decide) [] rfl)).append
        (hbody.ownedBy hcalls)

end

/-! ## Scripts -/

/-- A compiled script is made of parts: those of the commands that its source comes to and that are
not left out, each with the arguments and expressions that are assembled for it. -/
structure CompiledScript.MadeOf (script : CompiledScript) (options : CompileOptions)
    (vocabulary : Vocabulary) (source : List Stmt) (parts : List Draft.Part) : Prop where
  segments : ∃ header, script.segments = header :: Draft.Part.sections options.version parts
  formed : ∀ x ∈ parts, x.Formed options.version
  written : ∃ commands p a, CompilesTo options vocabulary source commands p a script ∧
    Forall₂ (Draft.Placed.WrittenAs options.version (placesOf a.placed))
      (keptOf options.version a.placed) parts

/-- A compiled script is made of the parts of its assembly. -/
theorem parts_of_compileScript {a : Draft.Assembly}
    (h : CompilesTo options vocabulary source commands p a compiled) :
    ∃ parts, compiled.MadeOf options vocabulary source parts ∧
      Forall₂ (Draft.Placed.WrittenAs options.version (placesOf a.placed))
        (keptOf options.version a.placed) parts := by
  obtain ⟨parts, hsections, hwritten⟩ := parts_of_assemble h.assembly
  refine ⟨parts, ⟨⟨a.header, ?_⟩, fun x hx => ?_, commands, p, a, h, hwritten⟩, hwritten⟩
  · rw [h.segments, Draft.Assembly.segments, hsections]
  · obtain ⟨q, -, hq⟩ := exists_of_mem_forall₂_right hwritten hx
    exact hq.formed

/-- The parts of the commands that do more than divide or close a block. -/
def ownParts (v : Vocabulary) (parts : List Draft.Part) : List Draft.Part :=
  parts.filter fun x => !v.isDivider x.code

/-- A statement has the name and the line of a command of a script. -/
def Stmt.Owns (v : Vocabulary) (s : Stmt) (x : Draft.Part) : Prop :=
  v.nameOf? x.code = some s.ownName ∧ x.lineNumber = s.line

theorem OwnedBy.ownParts {owners : List (Bool × Stmt)} {placed : List Draft.Placed}
    {places : Array Draft.Place} {parts : List Draft.Part}
    (h : OwnedBy version c owners (placed.map Draft.Placed.command))
    (hparts : Forall₂ (Draft.Placed.WrittenAs version places) (keptOf version placed) parts) :
    Forall₂ (Stmt.Owns c.vocabulary) (reachedOf owners) (ownParts c.vocabulary parts) := by
  have hown : Draft.ownCommands version c.vocabulary (placed.map Draft.Placed.command) =
      ((keptOf version placed).filter fun q =>
        !c.vocabulary.isDivider q.command.code.toNat).map Draft.Placed.command := by
    rw [Draft.ownCommands, filter_map, keptOf, filter_filter]
    congr 2
    funext q
    exact Bool.and_comm _ _
  rw [OwnedBy, hown, forall₂_map_right_iff] at h
  have hcode {q : Draft.Placed} {x : Draft.Part} (hq : q.WrittenAs version places x) :
      q.command.code.toNat = x.code := by
    rw [← hq.code, Int.toNat_natCast]
  refine (forall₂_comp h (rel_filter (fun q x hq => ?_) hparts)).imp ?_
  · show (!c.vocabulary.isDivider q.command.code.toNat) = true ↔ _
    rw [hcode hq]
  · rintro s x ⟨q, hq, hx⟩
    obtain ⟨code, hname, heq⟩ := hq.code
    refine ⟨?_, Int.ofNat.inj (hx.line.trans hq.line)⟩
    rw [← hcode hx, heq, Int.toNat_natCast]
    exact hname.nameOf?

/-- The statements that are reached own the parts that do more than divide. -/
theorem exists_ownParts (hcalls : CallsNone dividerNames (ownersIn true source))
    (h : compileScript options vocabulary source = .ok compiled) :
    ∃ parts, compiled.MadeOf options vocabulary source parts ∧
      Forall₂ (Stmt.Owns vocabulary) (reachedOf (ownersIn true source))
        (ownParts vocabulary parts) := by
  obtain ⟨commands, p, a, hto⟩ := compilesTo_of_compileScript h
  obtain ⟨parts, hmade, hwritten⟩ := parts_of_compileScript hto
  have howned : OwnedBy options.version _ _ commands :=
    (compiledStatements_of_statements hto.statements).ownedBy hcalls
  rw [← commands_of_assemble hto.assembly] at howned
  exact ⟨parts, hmade, howned.ownParts hwritten⟩

/-- Every statement that is reached has its own command in the script, in order, and a script has no
other commands than these and those that divide or close blocks. So there are as many commands as
statements if and only if every statement is reached: nothing stands under the failure of a loop's
condition. -/
theorem ownParts_of_compileScript {options : CompileOptions} {vocabulary : Vocabulary}
    {source : List Stmt} {compiled : CompiledScript}
    (hcalls : CallsNone dividerNames (ownersIn true source))
    (h : compileScript options vocabulary source = .ok compiled) :
    ∃ parts, compiled.MadeOf options vocabulary source parts ∧
      List.Forall₂ (Stmt.Owns vocabulary) (reachedOf (ownersIn true source))
        (ownParts vocabulary parts) ∧
      (ownParts vocabulary parts).length + (ownersIn true source).countP (!·.1) =
        (ownersIn true source).length ∧
      ((ownParts vocabulary parts).length = (ownersIn true source).length ↔
        ∀ x ∈ ownersIn true source, x.1 = true) := by
  obtain ⟨parts, hmade, howns⟩ := exists_ownParts hcalls h
  have hreached : (ownParts vocabulary parts).length = (ownersIn true source).countP Prod.fst := by
    rw [← howns.length_eq, reachedOf, List.length_map, List.countP_eq_length_filter]
  refine ⟨parts, hmade, howns, ?_, ?_⟩
  · rw [hreached, List.length_eq_countP_add_countP Prod.fst]
    simp
  · rw [hreached, List.countP_eq_length]

/-! ## A loop with statements for the failure of its condition -/

/-- The commands of blocks and one more. -/
def loopVocabulary : Vocabulary :=
  { commands := ("END" :: blockNames).map fun name => ⟨name, []⟩ }

/-- Options of a plain build. -/
def loopOptions : CompileOptions := { version := 480, codec := Codec.ascii }

/-- A statement that ends the script. -/
def endingAt (line : Nat) : Stmt := .expression line (.call (.name "END") [] [])

/-- A condition in a loop, with statements on both of its sides. -/
def conditionInLoop : List Stmt :=
  [.loop 1 (.int 1)
    [.branch 2 (.int 1) [endingAt 3] [.branch 4 (.int 0) [endingAt 5] [endingAt 7]]] []]

theorem ownParts_of_conditionInLoop :
    CallsNone dividerNames (ownersIn true conditionInLoop) ∧
    ∃ compiled, compileScript loopOptions loopVocabulary conditionInLoop = .ok compiled ∧
      ∃ parts, compiled.MadeOf loopOptions loopVocabulary conditionInLoop parts ∧
        (ownParts loopVocabulary parts).length = 5 := by
  have hcalls : CallsNone dividerNames (ownersIn true conditionInLoop) := by decide
  have hsegments : ((compileScript loopOptions loopVocabulary conditionInLoop).map
      fun x => x.segments.length).toOption = some 5 := by decide +kernel
  obtain ⟨compiled, hcompiled, -⟩ := exists_ok_of_map hsegments
  obtain ⟨parts, hmade, -, -, hlength⟩ := ownParts_of_compileScript hcalls hcompiled
  exact ⟨hcalls, compiled, hcompiled, parts, hmade, hlength.mpr (by decide)⟩

/-- A loop with a statement for the failure of its condition is compiled as if it had none. -/
theorem loopElse_dropped :
    CallsNone dividerNames (ownersIn true [.loop 1 (.int 1) [endingAt 2] [endingAt 4]]) ∧
    compileScript loopOptions loopVocabulary [.loop 1 (.int 1) [endingAt 2] [endingAt 4]] =
      compileScript loopOptions loopVocabulary [.loop 1 (.int 1) [endingAt 2] []] ∧
    (ownersIn true [.loop 1 (.int 1) [endingAt 2] [endingAt 4]]).length = 3 ∧
    ∃ compiled, compileScript loopOptions loopVocabulary
        [.loop 1 (.int 1) [endingAt 2] [endingAt 4]] = .ok compiled ∧
      ∃ parts, compiled.MadeOf loopOptions loopVocabulary
          [.loop 1 (.int 1) [endingAt 2] [endingAt 4]] parts ∧
        (ownParts loopVocabulary parts).length = 2 := by
  have hcalls : CallsNone dividerNames
      (ownersIn true [.loop 1 (.int 1) [endingAt 2] [endingAt 4]]) := by decide
  have hsegments : ((compileScript loopOptions loopVocabulary
      [.loop 1 (.int 1) [endingAt 2] [endingAt 4]]).map fun x => x.segments.length).toOption =
        some 5 := by decide +kernel
  obtain ⟨compiled, hcompiled, -⟩ := exists_ok_of_map hsegments
  obtain ⟨parts, hmade, howns⟩ := exists_ownParts hcalls hcompiled
  exact ⟨hcalls, rfl, rfl, compiled, hcompiled, parts, hmade, howns.length_eq.symm⟩

end NovelScript
