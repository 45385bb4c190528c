import NovelScript.Decompile.Statements
import NovelScript.Proofs.Assembly.Commands
import NovelScript.Proofs.Compile.Statement
import NovelScript.Proofs.Decompile.Expression

/-!
# Decompiled commands

One lemma for each kind of command says what the decompiler does with it, in terms of the command of
the draft that it was read from (`ReadBack`). Which kind a command is of depends on its code alone:
the decompiler tries the names that have a meaning of their own one after another, and since
different names have different codes only one of them fits (`firstNamed_of_mem`).
-/

namespace NovelScript

open List Compiling

variable {d : Decompiler} {version : Int} {s : StatementState} {r : NovelScript.Command} {n : Nat}

/-! ## Codes -/

/-- A table with the commands of a vocabulary has their codes. -/
theorem CommandTable.code_of_command? {table : CommandTable} {v : Vocabulary}
    (htable : table.commands = v.commands) {name : String} {info : CommandInfo}
    (h : v.command? name = some (info, n)) :
    table.code name = .ok n ∧ table.commands[n]? = some info ∧ info.name = name := by
  refine ⟨?_, ?_, by simpa using find?_some h⟩
  · rw [code, orFault_eq_ok, code?, htable]
    exact congrArg (Option.map Prod.snd) h
  · have hmem := mem_reverse.mp (mem_of_find?_eq_some h)
    rw [htable]
    exact mem_zipIdx_iff_getElem?.mp hmem

theorem itemAt?_natCast {α : Type} (items : List α) (i : Nat) : itemAt? items i = items[i]? := by
  unfold itemAt? position?
  by_cases h : i < items.length
  · simp [h, show ¬(i : Int) < 0 by omega]
  · simp [h, show ¬(i : Int) < 0 by omega]

namespace Decompiler

variable {α : Type} {name : String} {info : CommandInfo}
variable {meanings : List (String × Option α)}

/-- The decompiler knows the commands that have a meaning of their own. -/
def HasRoles (d : Decompiler) : Prop :=
  ∀ name ∈ "LET" :: BlockRole.names.map Prod.fst, ∃ n, d.commands.code name = .ok n

/-- Commands with a form of their own have a role. -/
theorem forms_subset : ["IF", "ELSE", "LOOP", "WORD", "RETURNCODE"] ⊆
    "LET" :: BlockRole.names.map Prod.fst := by
  decide

theorem HasRoles.forms (h : d.HasRoles) : Draft.HasForms d.commands :=
  fun name hname => h name (forms_subset hname)

section

variable (hall : ∀ name ∈ meanings.map Prod.fst, ∃ n, d.commands.code name = .ok n)
include hall

/-- A code is found by the name that has it. -/
theorem firstNamed_of_mem
    (hnodup : (meanings.map Prod.fst).Nodup) {m : α} (hmem : (name, some m) ∈ meanings)
    (hn : d.commands.code name = .ok n) : d.firstNamed n meanings = .ok (some m) := by
  induction meanings with
  | nil => cases hmem
  | cons first rest ih =>
    obtain ⟨name', meaning⟩ := first
    obtain ⟨own, hown⟩ := hall name' (by simp)
    have hrest : name' ≠ name → d.firstNamed n rest = .ok (some m) := fun hne => by
      refine ih (forall_mem_cons.mp hall).2 (nodup_cons.mp hnodup).2 ?_
      rcases mem_cons.mp hmem with heq | hmem
      · cases heq
        exact absurd rfl hne
      · exact hmem
    rw [firstNamed, hown, ok_bind]
    by_cases hname : name' = name
    · -- the name occurs only once, so this is its meaning
      subst hname
      have hmeaning : meaning = some m := by
        rcases mem_cons.mp hmem with heq | hmem
        · cases heq
          rfl
        · exact absurd (mem_map_of_mem hmem) (nodup_cons.mp hnodup).1
      cases hown.symm.trans hn
      simp [hmeaning]
    · have hne : own ≠ n := fun heq => hname (CommandTable.code_injective hown (heq ▸ hn))
      cases meaning with
      | none => exact hrest hname
      | some m' =>
        simp only [beq_iff_eq, Int.natCast_inj, if_neg hne]
        exact hrest hname

/-- A code whose name has no meaning is told as none. -/
theorem firstNamed_of_notMem (hmem : name ∉ meanings.map Prod.fst)
    (hn : d.commands.code name = .ok n) : d.firstNamed n meanings = .ok none := by
  induction meanings with
  | nil => rfl
  | cons first rest ih =>
    obtain ⟨name', meaning⟩ := first
    obtain ⟨own, hown⟩ := hall name' (by simp)
    simp only [map_cons, mem_cons, not_or] at hmem
    have hne : own ≠ n := fun heq => hmem.1 (CommandTable.code_injective (heq ▸ hn) hown)
    have hrest := ih (forall_mem_cons.mp hall).2 hmem.2
    rw [firstNamed, hown, ok_bind]
    cases meaning with
    | none => exact hrest
    | some m => simpa only [beq_iff_eq, Int.natCast_inj, if_neg hne] using hrest

end

/-! ## Kinds of commands -/

/-- A command with a role is taken by it. -/
theorem statementOf_role (hd : d.HasRoles) (role : BlockRole)
    (hrole : (name, some role) ∈ BlockRole.names) (hn : d.commands.code name = .ok n)
    (hcode : r.code = n) : d.statementOf s r = d.roleStatement s r role := by
  have hnamed := firstNamed_of_mem (forall_mem_cons.mp hd).2
    (by decide) hrole hn
  rw [statementOf, hcode, hnamed]
  rfl

theorem declaration?_eq (hinfo : d.commands.commands[n]? = some info) :
    d.declaration? n = DeclarationCommand.ofName? info.name := by
  simp [declaration?, hinfo]

theorem command_eq_ok (hinfo : d.commands.commands[n]? = some info) : d.command n = .ok info := by
  rw [command, itemAt?_natCast, hinfo]
  rfl

section

variable (hd : d.HasRoles) (hn : d.commands.code info.name = .ok n)
  (hinfo : d.commands.commands[n]? = some info)
include hd hn hinfo

/-- Definitions and assignments are stores. -/
theorem statementOf_store (hrole : info.name ∉ BlockRole.names.map Prod.fst)
    (hstore : info.name = "LET" ∨ (DeclarationCommand.ofName? info.name).isSome)
    (hcode : r.code = n) : d.statementOf s r = d.storeStatement s r := by
  have hnamed := firstNamed_of_notMem (forall_mem_cons.mp hd).2
    hrole hn
  have hstores : d.isStore n = .ok true := by
    unfold isStore
    rw [declaration?_eq hinfo]
    split
    · rfl
    · next hnone =>
      obtain hlet := hstore.resolve_right hnone
      rw [← hlet, hn]
      simp
  rw [statementOf, hcode, hnamed, ok_bind]
  show (d.isStore n >>= fun stores => if stores then _ else _) = _
  rw [hstores]
  rfl

/-- Every other command is a call. -/
theorem statementOf_call (hrole : info.name ∉ "LET" :: BlockRole.names.map Prod.fst)
    (hdeclares : DeclarationCommand.ofName? info.name = none) (hcode : r.code = n) :
    d.statementOf s r = d.callStatement s r := by
  simp only [mem_cons, not_or] at hrole
  have hnamed := firstNamed_of_notMem (forall_mem_cons.mp hd).2
    hrole.2 hn
  obtain ⟨m, hm⟩ := hd "LET" (by simp)
  have hne : m ≠ n := fun heq => hrole.1 (CommandTable.code_injective (heq ▸ hn) hm)
  have hstores : d.isStore n = .ok false := by
    unfold isStore
    rw [declaration?_eq hinfo, hdeclares, hm]
    simp [hne]
  rw [statementOf, hcode, hnamed, ok_bind]
  show (d.isStore n >>= fun stores => if stores then _ else _) = _
  rw [hstores]
  rfl

end

end Decompiler

/-! ## Commands that are read back -/

namespace Draft

variable {places : Array Place} {a : Argument} {table : CommandTable} {shapes : List Script.Shape}
  {c : Command} {shape : Script.Shape}

/-- What the decompiler sees of an argument of a draft. -/
structure Argument.Seen (version : Int) (shape : Script.Shape) (a : Argument)
    (r : NovelScript.Argument) : Prop where
  id : r.id = a.id
  assignment : (r.assignment.code : Int) = a.assignment
  number : ∀ value, a.data = .number value → isSplit version ∨ version = 290 → r.size = value
  data : r.data = a.content shape

/-- A command of a draft is read back as a command of a script. -/
structure ReadBack (table : CommandTable) (version : Int) (c : Command) (r : NovelScript.Command) :
    Prop where
  code : r.code = c.code
  arguments : ∃ shapes, Formed table c.code (c.arguments.map Argument.data) shapes ∧
    Forall₂ (fun (x : Script.Shape × Argument) r => x.2.Seen version x.1 r)
      (shapes.zip c.arguments) r.arguments

/-- An argument that is read as it was placed is seen as it was drafted. -/
theorem seen_of_readAs {span : Span} {r : NovelScript.Argument}
    (h : a.ReadAs version places shape span r) : a.Seen version shape r := by
  refine ⟨h.id, h.assignment, fun value hvalue hversion => ?_, h.data⟩
  have hlocation := congrArg Prod.fst h.location
  simpa [Argument.location, hvalue, hversion] using hlocation

/-- The code of an argument is seen as it was. -/
theorem Argument.Seen.code_eq {r : NovelScript.Argument} {code : List Instr}
    (h : a.Seen version .expression r) (ha : a.data = .code code) : r.code = .ok code := by
  have hdata := h.data
  unfold Argument.content at hdata
  rw [ha] at hdata
  rw [NovelScript.Argument.code, hdata]

theorem Argument.Seen.text_eq {r : NovelScript.Argument} {content : Wording}
    (h : a.Seen version .text r) (ha : a.data = .text content) : r.text = .ok content.shown := by
  have hdata := h.data
  unfold Argument.content at hdata
  rw [ha] at hdata
  rw [NovelScript.Argument.text, hdata]

/-- A command that is read as it was placed is read back. -/
theorem readBack_of_readAs {p : Placed} (h : p.ReadAs table version places r) :
    ReadBack table version p.command r := by
  obtain ⟨shapes, hformed, hread⟩ := h.arguments
  refine ⟨h.code, shapes, hformed, ?_⟩
  -- the spans are no fewer than the arguments, so nothing is lost without them
  have hlength := hread.length_eq
  have hshapes := length_of_formed hformed
  rw [length_zip, length_zip, h.count] at hlength
  have hzip : shapes.zip p.command.arguments =
      (shapes.zip (p.command.arguments.zip p.spans)).map fun x => (x.1, x.2.1) := by
    have hspans : (p.command.arguments.zip p.spans).map Prod.fst = p.command.arguments :=
      map_fst_zip (by omega)
    rw [← hspans, zip_map_right, hspans]
    rfl
  rw [hzip, forall₂_map_left_iff]
  exact hread.imp fun _ _ => seen_of_readAs

theorem exists_codes {arguments : List Argument}
    (h : ∀ a ∈ arguments, ∃ code, a.data = .code code) :
    ∃ codes : List (List Instr), arguments.map Argument.data = codes.map .code := by
  choose! code hcode using h
  refine ⟨arguments.map code, ?_⟩
  rw [map_map]
  exact map_congr_left hcode

section

variable (hforms : HasForms table)
include hforms

/-- The shapes of arguments follow from the code and the data. -/
theorem shapes_unique {data : List Data} {shapes' : List Script.Shape}
    (h : Formed table n data shapes) (h' : Formed table n data shapes') : shapes = shapes' := by
  by_cases hreturn : table.code "RETURNCODE" = .ok n
  · obtain ⟨_, -, rfl⟩ := number_of_formed h rfl hreturn
    obtain ⟨_, -, rfl⟩ := number_of_formed h' rfl hreturn
    rfl
  · have hshapes := shapes_of_formed hforms h rfl hreturn
    rw [shapes_of_formed hforms h' rfl hreturn] at hshapes
    exact (Except.ok.inj hshapes).symm

section

variable (h : ReadBack table version c r) (hn : c.code = n)
include h hn

/-- The arguments of a formed command are seen by their shapes. -/
theorem ReadBack.seen (hformed : Formed table n (c.arguments.map Argument.data) shapes) :
    Forall₂ (fun (x : Script.Shape × Argument) r => x.2.Seen version x.1 r)
      (shapes.zip c.arguments) r.arguments := by
  obtain ⟨shapes', hformed', hseen⟩ := h.arguments
  rw [hn] at hformed'
  rw [shapes_unique hforms hformed hformed']
  exact hseen

theorem ReadBack.seen_single (harguments : c.arguments = [a]) {data : Data} (ha : a.data = data)
    (hformed : Formed table n [data] [shape]) :
    ∃ x, a.Seen version shape x ∧ r.arguments = [x] := by
  have hseen := h.seen hforms hn (by rwa [harguments, map_singleton, ha])
  rw [harguments] at hseen
  obtain ⟨x, _, hx, hnil, heq⟩ := forall₂_cons_left_iff.mp hseen
  cases hnil
  exact ⟨x, hx, heq⟩

/-- Commands without a form of their own have expressions only. -/
theorem ReadBack.seen_other
    (hcode : ∀ name ∈ ["IF", "ELSE", "LOOP", "WORD", "RETURNCODE"], table.code name ≠ .ok n)
    (hdata : ∀ a ∈ c.arguments, ∃ code, a.data = .code code) :
    Forall₂ (fun (a : Argument) r => a.Seen version .expression r) c.arguments r.arguments := by
  obtain ⟨codes, hcodes⟩ := exists_codes hdata
  have hformed : Formed table n (c.arguments.map Argument.data)
      (codes.map fun _ => Script.Shape.expression) := hcodes ▸ .other hcode
  have hseen := h.seen hforms hn hformed
  have hlength : codes.length = c.arguments.length := by
    simpa using (congrArg List.length hcodes).symm
  rw [map_const', hlength] at hseen
  generalize c.arguments = arguments at hseen
  generalize r.arguments = read at hseen
  induction arguments generalizing read with
  | nil =>
    cases hseen
    exact .nil
  | cons a rest ih =>
    cases hseen with
    | cons hhead htail => exact .cons hhead (ih _ htail)

end

end

theorem ReadBack.arguments_eq_nil (h : ReadBack table version c r) (hbare : c.arguments = []) :
    r.arguments = [] := by
  obtain ⟨shapes, -, hseen⟩ := h.arguments
  rw [hbare, zip_nil_right] at hseen
  exact forall₂_nil_left_iff.mp hseen

end Draft

/-! ## Blocks -/

namespace Decompiler

open Draft (ReadBack HasForms)

variable {c : Draft.Command} {code : List Instr}
variable {a test next close : Draft.Argument} {e target value : Expr} {blocks : OpenBlocks}
  {name keyword : String} {op : Assignment} {info : CommandInfo} {store : StoreCommand}
  {declares : DeclarationCommand} {locals : Temporaries}

/-- The first argument of a command gives its code. -/
theorem firstCode_of_seen {shapes : List Script.Shape} {rest : List Draft.Argument}
    (hlength : shapes.length = rest.length)
    (hseen : Forall₂ (fun (x : Script.Shape × Draft.Argument) r => x.2.Seen version x.1 r)
      ((.expression :: shapes).zip (a :: rest)) r.arguments) (ha : a.data = .code code) :
    r.arguments.length = rest.length + 1 ∧ r.firstCode (rest.length + 1) = .ok code := by
  obtain ⟨x, others, hx, hothers, heq⟩ := forall₂_cons_left_iff.mp hseen
  have hcount : others.length = rest.length := by
    rw [← hothers.length_eq, length_zipWith, hlength, Nat.min_self]
  refine ⟨by rw [heq, length_cons, hcount], ?_⟩
  rw [Command.firstCode, heq]
  simp [hcount, require, hx.code_eq ha]

theorem requireBare_eq_ok (h : ReadBack d.commands version c r) (hbare : c.arguments = []) :
    r.requireBare = .ok () := by
  rw [Command.requireBare, h.arguments_eq_nil hbare]
  rfl

theorem ne_of_notMem {table : CommandTable} {names : List String} (hn : table.code name = .ok n)
    (hname : name ∉ names) : ∀ x ∈ names, table.code x ≠ .ok n :=
  fun _ hx h => hname (CommandTable.code_injective h hn ▸ hx)

/-- Assignments with one code are the same. -/
theorem assignment_injective {op' : Assignment} (h : (op.code : Int) = op'.code) : op = op' := by
  have hop := assignmentOf_code op
  rw [Int.natCast_inj.mp h, assignmentOf_code] at hop
  exact (Except.ok.inj hop).symm

section

variable (hd : d.HasRoles) (h : ReadBack d.commands version c r) (hn : c.code = n)
include hd h hn

/-- The test of a condition is its first code. -/
theorem firstCode_condition (hcode : d.commands.code "IF" = .ok n ∨ d.commands.code "ELSE" = .ok n)
    (harguments : c.arguments = [test, next, close]) (htest : test.data = .code code)
    (hnext : next.data.IsTarget) (hclose : close.data.IsTarget) :
    r.arguments.length = 3 ∧ r.firstCode 3 = .ok code := by
  have hformed : Draft.Formed d.commands n (c.arguments.map Draft.Argument.data)
      [.expression, .jump, .jump] := by
    rw [harguments, map_cons, htest]
    exact .condition hcode hnext hclose
  have hseen := h.seen hd.forms hn hformed
  rw [harguments] at hseen
  exact firstCode_of_seen rfl hseen htest

/-- A condition opens a chain. -/
theorem statementOf_if (hcode : d.commands.code "IF" = .ok n)
    (harguments : c.arguments = [test, next, close])
    (htest : test.data = .code code) (hnext : next.data.IsTarget) (hclose : close.data.IsTarget)
    (he : d.expr s.locals code = .ok e) :
    d.statementOf s r = .ok { s with blocks := s.blocks.openChain e } := by
  obtain ⟨-, hfirst⟩ := firstCode_condition hd h hn (.inl hcode) harguments htest hnext hclose
  rw [statementOf_role hd .condition (by decide) hcode (h.code.trans hn), roleStatement,
    hfirst, ok_bind, he]
  rfl

/-- A branch with a test goes on with its chain. -/
theorem statementOf_elseIf (hcode : d.commands.code "ELSE" = .ok n)
    (harguments : c.arguments = [test, next, close]) (htest : test.data = .code code)
    (hnext : next.data.IsTarget) (hclose : close.data.IsTarget) (he : d.expr s.locals code = .ok e)
    (hopen : s.blocks.requireCondition = .ok ()) (hblocks : s.blocks.elseIf e = .ok blocks) :
    d.statementOf s r = .ok { s with blocks } := by
  obtain ⟨hlength, hfirst⟩ :=
    firstCode_condition hd h hn (.inr hcode) harguments htest hnext hclose
  rw [statementOf_role hd .otherwise (by decide) hcode (h.code.trans hn), roleStatement,
    if_pos hlength, hopen, ok_bind, hfirst, ok_bind, he, ok_bind, hblocks]
  rfl

/-- A branch without a test is the last of its chain. -/
theorem statementOf_else (hcode : d.commands.code "ELSE" = .ok n) (hbare : c.arguments = [])
    (hopen : s.blocks.requireCondition = .ok ()) (hblocks : s.blocks.otherwise = .ok blocks) :
    d.statementOf s r = .ok { s with blocks } := by
  have hlength : ¬r.arguments.length = 3 := by simp [h.arguments_eq_nil hbare]
  rw [statementOf_role hd .otherwise (by decide) hcode (h.code.trans hn), roleStatement,
    if_neg hlength, requireBare_eq_ok h hbare, ok_bind, hopen, ok_bind, hblocks]
  rfl

/-- A divider only stands where a condition is open. -/
theorem statementOf_ifBlend (hcode : d.commands.code "IFBLEND" = .ok n) (hbare : c.arguments = [])
    (hopen : s.blocks.requireCondition = .ok ()) : d.statementOf s r = .ok s := by
  rw [statementOf_role hd .blend (by decide) hcode (h.code.trans hn), roleStatement,
    requireBare_eq_ok h hbare, ok_bind, hopen]
  rfl

/-- The end of a condition closes its chain. -/
theorem statementOf_ifEnd (hcode : d.commands.code "IFEND" = .ok n) (hbare : c.arguments = [])
    (hblocks : s.blocks.closeChain = .ok blocks) : d.statementOf s r = .ok { s with blocks } := by
  rw [statementOf_role hd .closeChain (by decide) hcode (h.code.trans hn), roleStatement,
    requireBare_eq_ok h hbare, ok_bind, hblocks]
  rfl

/-- A loop opens a block. -/
theorem statementOf_loop (hcode : d.commands.code "LOOP" = .ok n)
    (harguments : c.arguments = [test, close]) (htest : test.data = .code code)
    (hclose : close.data.IsTarget) (he : d.expr s.locals code = .ok e) :
    d.statementOf s r = .ok { s with blocks := s.blocks.openLoop e } := by
  have hformed : Draft.Formed d.commands n (c.arguments.map Draft.Argument.data)
      [.expression, .jump] := by
    rw [harguments, map_cons, htest]
    exact .loop hcode hclose
  have hseen := h.seen hd.forms hn hformed
  rw [harguments] at hseen
  obtain ⟨-, hfirst⟩ := firstCode_of_seen rfl hseen htest
  rw [statementOf_role hd .loop (by decide) hcode (h.code.trans hn), roleStatement]
  simp only [length_singleton] at hfirst
  rw [hfirst, ok_bind, he]
  rfl

/-- The end of a loop closes the innermost one. -/
theorem statementOf_loopEnd (hcode : d.commands.code "LOOPEND" = .ok n) (hbare : c.arguments = [])
    (hblocks : s.blocks.closeInnerLoop = .ok blocks) :
    d.statementOf s r = .ok { s with blocks } := by
  rw [statementOf_role hd .closeLoop (by decide) hcode (h.code.trans hn), roleStatement,
    requireBare_eq_ok h hbare, ok_bind, hblocks]
  rfl

/-! ## Texts and evaluation -/

/-- A text becomes a statement of its own. -/
theorem statementOf_word (hcode : d.commands.code "WORD" = .ok n) (harguments : c.arguments = [a])
    {content : Wording} (ha : a.data = .text content) :
    d.statementOf s r = .ok (s.add (.expression 0 (.text (.ofString content.shown)))) := by
  obtain ⟨x, hx, heq⟩ := h.seen_single hd.forms hn harguments ha (.word hcode)
  rw [statementOf_role hd .text (by decide) hcode (h.code.trans hn), roleStatement,
    Command.onlyText, heq]
  simp [hx.text_eq ha]

/-- A return code becomes a statement that yields it. -/
theorem statementOf_returnCode (hcode : d.commands.code "RETURNCODE" = .ok n)
    (harguments : c.arguments = [a]) {value : Int} (ha : a.data = .number value)
    (hversion : Draft.isSplit version ∨ version = 290) :
    d.statementOf s r = .ok (s.add (.expression 0 (.yield (some (.int value))))) := by
  obtain ⟨x, hx, heq⟩ := h.seen_single hd.forms hn harguments ha (.returnCode hcode)
  have hsize : x.size = value := hx.number value ha hversion
  rw [statementOf_role hd .textEnd (by decide) hcode (h.code.trans hn), roleStatement,
    Command.onlyNumber, heq]
  simp [hsize]

/-- An expression that is only evaluated keeps its sign. -/
theorem statementOf_evaluate (hcode : d.commands.code "_" = .ok n) (harguments : c.arguments = [a])
    (ha : a.data = .code code) (he : d.expr s.locals code = .ok e) :
    d.statementOf s r = .ok (s.add (.expression 0 (.subscript (.name "_") e))) := by
  have hformed : Draft.Formed d.commands n ([code].map .code) ([code].map fun _ => .expression) :=
    .other (ne_of_notMem hcode (by decide))
  obtain ⟨x, hx, heq⟩ := h.seen_single hd.forms hn harguments ha hformed
  rw [statementOf_role hd .evaluate (by decide) hcode (h.code.trans hn), roleStatement,
    Command.firstCode, heq]
  simp [require, hx.code_eq ha, he]

/-! ## Stored values -/

/-- A command with a target and a value is a store. -/
theorem storeCommand_eq_ok (hcode : d.commands.code name = .ok n)
    (hname : name ∉ ["IF", "ELSE", "LOOP", "WORD", "RETURNCODE"]) {target value : Draft.Argument}
    (harguments : c.arguments = [target, value]) {code' : List Instr}
    (htarget : target.data = .code code) (hop : target.assignment = op.code)
    (hvalue : value.data = .code code') (hset : value.assignment = Assignment.set.code) :
    StoreCommand.ofCommand r = .ok ⟨code, op, code'⟩ := by
  have hseen := h.seen_other hd.forms hn (ne_of_notMem hcode hname)
    (by simp [harguments, htarget, hvalue])
  rw [harguments] at hseen
  obtain ⟨x, _, hx, hrest, heq⟩ := forall₂_cons_left_iff.mp hseen
  obtain ⟨y, _, hy, hnil, rfl⟩ := forall₂_cons_left_iff.mp hrest
  cases hnil
  have hx' : x.assignment = op := assignment_injective (hx.assignment.trans hop)
  have hy' : y.assignment = .set := assignment_injective (hy.assignment.trans hset)
  rw [StoreCommand.ofCommand, heq]
  simp [hy', hx', require, hx.code_eq htarget, hy.code_eq hvalue]

end

/-- A store into a variable becomes an assignment. -/
theorem statementOf_let (hd : d.HasRoles) (hn : d.commands.code info.name = .ok n)
    (hinfo : d.commands.commands[n]? = some info) (hname : info.name = "LET") (hcode : r.code = n)
    (hstore : StoreCommand.ofCommand r = .ok store) {written : Expr}
    (htarget : d.expr s.locals store.target = .ok target)
    (hvalue : d.expr s.locals store.value = .ok value)
    (hwritten : storeTarget target = .ok written) :
    d.statementOf s r = .ok (s.add (if store.assignment == .set then .assign 0 [written] value
      else .augment 0 written store.assignment.binary value)) := by
  rw [statementOf_store hd hn hinfo (by rw [hname]; decide) (.inl hname) hcode, storeStatement,
    hstore, ok_bind, hcode, command_eq_ok hinfo, ok_bind]
  have hlocals : d.defineTemporary info.name store s.locals = .ok s.locals := by
    rw [hname]
    rfl
  rw [hlocals, ok_bind, htarget, ok_bind, hvalue, ok_bind, ← hname, hn, ok_bind]
  simp only [beq_self_eq_true, if_true, hwritten, ok_bind]
  split <;> rfl

theorem ofName?_eq_none_of_mem (h : name ∈ "LET" :: BlockRole.names.map Prod.fst) :
    DeclarationCommand.ofName? name = none := by
  revert name
  decide

/-- No command that defines a variable has a role. -/
theorem notMem_of_ofName? (h : DeclarationCommand.ofName? name = some declares) :
    name ∉ "LET" :: BlockRole.names.map Prod.fst := by
  intro hmem
  rw [ofName?_eq_none_of_mem hmem] at h
  cases h

/-- A store of a defining command becomes a definition. -/
theorem statementOf_definition (hd : d.HasRoles) (hn : d.commands.code info.name = .ok n)
    (hinfo : d.commands.commands[n]? = some info)
    (hname : DeclarationCommand.ofName? info.name = some declares) (hcode : r.code = n)
    (hstore : StoreCommand.ofCommand r = .ok store)
    (hlocals : d.defineTemporary info.name store s.locals = .ok locals)
    (htarget : d.expr locals store.target = .ok target)
    (hvalue : d.expr locals store.value = .ok value) {omitted : Bool}
    (homitted : d.omitsValue store locals = .ok omitted) :
    d.statementOf s r = .ok (StatementState.add ⟨s.blocks, locals⟩
      (if omitted then .expression 0 (.subscript (.name info.name) target)
        else .assign 0 [.subscript (.name info.name) target] value)) := by
  have hother := notMem_of_ofName? hname
  obtain ⟨m, hm⟩ := hd "LET" (by simp)
  have hne : (m : Int) ≠ n := fun heq => ne_of_notMem hn hother "LET" (by simp)
    (Int.natCast_inj.mp heq ▸ hm)
  rw [statementOf_store hd hn hinfo (fun hmem => hother (mem_cons_of_mem _ hmem))
    (.inr (by rw [hname]; rfl)) hcode, storeStatement, hstore, ok_bind, hcode, command_eq_ok hinfo,
    ok_bind, hlocals, ok_bind, htarget, ok_bind, hvalue, ok_bind, hm, ok_bind]
  simp only [beq_iff_eq, if_neg hne, homitted, ok_bind]
  split <;> rfl

/-! ## Calls -/

/-- A keyword is shown as it was given. -/
theorem keywordOf_argumentName (h : keyword ≠ "#") :
    keywordOf (argumentName keyword) = keyword := by
  unfold keywordOf argumentName
  by_cases hlabel : keyword = "LBL"
  · simp [hlabel]
  · simp [hlabel, h]

/-- An argument of a call gets the keyword of its position. -/
theorem callArgument_eq_ok {x : Argument} (hx : a.Seen version .expression x)
    (ha : a.data = .code code) (hop : a.assignment = op.code) {id : Nat}
    (hid : info.argument? (argumentName keyword) = some id) (hid' : a.id = id)
    (hempty : keyword ≠ "") (hsign : keyword ≠ "#") (he : d.expr locals code = .ok e) :
    d.callArgument locals info x = .ok (keyword, e, op) := by
  obtain ⟨⟨parameter, _⟩, hfind, rfl⟩ := Option.map_eq_some_iff.mp hid
  have hget := mem_zipIdx_iff_getElem?.mp
    (mem_reverse.mp (mem_of_find?_eq_some hfind))
  have hparameter : parameter.name = argumentName keyword := by
    simpa using find?_some hfind
  have hfilled : argumentName keyword ≠ "" := by
    rw [argumentName]
    split
    · decide
    · exact hempty
  have hop' : x.assignment = op := assignment_injective (hx.assignment.trans hop)
  rw [callArgument, hx.code_eq ha, ok_bind, hx.id, hid', itemAt?_natCast, hget]
  simp [orFault, require, hfilled, he, hop', hparameter, keywordOf_argumentName hsign]

/-- A call, with a body for the arguments that are not simply set. -/
def callOf (name : String) (arguments : List (String × Expr × Assignment)) : Stmt :=
  let call := Expr.call (.name name) [] <| arguments.map fun (k, e, assignment) =>
    (some k, if assignment == .set then e else .name "_")
  let body := arguments.filterMap fun (k, e, assignment) =>
    if assignment == .set then none else some (.augment 0 (.name k) assignment.binary e)
  if body.isEmpty then .expression 0 call else .context 0 [(call, none)] body

/-- A call is shown with the keywords of its arguments. -/
theorem callStatement_eq_ok (hinfo : d.commands.commands[n]? = some info) (hcode : r.code = n)
    {arguments : List (String × Expr × Assignment)}
    (harguments : r.arguments.mapM (d.callArgument s.locals info) = .ok arguments) :
    d.callStatement s r = .ok (s.add (callOf info.name arguments)) := by
  rw [callStatement, hcode, command_eq_ok hinfo, ok_bind, harguments, ok_bind, callOf]
  dsimp only
  split <;> rfl

end Decompiler

end NovelScript
