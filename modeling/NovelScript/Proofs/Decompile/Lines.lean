import NovelScript.Proofs.Decompile.Calls
import NovelScript.Proofs.Decompile.Definitions

/-!
# Decompiled lines

A statement without blocks is compiled to at most one command. Rule by rule of the compiler, the
decompiler writes the statement for the command that `restoredLine` says, and knows the same
variables afterwards (`CompiledSimple.writesLine`).
-/

namespace NovelScript

open List Decompiler

variable {l : Linkage} {d : Decompiler} {options : CompileOptions} {ρ : Renaming}
  {locals : Temporaries}
  {p p' : Progress} {line code : Nat}
variable {n n' : Names} {e value : Expr} {coded : Coded} {k : Constant} {c : CompileContext}
  {op : Option BinaryOp} {commands : List Draft.Command} {name : String} {info : CommandInfo}
  {given : List (Option String × Draft.Argument)} {arguments : List Draft.Argument} {version : Int}
  {s : Stmt}

/-- A command of a draft is decompiled to a statement, wherever it stands. -/
structure Decompiler.Writes (d : Decompiler) (numbers : Nat → Nat) (locals : Temporaries)
    (command : Draft.Command) (s : Stmt) (locals' : Temporaries) : Prop where
  kept : command.presence = .kept
  statement : ∀ r, Draft.ReadBack d.commands d.version (command.relocate numbers) r →
    ∀ blocks, d.statementOf ⟨blocks, locals⟩ r = .ok ⟨blocks.add [s], locals'⟩

/-- A statement without blocks is decompiled from its command, and the names are known that it
leads to. -/
def Linkage.WritesLine (l : Linkage) (d : Decompiler) (ρ : Renaming) (locals : Temporaries)
    (s : Stmt) (commands : List Draft.Command) (n : Names) : Prop :=
  ∃ command locals', commands = [command] ∧
    d.Writes l.numbers locals command (s.restoredLine (ρ.after s).name) locals' ∧
    l.Follows n (ρ.after s) locals'

/-- A plain expression is shown as restored. -/
theorem Compiled.expr_eq (hk : l.KnownTo d) (h : Compiled l.vocabulary n e coded n')
    (hplain : e.isPlain d.version = true) (hfollows : l.Follows n' ρ locals) :
    d.expr locals (coded.code.map (Instr.relocate l.numbers)) = .ok (e.restored ρ.name) :=
  h.decompileExpr_eq hplain (hk.shownBy hfollows)

/-! ## Texts and evaluation -/

theorem writes_word (hk : l.KnownTo d) (hcode : (l.context options).HasCode "WORD" code)
    {content : Wording} (hspelled : Wording.ofString content.shown = content) :
    d.Writes l.numbers locals (p.command (some line) code [{ data := .text content }])
      (.expression 0 (.text content)) locals := by
  refine ⟨rfl, fun r hr blocks => ?_⟩
  have hwritten := statementOf_word (s := ⟨blocks, locals⟩) hk.roles hr rfl
    (hk.code_eq_ok hcode) rfl rfl
  rw [hspelled] at hwritten
  exact hwritten

theorem restored_of_whole? {value : Int} (h : k.whole? = some value) : k.restored = .int value := by
  cases k <;> cases h <;> rfl

theorem writes_returnCode (hk : l.KnownTo d) (hcode : (l.context options).HasCode "RETURNCODE" code)
    {value : Int} (hvalue : k.whole? = some value) (id : Int) :
    d.Writes l.numbers locals (p.command (some line) code [{ id, data := .number value }])
      (.expression 0 (.yield (some (.const k.restored)))) locals := by
  rw [restored_of_whole? hvalue]
  exact ⟨rfl, fun _ hr _ => statementOf_returnCode hk.roles hr rfl (hk.code_eq_ok hcode)
    rfl rfl hk.version⟩

theorem writes_evaluate (hk : l.KnownTo d) (hcode : (l.context options).HasCode "_" code)
    (h : Compiled l.vocabulary n e coded n') (hplain : e.isPlain d.version = true)
    (hfollows : l.Follows n' ρ locals) :
    d.Writes l.numbers locals (p.command (some line) code [coded.argument .set])
      (.expression 0 (.subscript (.name "_") (e.restored ρ.name))) locals :=
  ⟨rfl, fun _ hr _ => statementOf_evaluate hk.roles hr rfl (hk.code_eq_ok hcode) rfl rfl
    (h.expr_eq hk hplain hfollows)⟩

/-! ## Stored values -/

theorem storeTarget_restored (h : e.isReference = true) (ρ : String → String) :
    storeTarget (e.restored ρ) = .ok (writtenTarget (e.restored ρ)) := by
  unfold Expr.isReference at h
  split at h
  · next base suffix => cases base <;> rfl
  · rw [Expr.restored]
    rfl
  · cases h

theorem CompiledStore.target {target : Expr}
    (h : CompiledStore c p line target op value commands p') :
    ∃ t n, Compiled c.vocabulary p.names target t n := by
  obtain ⟨ht, -⟩ := h
  exact ⟨_, _, ht⟩

theorem CompiledStore.extends {target : Expr}
    (h : CompiledStore c p line target op value commands p') :
    p.names.Extends c.vocabulary p'.names := by
  obtain ⟨ht, -, hw, -⟩ := h
  exact ht.extends.trans hw.extends

/-- An assignment is shown as one. -/
theorem writes_store (hk : l.KnownTo d) {target : Expr}
    (h : CompiledStore (l.context options) p line target op value commands p')
    (htarget : targetIsPlain d.version target = true) (hvalue : value.isPlain d.version = true)
    (hfollows : l.Follows p'.names ρ locals) :
    ∃ command, commands = [command] ∧
      d.Writes l.numbers locals command
        (match op with
          | none => .assign 0 [writtenTarget (target.restored ρ.name)] (value.restored ρ.name)
          | some op =>
            .augment 0 (writtenTarget (target.restored ρ.name)) op (value.restored ρ.name))
        locals := by
  obtain ⟨ht, hop, hw, info, hinfo⟩ := h
  obtain ⟨hreference, hplain⟩ := Bool.and_eq_true_iff.mp htarget
  obtain ⟨hcode, hget, hname⟩ := CommandTable.code_of_command? hk.commands hinfo
  refine ⟨_, rfl, rfl, fun r hr blocks => ?_⟩
  have hstore := storeCommand_eq_ok hk.roles hr rfl hcode (by decide) rfl rfl rfl rfl rfl
  have hexpr := ht.decompileExpr_eq hplain ((hk.shownBy hfollows).mono hw.extends)
  rw [statementOf_let (s := ⟨blocks, locals⟩) hk.roles (by rw [hname]; exact hcode) hget
    hname hr.code hstore hexpr (hw.expr_eq hk hvalue hfollows)
    (storeTarget_restored hreference ρ.name)]
  cases op with
  | none =>
    cases hop
    rfl
  | some op =>
    obtain ⟨hset, hbinary⟩ := binary_of_assignment? hop
    rw [hset, hbinary]
    rfl

/-! ## Definitions -/

/-- A definition is shown as one. -/
theorem CompiledDefinition.writes (hk : l.KnownTo d) {target : Expr} {value : Option Expr}
    (h : CompiledDefinition (l.context options) p line name target value commands p')
    (htarget : target.isPlain d.version = true)
    (hvalue : ∀ declares, DeclarationCommand.ofName? name = some declares →
      (value.getD (Compiling.initialExpr declares.type)).isPlain d.version = true)
    (hfollows : l.Follows p.names ρ locals) (hsymbols : p'.names.symbols.reverse <+: l.symbols) :
    ∃ declares command locals', DeclarationCommand.ofName? name = some declares ∧
      commands = [command] ∧
      d.Writes l.numbers locals command
        (restoredDefinition (ρ.defineAny (temporaryOf? name target)).name declares name target
          (value.getD (Compiling.initialExpr declares.type))) locals' ∧
      l.Follows p'.names (ρ.defineAny (temporaryOf? name target)) locals' := by
  obtain @⟨declares, x, dims, p₁, t, w, n₂, n₃, code, hname, hx, hfree, hdefined, ht, hw,
    hcode⟩ := h
  obtain ⟨info, hinfo⟩ := hcode
  obtain ⟨hcode, hget, hinfoName⟩ := CommandTable.code_of_command? hk.commands hinfo
  have hextends := ht.extends.trans hw.extends
  have hearlier := reverse_prefix.mpr hextends.suffix
  have hprefix : p₁.names.symbols.reverse <+: l.symbols := hearlier.trans hsymbols
  obtain ⟨_, hfind⟩ := hdefined.find?_eq l.vocabulary
  obtain ⟨kind, mark, rest, htcode⟩ := code_of_declaredTarget hx ht hfind
  -- What the reader makes of the command.
  let store : StoreCommand :=
    ⟨t.code.map (Instr.relocate l.numbers), .set, w.code.map (Instr.relocate l.numbers)⟩
  have hset : store.assignment = .set := rfl
  obtain ⟨locals', hlocals, hfollows₁, homits⟩ := hdefined.followed hk hname hx hfree hfollows
    hprefix hset (definedNumber_relocate htcode) (hw.code_ne_wideZero l.numbers)
  have hfollows' := hfollows₁.extends hextends hsymbols
  refine ⟨declares, _, locals', hname, rfl, ⟨rfl, fun r hr blocks => ?_⟩, hfollows'⟩
  have hforms : name ∉ ["IF", "ELSE", "LOOP", "WORD", "RETURNCODE"] := fun hmem =>
    notMem_of_ofName? hname (forms_subset hmem)
  have hstore : StoreCommand.ofCommand r = .ok store :=
    storeCommand_eq_ok hk.roles hr rfl hcode hforms rfl rfl rfl rfl rfl
  have hexpr := ht.decompileExpr_eq htarget ((hk.shownBy hfollows').mono hw.extends)
  have hwritten := hw.expr_eq hk (hvalue declares hname) hfollows'
  rw [statementOf_definition (s := ⟨blocks, locals⟩) hk.roles
    (by rw [hinfoName]; exact hcode) hget (by rw [hinfoName]; exact hname) hr.code hstore
    (by rw [hinfoName]; exact hlocals) hexpr hwritten homits, hinfoName]
  rfl

/-! ## Calls -/

/-- A call is shown as one. -/
theorem writes_call (hk : l.KnownTo d) (hname : isCallable name = true)
    (hinfo : l.vocabulary.command? name = some (info, code))
    (hids : Forall₂ (IsArgument info) given arguments) {keywords : List (Option String × Expr)}
    {body : List Stmt} {ρ : String → String}
    (hshows : Forall₂ (ShowsGiven d locals l.numbers) given (keywords.map (argumentOf ρ body)))
    (hfills : ∀ k ∈ keywords, FillsPlace body k)
    (hplain : ∀ k ∈ keywords, keywordIsPlain d.version k = true) (parameters : Int) :
    d.Writes l.numbers locals { p.command (some line) code arguments with parameters }
      (restoredCall ρ (.name name) keywords body) locals := by
  obtain ⟨hcode, hget, hinfoName⟩ := CommandTable.code_of_command? hk.commands hinfo
  simp only [isCallable, Bool.and_eq_true, Bool.not_eq_true', contains_eq_mem,
    decide_eq_false_iff_not, Option.isNone_iff_eq_none] at hname
  obtain ⟨hrole, hdeclares⟩ := hname
  have hwritten : ∀ x ∈ keywords.map (argumentOf ρ body), x.1 ≠ "" ∧ x.1 ≠ "#" := by
    intro x hx
    obtain ⟨k, hmem, rfl⟩ := mem_map.mp hx
    have hkey := hplain k hmem
    rw [keywordIsPlain, argumentOf_fst (ρ := ρ) (hfills k hmem)] at hkey
    simp only [Bool.and_eq_true, bne_iff_ne, ne_eq, Option.some.injEq] at hkey
    exact hkey.1
  refine ⟨rfl, fun r hr blocks => ?_⟩
  have hseen := hr.seen_other hk.roles.forms rfl
    (ne_of_notMem hcode fun hmem => hrole (forms_subset hmem)) ?_
  · have harguments := mapM_callArgument hids hshows hwritten hseen
    rw [statementOf_call hk.roles (by rw [hinfoName]; exact hcode) hget
      (by rw [hinfoName]; exact hrole) (by rw [hinfoName]; exact hdeclares) hr.code,
      callStatement_eq_ok (s := ⟨blocks, locals⟩) hget hr.code harguments, hinfoName,
      callOf_argumentOf hfills]
    rfl
  · -- all arguments are expressions
    intro a ha
    obtain ⟨b, hb, rfl⟩ := mem_map.mp ha
    obtain ⟨g, hg, keyword, id, -, -, rfl⟩ := exists_of_mem_forall₂_right hids hb
    obtain ⟨x, -, -, instructions, hdata, -⟩ := exists_of_mem_forall₂_right hshows.flip hg
    exact ⟨instructions.map (Instr.relocate l.numbers), by rw [Draft.Argument.relocate, hdata]; rfl⟩

theorem isSome_of_isArgument (h : Forall₂ (IsArgument info) given arguments) :
    ∀ g ∈ given, g.1.isSome = true := by
  intro g hg
  obtain ⟨a, -, keyword, id, hkeyword, -⟩ := exists_of_mem_forall₂_right h.flip hg
  rw [hkeyword]
  rfl

theorem isPlain_of_keywordIsPlain {k : Option String × Expr} (h : keywordIsPlain version k = true) :
    k.2.isPlain version = true :=
  (Bool.and_eq_true_iff.mp h).2

/-! ## Statements without blocks -/

theorem isPlain_initialExpr (version : Int) (type : ValueType) :
    (Compiling.initialExpr type).isPlain version = true := by
  cases type <;> rfl

theorem isPlain_of_definition {target : Expr}
    (h : (Stmt.assign line [.subscript (.name name) target] value).lineIsPlain version = true) :
    target.isPlain version = true ∧ value.isPlain version = true := by
  by_cases hname : name = "LET"
  · subst hname
    obtain ⟨htarget, hvalue⟩ := Bool.and_eq_true_iff.mp h
    exact ⟨(Bool.and_eq_true_iff.mp htarget).2, hvalue⟩
  · rw [Stmt.lineIsPlain] at h
    · exact Bool.and_eq_true_iff.mp h
    · exact hname

/-- What is stored in a variable stands as it is; only a variable can stand there. -/
theorem restoredLine_of_compiled {v : Vocabulary} {target : Expr} (h : Compiled v n target coded n')
    (hplain : (Stmt.assign line [target] value).lineIsPlain version = true) (ρ : String → String) :
    targetIsPlain version target = true ∧ value.isPlain version = true ∧
      (Stmt.assign line [target] value).temporary? = none ∧
      (Stmt.assign line [target] value).restoredLine ρ =
        .assign 0 [writtenTarget (target.restored ρ)] (value.restored ρ) := by
  have hboth : targetIsPlain version target && value.isPlain version := by
    cases h <;> exact hplain
  rw [Bool.and_eq_true_iff] at hboth
  refine ⟨hboth.1, hboth.2, ?_, ?_⟩ <;> cases h <;> rfl

theorem writesLine_of_same {command : Draft.Command} (hs : s.temporary? = none)
    (hfollows : l.Follows n ρ locals)
    (hwrites : d.Writes l.numbers locals command (s.restoredLine ρ.name) locals) :
    l.WritesLine d ρ locals s [command] n := by
  have hsame : ρ.after s = ρ := by rw [Renaming.after, hs, Renaming.defineAny]
  refine ⟨command, locals, rfl, ?_, ?_⟩
  · rw [hsame]
    exact hwrites
  · rw [hsame]
    exact hfollows

/-- **A statement without blocks is decompiled from its command.** -/
theorem CompiledSimple.writesLine (hk : l.KnownTo d) {depth : Depth}
    (h : CompiledSimple (l.context options) depth p s commands p') (hpass : ∀ line, s ≠ .pass line)
    (hlabel : s.label? = none) (hplain : s.lineIsPlain d.version = true)
    (hspelled : ∀ command ∈ commands, ∀ a ∈ command.arguments, ∀ w, a.data = .text w →
      Wording.ofString w.shown = w) (hfollows : l.Follows p.names ρ locals)
    (hsymbols : p'.names.symbols.reverse <+: l.symbols) :
    l.WritesLine d ρ locals s commands p'.names := by
  cases h with
  | pass => exact absurd rfl (hpass _)
  | label => cases hlabel
  -- A change of the encoding leaves no command, so it is not plain.
  | codec => cases hplain
  | word hcode =>
    refine writesLine_of_same rfl hfollows (writes_word hk hcode ?_)
    exact hspelled _ mem_cons_self _ mem_cons_self _ rfl
  | returnCode hvalue hcode =>
    exact writesLine_of_same rfl hfollows (writes_returnCode hk hcode hvalue _)
  | evaluate he hcode =>
    have hfollows' := hfollows.extends he.extends hsymbols
    exact writesLine_of_same rfl hfollows' (writes_evaluate hk hcode he hplain hfollows')
  | @call line name keywords given n commands p' hgiven hcommand =>
    obtain ⟨info, code, arguments, parameters, hinfo, hids, rfl, rfl⟩ :=
      keywordCommand_eq_ok hcommand
    have hfollows' := hfollows.extends hgiven.extends hsymbols
    obtain ⟨hname, hkeywords⟩ := Bool.and_eq_true_iff.mp hplain
    rw [all_eq_true] at hkeywords
    obtain ⟨hshows, hfills⟩ := hgiven.shows
      (fun k hmem => isPlain_of_keywordIsPlain (hkeywords k hmem)) (hk.shownBy hfollows')
      (isSome_of_isArgument hids)
    have hline : (Stmt.expression line (.call (.name name) [] keywords)).restoredLine ρ.name =
        restoredCall ρ.name (.name name) keywords [] := by
      simp [Stmt.restoredLine, Expr.restored, restoredAll, restoredCall, fillFor?]
    refine writesLine_of_same rfl hfollows' ?_
    rw [hline]
    exact writes_call hk hname hinfo hids hshows hfills hkeywords parameters
  | @context line name keywords bound body places places' given n₁ n₂ commands p' hplaces hkeys
      hfilled hgiven hcommand =>
    obtain ⟨info, code, arguments, parameters, hinfo, hids, rfl, rfl⟩ :=
      keywordCommand_eq_ok hcommand
    cases bound with
    | some e => cases hplain
    | none =>
      have hfollows' := hfollows.extends (hplaces.extends.trans hfilled.extends) hsymbols
      obtain ⟨hcall, hbody⟩ := Bool.and_eq_true_iff.mp hplain
      obtain ⟨hname, hkeywords⟩ := Bool.and_eq_true_iff.mp hcall
      rw [all_eq_true] at hkeywords hbody
      have hshown := hk.shownBy hfollows'
      have hopen := hplaces.forall₂
        (fun k hmem => isPlain_of_keywordIsPlain (hkeywords k hmem)) (hshown.mono hfilled.extends)
      have hfill := hfilled.forall₂ hkeys hbody hshown
      rw [hgiven] at hfill
      obtain ⟨hshows, hfills⟩ := shows_of_places hopen hfill (isSome_of_isArgument hids)
      exact writesLine_of_same rfl hfollows'
        (writes_call hk hname hinfo hids hshows hfills hkeywords parameters)
  | @define line name target commands p' h =>
    obtain ⟨declares, command, locals', hname, rfl, hwrites, hfollows'⟩ := h.writes hk hplain
      (fun declares _ => isPlain_initialExpr _ declares.type) hfollows hsymbols
    refine ⟨command, locals', rfl, ?_, hfollows'⟩
    rw [Renaming.after, Stmt.temporary?, Stmt.restoredLine, hname]
    exact hwrites
  | @defineAs line name target value commands p' h =>
    obtain ⟨htarget, hvalue⟩ := isPlain_of_definition hplain
    obtain ⟨declares, command, locals', hname, rfl, hwrites, hfollows'⟩ := h.writes hk htarget
      (fun _ _ => hvalue) hfollows hsymbols
    refine ⟨command, locals', rfl, ?_, hfollows'⟩
    rw [Renaming.after, Stmt.temporary?, Stmt.restoredLine, hname]
    exact hwrites
  | @store line written target value commands p' hwritten h =>
    have hfollows' := hfollows.extends h.extends hsymbols
    rcases hwritten with rfl | rfl
    · obtain ⟨t, n, ht⟩ := h.target
      obtain ⟨htarget, hvalue, hsame, hline⟩ := restoredLine_of_compiled ht hplain ρ.name
      obtain ⟨command, rfl, hwrites⟩ := writes_store hk h htarget hvalue hfollows'
      rw [← hline] at hwrites
      exact writesLine_of_same hsame hfollows' hwrites
    · obtain ⟨htarget, hvalue⟩ := Bool.and_eq_true_iff.mp hplain
      obtain ⟨command, rfl, hwrites⟩ := writes_store hk h htarget hvalue hfollows'
      exact writesLine_of_same rfl hfollows' hwrites
  | augment h =>
    have hfollows' := hfollows.extends h.extends hsymbols
    obtain ⟨htarget, hvalue⟩ := Bool.and_eq_true_iff.mp hplain
    obtain ⟨command, rfl, hwrites⟩ := writes_store hk h htarget hvalue hfollows'
    exact writesLine_of_same rfl hfollows' hwrites

end NovelScript
