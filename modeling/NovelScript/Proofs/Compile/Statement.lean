import NovelScript.Compile.Statement
import NovelScript.Proofs.Compile.Expression

/-!
# How statements are compiled

The compiler of statements as a relation, with one rule for each way in which it succeeds: first
calls and definitions, then the statements without blocks (`CompiledSimple`), at last blocks
(`CompiledStatement`, `compiledStatements_of_statements`). The rules name the progress before and
after a statement and its commands.
-/

namespace NovelScript

open List Compiling

variable {c : CompileContext} {p p' : Progress}
variable {e value target : Expr} {line : Nat} {name : String} {commands : List Draft.Command}
  {given : List (Option String × Option Draft.Argument)}
  {result : List (Option String × Draft.Argument)} {keywords : List (Option String × Expr)}
  {body : List Stmt} {depth : Depth}

/-! ## Progress -/

/-- Progress with other names. -/
def Progress.named (p : Progress) (names : Names) : Progress := { p with names }

/-- Progress behind a command on a line, or on the line before. -/
def Progress.placed (p : Progress) (line : Option Nat) : Progress :=
  { p with count := p.count + 1, line := line.getD p.line }

/-- A command at a point of the progress. -/
def Progress.command (p : Progress) (line : Option Nat) (code : Nat)
    (arguments : List Draft.Argument := []) : Draft.Command :=
  { code := code, line := line.getD p.line, arguments }

@[simp] theorem Progress.named_named (p : Progress) (n n' : Names) :
    (p.named n).named n' = p.named n' := rfl

@[simp] theorem Progress.command_named (p : Progress) (n : Names) (line : Option Nat) (code : Nat)
    (arguments : List Draft.Argument) :
    (p.named n).command line code arguments = p.command line code arguments := rfl

/-- A command is known by a name, with a code. -/
def CompileContext.HasCode (c : CompileContext) (name : String) (code : Nat) : Prop :=
  ∃ info, c.vocabulary.command? name = some (info, code)

/-- An expression only changes the names. -/
theorem expression_eq_ok {coded : Coded} (h : expression c e p = .ok (coded, p')) :
    ∃ n, Compiled c.vocabulary p.names e coded n ∧ p' = p.named n := by
  obtain ⟨⟨coded', n⟩, hcompile, h⟩ := of_bind h
  cases h
  exact ⟨n, compiled_of_compile hcompile, rfl⟩

theorem argument_eq_ok {a : Draft.Argument} (h : argument c e p = .ok (a, p')) :
    ∃ coded n, Compiled c.vocabulary p.names e coded n ∧ a = coded.argument .set ∧
      p' = p.named n := by
  obtain ⟨coded, p₁, he, h⟩ := of_stateBind h
  obtain ⟨rfl, rfl⟩ := statePure_eq_ok.mp h
  obtain ⟨n, hn, hp⟩ := expression_eq_ok he
  exact ⟨coded, n, hn, rfl, hp⟩

/-- A command whose arguments are not known yet is placed at once. -/
theorem heading_eq_ok {line : Option Nat} {position : Nat} {head : Draft.Command}
    (h : heading c line name p = .ok ((position, head), p')) :
    ∃ code, c.HasCode name code ∧ position = p.count ∧ head = p.command line code ∧
      p' = p.placed line := by
  obtain ⟨⟨info, code⟩, hfind, h⟩ := stateLift_bind.mp h
  cases h
  exact ⟨code, ⟨info, orFault_eq_ok.mp hfind⟩, rfl, rfl, rfl⟩

/-- A command is placed with its arguments. -/
theorem command_eq_ok {line : Option Nat} {arguments : List Draft.Argument}
    (h : command c line name arguments p = .ok (commands, p')) :
    ∃ code, c.HasCode name code ∧ commands = [p.command line code arguments] ∧
      p' = p.placed line := by
  obtain ⟨⟨position, head⟩, p₁, hhead, h⟩ := of_stateBind h
  obtain ⟨rfl, rfl⟩ := statePure_eq_ok.mp h
  obtain ⟨code, hcode, -, rfl, rfl⟩ := heading_eq_ok hhead
  exact ⟨code, hcode, rfl, rfl⟩

/-! ## Calls -/

/-- The arguments of a call are compiled. -/
inductive CompiledArguments (v : Vocabulary) :
    Names → List (Option String × Expr) → List (Option String × Draft.Argument) → Names → Prop
  | nil {n : Names} : CompiledArguments v n [] [] n
  | cons {n n₁ n' : Names} {k : Option String} {e : Expr} {coded : Coded}
      {rest : List (Option String × Expr)} {given : List (Option String × Draft.Argument)}
      (h : Compiled v n e coded n₁) (hrest : CompiledArguments v n₁ rest given n') :
      CompiledArguments v n ((k, e) :: rest) ((k, coded.argument .set) :: given) n'

/-- The arguments of a call with a body are compiled, but for those that the body gives. -/
inductive CompiledPlaces (v : Vocabulary) :
    Names → List (Option String × Expr) → List (Option String × Option Draft.Argument) → Names →
      Prop
  | nil {n : Names} : CompiledPlaces v n [] [] n
  | left {n n' : Names} {k : Option String} {rest : List (Option String × Expr)}
      {given : List (Option String × Option Draft.Argument)}
      (hrest : CompiledPlaces v n rest given n') :
      CompiledPlaces v n ((k, .name "_") :: rest) ((k, none) :: given) n'
  | given {n n₁ n' : Names} {k : Option String} {e : Expr} {coded : Coded}
      {rest : List (Option String × Expr)} {given : List (Option String × Option Draft.Argument)}
      (hne : e ≠ .name "_") (h : Compiled v n e coded n₁)
      (hrest : CompiledPlaces v n₁ rest given n') :
      CompiledPlaces v n ((k, e) :: rest) ((k, some (coded.argument .set)) :: given) n'

/-- The body of a call fills places. -/
inductive CompiledFills (v : Vocabulary) :
    Names → List (Option String × Option Draft.Argument) → List Stmt →
      List (Option String × Option Draft.Argument) → Names → Prop
  | nil {n : Names} {given : List (Option String × Option Draft.Argument)} :
      CompiledFills v n given [] given n
  | cons {n n₁ n' : Names} {given given' : List (Option String × Option Draft.Argument)}
      {line : Nat} {keyword : String} {op : BinaryOp} {assignment : Assignment} {e : Expr}
      {coded : Coded} {rest : List Stmt} (hplace : given.lookup (some keyword) = some none)
      (h : Compiled v n e coded n₁) (hop : op.assignment? = some assignment)
      (hrest : CompiledFills v n₁ (fill keyword (coded.argument assignment) given) rest given' n') :
      CompiledFills v n given (.augment line (.name keyword) op e :: rest) given' n'

/-- The arguments of a call are compiled in turn. -/
theorem callArguments_eq_ok {statement : Stmt} {given : List (Option String × Draft.Argument)}
    (h : callArguments c statement given keywords p = .ok (result, p')) :
    ∃ added n, CompiledArguments c.vocabulary p.names keywords added n ∧ result = given ++ added ∧
      p' = p.named n := by
  induction keywords generalizing given p with
  | nil =>
    obtain ⟨rfl, rfl⟩ := statePure_eq_ok.mp h
    exact ⟨[], _, .nil, by simp, rfl⟩
  | cons keyword rest ih =>
    obtain ⟨-, h⟩ := stateRequire_bind.mp h
    obtain ⟨a, p₁, ha, h⟩ := of_stateBind h
    obtain ⟨coded, n₁, hcoded, rfl, rfl⟩ := argument_eq_ok ha
    obtain ⟨added, n, hadded, rfl, rfl⟩ := ih h
    exact ⟨_, n, .cons hcoded hadded, by simp, rfl⟩

/-- The keywords of a call with a body are different, and some wait for a value. -/
theorem bodyArguments_eq_ok {statement : Stmt}
    {result : List (Option String × Option Draft.Argument)}
    (h : bodyArguments c statement given keywords p = .ok (result, p'))
    (hgiven : (given.map Prod.fst).Nodup) :
    ∃ added n, CompiledPlaces c.vocabulary p.names keywords added n ∧ result = given ++ added ∧
      p' = p.named n ∧ (result.map Prod.fst).Nodup := by
  induction keywords generalizing given p with
  | nil =>
    obtain ⟨rfl, rfl⟩ := statePure_eq_ok.mp h
    exact ⟨[], _, .nil, by simp, rfl, hgiven⟩
  | cons keyword rest ih =>
    obtain ⟨k, e⟩ := keyword
    obtain ⟨hfresh, h⟩ := stateRequire_bind.mp h
    -- The keyword is new, or the call would have been refused.
    have hnodup (a : Option Draft.Argument) : ((given ++ [(k, a)]).map Prod.fst).Nodup := by
      simp only [Bool.not_eq_true', any_eq_false, beq_iff_eq] at hfresh
      rw [map_append, nodup_append]
      refine ⟨hgiven, by simp, ?_⟩
      rintro x hx y hy rfl
      obtain ⟨g, hg, rfl⟩ := mem_map.mp hx
      exact hfresh g hg (by simpa using hy)
    split at h
    · have hnext : bodyArguments c statement (given ++ [(k, none)]) rest p = .ok (result, p') := h
      obtain ⟨added, n, hadded, rfl, rfl, hresult⟩ := ih hnext (hnodup none)
      exact ⟨_, n, .left hadded, by simp, rfl, hresult⟩
    · next hne =>
      obtain ⟨a, p₁, ha, h⟩ := of_stateBind h
      have hnext : bodyArguments c statement (given ++ [(k, some a)]) rest p₁ =
        .ok (result, p') := h
      obtain ⟨coded, n₁, hcoded, rfl, rfl⟩ := argument_eq_ok ha
      obtain ⟨added, n, hadded, rfl, rfl, hresult⟩ := ih hnext (hnodup _)
      exact ⟨_, n, .given hne hcoded hadded, by simp, rfl, hresult⟩

/-- The statements of the body fill the places that wait. -/
theorem fillAll_eq_ok {statement : Stmt} {result : List (Option String × Option Draft.Argument)}
    (h : fillAll c statement given body p = .ok (result, p')) :
    ∃ n, CompiledFills c.vocabulary p.names given body result n ∧ p' = p.named n := by
  fun_induction fillAll c statement given body generalizing p with
  | case1 given =>
    obtain ⟨rfl, rfl⟩ := statePure_eq_ok.mp h
    exact ⟨_, .nil, rfl⟩
  | case2 | case3 => exact absurd h stateThrow_ne_ok
  | case4 given line keyword op e rest hplace ih =>
    obtain ⟨coded, p₁, hcoded, h⟩ := of_stateBind h
    obtain ⟨assignment, hop, h⟩ := stateLift_bind.mp h
    obtain ⟨n₁, hcompiled, rfl⟩ := expression_eq_ok hcoded
    obtain ⟨n, hfills, rfl⟩ := ih _ _ h
    exact ⟨n, .cons hplace hcompiled (orFault_eq_ok.mp hop) hfills, rfl⟩
  | case5 => exact absurd h stateThrow_ne_ok

/-- In the end every place is filled. -/
theorem filled_eq_ok {statement : Stmt} (h : filled statement given = .ok result) :
    given = result.map fun (k, a) => (k, some a) := by
  have h₂ := mapM_eq_ok.mp h
  clear h
  induction h₂ with
  | nil => rfl
  | @cons place _ _ _ hhead _ ih =>
    obtain ⟨k, b⟩ := place
    obtain ⟨a, ha, heq⟩ := of_bind hhead
    cases heq
    rw [map_cons, ← ih, orFault_eq_ok.mp ha]

/-- A given argument gets the position of its keyword among the parameters. -/
def IsArgument (info : CommandInfo) (given : Option String × Draft.Argument)
    (a : Draft.Argument) : Prop :=
  ∃ keyword id, given.1 = some keyword ∧ info.argument? (argumentName keyword) = some id ∧
    a = { given.2 with id := (id : Int) }

/-- A call becomes one command, with its arguments by position. -/
theorem keywordCommand_eq_ok {given : List (Option String × Draft.Argument)}
    (h : keywordCommand c line name given p = .ok (commands, p')) :
    ∃ info code arguments parameters, c.vocabulary.command? name = some (info, code) ∧
      Forall₂ (IsArgument info) given arguments ∧
      commands = [{ p.command (some line) code arguments with parameters }] ∧
      p' = p.placed (some line) := by
  obtain ⟨named, hnamed, h⟩ := stateLift_bind.mp h
  obtain ⟨⟨info, code⟩, hfind, h⟩ := stateLift_bind.mp h
  obtain ⟨arguments, p₁, harguments, h⟩ := of_stateBind h
  obtain ⟨parameters, -, hplace⟩ := stateLift_bind.mp h
  -- To find the argument of a keyword changes nothing that is compiled.
  have hids := stateMapM_eq_ok (R := fun (x : String × Draft.Argument) a =>
    ∃ id, info.argument? (argumentName x.1) = some id ∧ a = { x.2 with id := (id : Int) })
    (fun x a s s' hx => ?_) harguments
  · obtain ⟨hids, rfl⟩ := hids
    cases hplace
    refine ⟨info, code, arguments, parameters, orFault_eq_ok.mp hfind, ?_, rfl, rfl⟩
    refine (forall₂_comp (mapM_eq_ok.mp hnamed) hids).imp ?_
    rintro ⟨keyword, a⟩ b ⟨⟨k, a'⟩, hk, id, hid, rfl⟩
    cases keyword with
    | none => cases hk
    | some keyword =>
      dsimp only at hk
      split at hk
      · cases hk
      · cases hk
        exact ⟨k, id, rfl, hid, rfl⟩
  · obtain ⟨id, hid, hx⟩ := stateLift_bind.mp hx
    obtain ⟨rfl, rfl⟩ := statePure_eq_ok.mp hx
    exact ⟨⟨id, orFault_eq_ok.mp hid, rfl⟩, rfl⟩

/-! ## Definitions -/

/-- A name is that of no static variable and of none that is declared outside. -/
structure Progress.Free (p : Progress) (v : Vocabulary) (name : String) : Prop where
  statics : p.names.statics.lookup name = none
  folders : v.folders.lookup name = none
  globals : v.globals.lookup name = none
  system : v.system.lookup name = none

/-- A name that may be defined is taken neither inside nor outside. -/
theorem requireFree_eq_ok {statement : Stmt} (h : requireFree c statement name p = .ok ((), p')) :
    p.Free c.vocabulary name ∧ p' = p := by
  obtain ⟨_, hstatics, h⟩ := of_bind h
  obtain ⟨_, hfolders, h⟩ := of_bind h
  obtain ⟨_, hglobals, h⟩ := of_bind h
  obtain ⟨_, hsystem, h⟩ := of_bind h
  cases h
  simp only [require_eq_ok, Option.isNone_iff_eq_none] at hstatics hfolders hglobals hsystem
  exact ⟨⟨hstatics, hfolders, hglobals, hsystem⟩, rfl⟩

/-- A variable is added to the names. -/
inductive Defined (d : DeclarationCommand) (name : String) (dims : List Dimension) (value : Expr)
    (p : Progress) : Progress → Prop
  | static {declared : DeclaredValue} (hscope : d.scope = .static)
      (hlocal : p.names.temporaries.lookup name = none)
      (hvalue : declaredValue d.type (some value) = .ok declared) :
      Defined d name dims value p
        { p with
          names := p.names.addStatic ⟨name, d.extension, dims, declared⟩
          statics := p.statics + 1 }
  | temporary (hscope : d.scope = .temporary) :
      Defined d name dims value p
        { p with names := p.names.addTemporary name d.type, temporaries := p.temporaries + 1 }

/-- A definition adds a static or a temporary variable. -/
theorem define_eq_ok {statement : Stmt} {d : DeclarationCommand} {dims : List Dimension}
    (hscope : (d.scope == .static || d.scope == .temporary) = true)
    (h : define statement d name dims value p = .ok ((), p')) : Defined d name dims value p p' := by
  unfold define at h
  split at h
  · next hstatic =>
    obtain ⟨_, hlocal, h⟩ := of_bind h
    obtain ⟨declared, hvalue, h⟩ := of_bind h
    cases h
    rw [require_eq_ok, Option.isNone_iff_eq_none] at hlocal
    exact .static (eq_of_beq hstatic) hlocal hvalue
  · next hstatic =>
    cases h
    have htemporary : d.scope = .temporary := by simpa [hstatic] using hscope
    exact .temporary htemporary

/-- The definition of a variable is compiled: the variable is known when its target and its value
are. -/
inductive CompiledDefinition (c : CompileContext) (p : Progress) (line : Nat) (name : String)
    (target : Expr) (value : Option Expr) : List Draft.Command → Progress → Prop
  | intro {d : DeclarationCommand} {variableName : String} {dims : List Dimension} {p₁ : Progress}
      {t w : Coded} {n₂ n₃ : Names} {code : Nat} (hd : DeclarationCommand.ofName? name = some d)
      (htarget : declaredTarget d.type target = .ok (variableName, dims))
      (hfree : p.Free c.vocabulary variableName)
      (hdefined : Defined d variableName dims (value.getD (initialExpr d.type)) p p₁)
      (ht : Compiled c.vocabulary p₁.names target t n₂)
      (hw : Compiled c.vocabulary n₂ (value.getD (initialExpr d.type)) w n₃)
      (hcode : c.HasCode name code) :
      CompiledDefinition c p line name target value
        [p₁.command (some line) code [t.argument .set, w.argument .set]]
        ((p₁.named n₃).placed (some line))

/-- A statement that defines a variable becomes one command. -/
theorem definition_eq_ok {statement : Stmt} {value : Option Expr}
    (h : definition c statement name target value p = .ok (commands, p')) :
    CompiledDefinition c p statement.line name target value commands p' := by
  obtain ⟨d, hd, h⟩ := stateLift_bind.mp h
  obtain ⟨hscope, h⟩ := stateRequire_bind.mp h
  obtain ⟨⟨variableName, dims⟩, htarget, h⟩ := stateLift_bind.mp h
  obtain ⟨_, p₁, hrequire, h⟩ := of_stateBind h
  obtain ⟨_, p₂, hdefine, h⟩ := of_stateBind h
  obtain ⟨_, p₃, htarg, h⟩ := of_stateBind h
  obtain ⟨_, p₄, hwarg, hcommand⟩ := of_stateBind h
  obtain ⟨hfree, rfl⟩ := requireFree_eq_ok hrequire
  have hdefined := define_eq_ok hscope hdefine
  obtain ⟨t, n₃, ht, rfl, rfl⟩ := argument_eq_ok htarg
  obtain ⟨w, n₄, hw, rfl, rfl⟩ := argument_eq_ok hwarg
  obtain ⟨code, hcode, rfl, rfl⟩ := command_eq_ok hcommand
  rw [Progress.named_named, Progress.command_named]
  exact .intro (orFault_eq_ok.mp hd) htarget hfree hdefined ht hw hcode

/-! ## Stored values -/

/-- The assignment for an operator; without one a value is set. -/
def assignmentOf? : Option BinaryOp → Option Assignment
  | none => some .set
  | some op => op.assignment?

/-- A value that is stored is compiled. -/
inductive CompiledStore (c : CompileContext) (p : Progress) (line : Nat) (target : Expr)
    (op : Option BinaryOp) (value : Expr) : List Draft.Command → Progress → Prop
  | intro {t w : Coded} {n₁ n₂ : Names} {assignment : Assignment} {code : Nat}
      (ht : Compiled c.vocabulary p.names target t n₁) (hop : assignmentOf? op = some assignment)
      (hw : Compiled c.vocabulary n₁ value w n₂) (hcode : c.HasCode "LET" code) :
      CompiledStore c p line target op value
        [p.command (some line) code [t.argument assignment, w.argument .set]]
        ((p.named n₂).placed (some line))

/-- A statement that sets a variable becomes one command. -/
theorem store_eq_ok {op : Option BinaryOp}
    (h : store c line target op value p = .ok (commands, p')) :
    CompiledStore c p line target op value commands p' := by
  obtain ⟨t, p₁, htarg, h⟩ := of_stateBind h
  have hassignment : ∃ assignment, assignmentOf? op = some assignment ∧
      (argument c value >>= fun w => command c (some line) "LET" [t.argument assignment, w]) p₁ =
        .ok (commands, p') := by
    cases op with
    | none => exact ⟨.set, rfl, h⟩
    | some o =>
      obtain ⟨assignment, ho, h⟩ := stateLift_bind.mp h
      exact ⟨assignment, orFault_eq_ok.mp ho, h⟩
  obtain ⟨assignment, hop, h⟩ := hassignment
  obtain ⟨_, p₂, hwarg, hcommand⟩ := of_stateBind h
  obtain ⟨n₁, ht, rfl⟩ := expression_eq_ok htarg
  obtain ⟨w, n₂, hw, rfl, rfl⟩ := argument_eq_ok hwarg
  obtain ⟨code, hcode, rfl, rfl⟩ := command_eq_ok hcommand
  exact .intro ht hop hw hcode

/-! ## Statements without blocks -/

/-- A statement without blocks is compiled. -/
inductive CompiledSimple (c : CompileContext) (depth : Depth) (p : Progress) :
    Stmt → List Draft.Command → Progress → Prop
  | pass {line : Nat} : CompiledSimple c depth p (.pass line) [] p
  | label {line : Nat} {name : Wording} {marked : Bool}
      (hfresh : ∀ l ∈ p.labels, l.name ≠ name) :
      CompiledSimple c depth p (.assign line [.name "LBL"] (.const (.text name marked)))
        [{ code := -1, presence := .label }]
        { p with
          count := p.count + 1
          labels := ⟨name, p.count, depth.ifs, depth.loops⟩ :: p.labels }
  | codec {line : Nat} {name : Wording} {marked : Bool} :
      CompiledSimple c depth p (.assign line [.name "ENC"] (.const (.text name marked))) []
        { p with codec := c.codecNamed name }
  | word {line code : Nat} {content : Wording} {marked : Bool} (hcode : c.HasCode "WORD" code) :
      CompiledSimple c depth p (.expression line (.const (.text content marked)))
        [p.command (some line) code [{ data := .text content }]] (p.placed (some line))
  | returnCode {line code : Nat} {k : Constant} {value : Int} (hvalue : k.whole? = some value)
      (hcode : c.HasCode "RETURNCODE" code) :
      CompiledSimple c depth p (.expression line (.yield (some (.const k))))
        [p.command (some line) code [{ id := ((p.texts + 1 : Nat) : Int), data := .number value }]]
        { p.placed (some line) with texts := p.texts + 1 }
  | evaluate {line code : Nat} {target : Expr} {e : Coded} {n : Names}
      (he : Compiled c.vocabulary p.names target e n) (hcode : c.HasCode "_" code) :
      CompiledSimple c depth p (.expression line (.subscript (.name "_") target))
        [p.command (some line) code [e.argument .set]] ((p.named n).placed (some line))
  | call {line : Nat} {name : String} {keywords : List (Option String × Expr)}
      {given : List (Option String × Draft.Argument)} {n : Names} {commands : List Draft.Command}
      {p' : Progress} (hgiven : CompiledArguments c.vocabulary p.names keywords given n)
      (hcommand : keywordCommand c line name given (p.named n) = .ok (commands, p')) :
      CompiledSimple c depth p (.expression line (.call (.name name) [] keywords)) commands p'
  | context {line : Nat} {name : String} {keywords : List (Option String × Expr)}
      {bound : Option Expr} {body : List Stmt}
      {places places' : List (Option String × Option Draft.Argument)}
      {given : List (Option String × Draft.Argument)} {n₁ n₂ : Names}
      {commands : List Draft.Command} {p' : Progress}
      (hplaces : CompiledPlaces c.vocabulary p.names keywords places n₁)
      (hkeys : (places.map Prod.fst).Nodup)
      (hfills : CompiledFills c.vocabulary n₁ places body places' n₂)
      (hgiven : places' = given.map fun (k, a) => (k, some a))
      (hcommand : keywordCommand c line name given (p.named n₂) = .ok (commands, p')) :
      CompiledSimple c depth p (.context line [(.call (.name name) [] keywords, bound)] body)
        commands p'
  | define {line : Nat} {name : String} {target : Expr} {commands : List Draft.Command}
      {p' : Progress} (h : CompiledDefinition c p line name target none commands p') :
      CompiledSimple c depth p (.expression line (.subscript (.name name) target)) commands p'
  | defineAs {line : Nat} {name : String} {target value : Expr} {commands : List Draft.Command}
      {p' : Progress} (h : CompiledDefinition c p line name target (some value) commands p') :
      CompiledSimple c depth p (.assign line [.subscript (.name name) target] value) commands p'
  | store {line : Nat} {written target value : Expr} {commands : List Draft.Command}
      {p' : Progress} (hwritten : written = target ∨ written = .subscript (.name "LET") target)
      (h : CompiledStore c p line target none value commands p') :
      CompiledSimple c depth p (.assign line [written] value) commands p'
  | augment {line : Nat} {target value : Expr} {op : BinaryOp} {commands : List Draft.Command}
      {p' : Progress}
      (h : CompiledStore c p line (augmentedTarget target) (some op) value commands p') :
      CompiledSimple c depth p (.augment line target op value) commands p'

/-- A label has a new name and marks the place that it stands at. -/
theorem label_eq_ok {name : Wording} (h : label depth name p = .ok (commands, p')) :
    (∀ l ∈ p.labels, l.name ≠ name) ∧ commands = [{ code := -1, presence := .label }] ∧
      p' = { p with
        count := p.count + 1
        labels := ⟨name, p.count, depth.ifs, depth.loops⟩ :: p.labels } := by
  obtain ⟨_, hfresh, h⟩ := of_bind h
  cases h
  exact ⟨by simpa using hfresh, rfl, rfl⟩

/-- What an expression that stands alone becomes. -/
theorem compiledSimple_of_expression
    (h : expressionStatement c (.expression line e) line e p = .ok (commands, p')) :
    CompiledSimple c depth p (.expression line e) commands p' := by
  unfold expressionStatement at h
  split at h
  · obtain ⟨code, hcode, rfl, rfl⟩ := command_eq_ok h
    exact .word hcode
  · next k =>
    cases hvalue : k.whole? with
    | none =>
      rw [hvalue] at h
      exact absurd h stateThrow_ne_ok
    | some value =>
      rw [hvalue] at h
      obtain ⟨code, hcode, rfl, rfl⟩ := command_eq_ok (p := { p with texts := p.texts + 1 }) h
      exact .returnCode hvalue hcode
  · obtain ⟨given, p₁, hgiven, hcommand⟩ := of_stateBind h
    obtain ⟨added, n, hadded, rfl, rfl⟩ := callArguments_eq_ok hgiven
    exact .call hadded hcommand
  · obtain ⟨a, p₁, ha, hcommand⟩ := of_stateBind h
    obtain ⟨coded, n, hcoded, rfl, rfl⟩ := argument_eq_ok ha
    obtain ⟨code, hcode, rfl, rfl⟩ := command_eq_ok hcommand
    rw [Progress.command_named]
    exact .evaluate hcoded hcode
  · exact .define (definition_eq_ok h)
  · exact absurd h stateThrow_ne_ok

theorem compiledSimple_of_assignment
    (h : assignment c depth (.assign line [target] value) line target value p =
      .ok (commands, p')) :
    CompiledSimple c depth p (.assign line [target] value) commands p' := by
  unfold assignment at h
  split at h
  · obtain ⟨hfresh, rfl, rfl⟩ := label_eq_ok h
    exact .label hfresh
  · cases h
    exact .codec
  · exact absurd h stateThrow_ne_ok
  · exact .store (.inr rfl) (store_eq_ok h)
  · exact .defineAs (definition_eq_ok h)
  · exact .store (.inl rfl) (store_eq_ok h)

/-- What a call with a body becomes. -/
theorem compiledSimple_of_context {bound : Option Expr}
    (h : statement c depth (.context line [(.call (.name name) [] keywords, bound)] body) p =
      .ok (commands, p')) :
    CompiledSimple c depth p (.context line [(.call (.name name) [] keywords, bound)] body)
      commands p' := by
  obtain ⟨places, p₁, hplaces, h⟩ := of_stateBind h
  obtain ⟨places', p₂, hfills, h⟩ := of_stateBind h
  obtain ⟨given, hgiven, hcommand⟩ := stateLift_bind.mp h
  obtain ⟨added, n₁, hadded, rfl, rfl, hkeys⟩ := bodyArguments_eq_ok hplaces (by simp)
  obtain ⟨n₂, hfilled, rfl⟩ := fillAll_eq_ok hfills
  exact .context hadded hkeys hfilled (filled_eq_ok hgiven) hcommand

/-! ## Blocks -/

mutual

/-- A statement is compiled. -/
inductive CompiledStatement (c : CompileContext) :
    Depth → Progress → Stmt → List Draft.Command → Progress → Prop
  | simple {depth : Depth} {p p' : Progress} {s : Stmt} {commands : List Draft.Command}
      (h : CompiledSimple c depth p s commands p') : CompiledStatement c depth p s commands p'
  | branch {depth : Depth} {p p₂ p₃ : Progress} {line openCode closeCode : Nat} {test : Expr}
      {body elseBody : List Stmt} {t : Coded} {n₁ : Names} {first rest : List Draft.Command}
      {next : Option Nat} (htest : Compiled c.vocabulary p.names test t n₁)
      (hopen : c.HasCode "IF" openCode)
      (hbody : CompiledStatements c { depth with ifs := depth.ifs + 1 }
        ((p.named n₁).placed (some line)) body first p₂)
      (hchain : CompiledChain c { depth with ifs := depth.ifs + 1 } p₂ elseBody next rest p₃)
      (hclose : c.HasCode "IFEND" closeCode) :
      CompiledStatement c depth p (.branch line test body elseBody)
        ([openChain (p.command (some line) openCode) t next p₃.count] ++ first ++ rest ++
          [p₃.command none closeCode]) (p₃.placed none)
  | loop {depth : Depth} {p p₂ : Progress} {line openCode closeCode : Nat} {test : Expr}
      {body elseBody : List Stmt} {t : Coded} {n₁ : Names} {inside : List Draft.Command}
      (htest : Compiled c.vocabulary p.names test t n₁) (hopen : c.HasCode "LOOP" openCode)
      (hbody : CompiledStatements c { depth with loops := depth.loops + 1 }
        ((p.named n₁).placed (some line)) body inside p₂)
      (hclose : c.HasCode "LOOPEND" closeCode) :
      CompiledStatement c depth p (.loop line test body elseBody)
        ([p.command (some line) openCode [t.argument .set, { data := .jump p₂.count }]] ++ inside ++
          [p₂.command none closeCode]) (p₂.placed none)

/-- Statements are compiled. -/
inductive CompiledStatements (c : CompileContext) :
    Depth → Progress → List Stmt → List Draft.Command → Progress → Prop
  | nil {depth : Depth} {p : Progress} : CompiledStatements c depth p [] [] p
  | cons {depth : Depth} {p p₁ p' : Progress} {s : Stmt} {rest : List Stmt}
      {first others : List Draft.Command} (h : CompiledStatement c depth p s first p₁)
      (hrest : CompiledStatements c depth p₁ rest others p') :
      CompiledStatements c depth p (s :: rest) (first ++ others) p'

/-- What follows the body of a condition is compiled. -/
inductive CompiledChain (c : CompileContext) :
    Depth → Progress → List Stmt → Option Nat → List Draft.Command → Progress → Prop
  | nil {depth : Depth} {p : Progress} : CompiledChain c depth p [] none [] p
  | elseIf {depth : Depth} {p p₂ p' : Progress} {line blendCode code : Nat} {test : Expr}
      {body elseBody : List Stmt} {t : Coded} {n₁ : Names} {first rest : List Draft.Command}
      {next : Option Nat} (hblend : c.HasCode "IFBLEND" blendCode)
      (htest : Compiled c.vocabulary p.names test t n₁) (hcode : c.HasCode "ELSE" code)
      (hbody : CompiledStatements c depth (((p.placed none).named n₁).placed none) body first p₂)
      (hchain : CompiledChain c depth p₂ elseBody next rest p') :
      CompiledChain c depth p [.branch line test body elseBody] (some (p.count + 1))
        ([p.command none blendCode] ++
          [continueChain ((p.placed none).command none code) t next] ++ first ++ rest) p'
  | otherwise {depth : Depth} {p p' : Progress} {blendCode code : Nat} {s : Stmt}
      {rest : List Stmt} {commands : List Draft.Command}
      (hne : ∀ line test body elseBody, s :: rest ≠ [.branch line test body elseBody])
      (hblend : c.HasCode "IFBLEND" blendCode) (hcode : c.HasCode "ELSE" code)
      (hbody : CompiledStatements c depth ((p.placed none).placed none) (s :: rest) commands p') :
      CompiledChain c depth p (s :: rest) (some (p.count + 1))
        ([p.command none blendCode] ++ [(p.placed none).command none code] ++ commands) p'

end

/-- Compiling follows the rules, for statements, chains and lists at once. -/
theorem compiledStatements_all :
    (∀ depth s p commands p', statement c depth s p = .ok (commands, p') →
      CompiledStatement c depth p s commands p') ∧
    (∀ depth elseBody p next commands p', chain c depth elseBody p = .ok ((next, commands), p') →
      CompiledChain c depth p elseBody next commands p') ∧
    (∀ depth body p commands p', statements c depth body p = .ok (commands, p') →
      CompiledStatements c depth p body commands p') := by
  -- As for expressions, the cases are those of the compiler.
  refine statement.mutual_induct _ _ _ ?pass ?branch ?loop ?context ?expression ?assign ?augment
    ?other ?chainNil ?elseIf ?otherwise ?nil ?cons
  case pass =>
    intro depth line p commands p' h
    obtain ⟨rfl, rfl⟩ := statePure_eq_ok.mp h
    exact .simple .pass
  case branch =>
    intro depth line test body elseBody inner ihbody ihchain p commands p' h
    obtain ⟨t, p₁, ht, h⟩ := of_stateBind h
    obtain ⟨⟨_, head⟩, p₂, hhead, h⟩ := of_stateBind h
    obtain ⟨first, p₃, hfirst, h⟩ := of_stateBind h
    obtain ⟨⟨next, rest⟩, p₄, hrest, h⟩ := of_stateBind h
    obtain ⟨⟨close, tail⟩, p₅, htail, h⟩ := of_stateBind h
    obtain ⟨rfl, rfl⟩ := statePure_eq_ok.mp h
    obtain ⟨n₁, htest, rfl⟩ := expression_eq_ok ht
    obtain ⟨openCode, hopen, -, rfl, rfl⟩ := heading_eq_ok hhead
    obtain ⟨closeCode, hclose, rfl, rfl, rfl⟩ := heading_eq_ok htail
    exact .branch htest hopen (ihbody _ _ _ hfirst) (ihchain _ _ _ _ hrest) hclose
  case loop =>
    intro depth line test body elseBody ihbody p commands p' h
    obtain ⟨t, p₁, ht, h⟩ := of_stateBind h
    obtain ⟨⟨_, head⟩, p₂, hhead, h⟩ := of_stateBind h
    obtain ⟨inside, p₃, hinside, h⟩ := of_stateBind h
    obtain ⟨⟨close, tail⟩, p₄, htail, h⟩ := of_stateBind h
    obtain ⟨rfl, rfl⟩ := statePure_eq_ok.mp h
    obtain ⟨n₁, htest, rfl⟩ := expression_eq_ok ht
    obtain ⟨openCode, hopen, -, rfl, rfl⟩ := heading_eq_ok hhead
    obtain ⟨closeCode, hclose, rfl, rfl, rfl⟩ := heading_eq_ok htail
    exact .loop htest hopen (ihbody _ _ _ hinside) hclose
  case context =>
    intro depth line name keywords bound body p commands p' h
    exact .simple (compiledSimple_of_context h)
  case expression =>
    intro depth line e p commands p' h
    exact .simple (compiledSimple_of_expression h)
  case assign =>
    intro depth line target value p commands p' h
    exact .simple (compiledSimple_of_assignment h)
  case augment =>
    intro depth line target op value p commands p' h
    exact .simple (.augment (store_eq_ok h))
  case other =>
    intros
    next h =>
    rw [statement] at h
    · exact absurd h stateThrow_ne_ok
    all_goals assumption
  case chainNil =>
    intro depth p next commands p' h
    cases h
    exact .nil
  case elseIf =>
    intro depth line test body elseBody ihbody ihchain p next commands p' h
    obtain ⟨blend, p₁, hblend, h⟩ := of_stateBind h
    obtain ⟨t, p₂, ht, h⟩ := of_stateBind h
    obtain ⟨⟨position, head⟩, p₃, hhead, h⟩ := of_stateBind h
    obtain ⟨first, p₄, hfirst, h⟩ := of_stateBind h
    obtain ⟨⟨next', rest⟩, p₅, hrest, h⟩ := of_stateBind h
    obtain ⟨heq, rfl⟩ := statePure_eq_ok.mp h
    cases heq
    obtain ⟨blendCode, hblendCode, rfl, rfl⟩ := command_eq_ok hblend
    obtain ⟨n₁, htest, rfl⟩ := expression_eq_ok ht
    obtain ⟨code, hcode, rfl, rfl, rfl⟩ := heading_eq_ok hhead
    exact .elseIf hblendCode htest hcode (ihbody _ _ _ hfirst) (ihchain _ _ _ _ hrest)
  case otherwise =>
    intro depth s rest hne ihfirst ihothers p next commands p' h
    rw [chain] at h
    · obtain ⟨blend, p₁, hblend, h⟩ := of_stateBind h
      obtain ⟨⟨position, head⟩, p₂, hhead, h⟩ := of_stateBind h
      obtain ⟨first, p₃, hfirst, h⟩ := of_stateBind h
      obtain ⟨others, p₄, hothers, h⟩ := of_stateBind h
      obtain ⟨heq, rfl⟩ := statePure_eq_ok.mp h
      cases heq
      obtain ⟨blendCode, hblendCode, rfl, rfl⟩ := command_eq_ok hblend
      obtain ⟨code, hcode, rfl, rfl, rfl⟩ := heading_eq_ok hhead
      rw [append_assoc _ first]
      refine .otherwise ?_ hblendCode hcode (.cons (ihfirst _ _ _ hfirst) (ihothers _ _ _ hothers))
      intro line test body elseBody heq
      cases heq
      exact hne _ _ _ _ rfl rfl
    · exact hne
  case nil =>
    intro depth p commands p' h
    obtain ⟨rfl, rfl⟩ := statePure_eq_ok.mp h
    exact .nil
  case cons =>
    intro depth s rest ihs ihrest p commands p' h
    obtain ⟨first, p₁, hfirst, h⟩ := of_stateBind h
    obtain ⟨others, p₂, hothers, h⟩ := of_stateBind h
    obtain ⟨rfl, rfl⟩ := statePure_eq_ok.mp h
    exact .cons (ihs _ _ _ hfirst) (ihrest _ _ _ hothers)

/-- A list of statements that compiles follows the rules. -/
theorem compiledStatements_of_statements (h : statements c depth body p = .ok (commands, p')) :
    CompiledStatements c depth p body commands p' :=
  compiledStatements_all.2.2 depth body p commands p' h

end NovelScript
