import NovelScript.Decompile.Statements
import NovelScript.Proofs.Decompile.Blocks
import NovelScript.Proofs.Decompile.Expression

/-!
# Restored scripts

What a script becomes when it is compiled, linked and decompiled can be said without any of these:
`restoreAll` goes through the statements and writes them again. Statements keep their order and
their nesting. What changes is this:

* Variables get the names of the decompiler; a temporary one is named by its number, and a new one
  with each definition (`Renaming`).
* Empty statements are gone, and stand only where a block would be empty (`orPass`).
* A label stands before the command that it marks, and labels of one command stand in the order of
  the label table (`Restoring`).
* A definition tells its value, unless it is the empty text of a static variable. The assignments
  in the body of a call stand in the order of its keywords.
-/

namespace NovelScript

/-! ## Names -/

/-- The name that the decompiler gives a temporary variable. -/
def temporaryName (type : ValueType) (number : Nat) : String :=
  Scope.temporary.letter ++ Extension.declared.digit ++ type.label ++ toString (number : Int)

/-- New names for the variables of a script. -/
structure Renaming where
  /-- The names of the variables that are not temporary. -/
  outer : String → String
  /-- The names of temporary variables, latest first. -/
  temporaries : List (String × String) := []
  /-- The numbers of the temporary variables that are still to be defined. -/
  upcoming : List Nat := []

namespace Renaming

/-- The name that a variable is shown by. -/
def name (ρ : Renaming) (x : String) : String := (ρ.temporaries.lookup x).getD (ρ.outer x)

/-- A temporary variable is defined, and may take a name again. -/
def define (ρ : Renaming) (x : String) (type : ValueType) : Renaming :=
  match ρ.upcoming with
  | [] => ρ
  | number :: rest =>
    { ρ with
      temporaries := (x, temporaryName type number) :: ρ.temporaries
      upcoming := rest }

end Renaming

/-- The temporary variable that a command defines. -/
def temporaryOf? (command : String) (target : Expr) : Option (String × ValueType) :=
  match DeclarationCommand.ofName? command with
  | some d =>
    if d.scope = .temporary then
      match declaredTarget d.type target with
      | .ok (name, _) => some (name, d.type)
      | .error _ => none
    else none
  | none => none

/-- The temporary variable that a statement defines. -/
def Stmt.temporary? : Stmt → Option (String × ValueType)
  | .expression _ (.subscript (.name command) target) => temporaryOf? command target
  | .assign _ [.subscript (.name command) target] _ => temporaryOf? command target
  | _ => none

/-- The names after a temporary variable is defined, if one is. -/
def Renaming.defineAny (ρ : Renaming) : Option (String × ValueType) → Renaming
  | some (x, type) => ρ.define x type
  | none => ρ

/-- The names that are shown behind a statement. -/
def Renaming.after (ρ : Renaming) (s : Stmt) : Renaming := ρ.defineAny s.temporary?

/-! ## Statements without blocks -/

/-- Whether a value is the one that its variable starts with. -/
def startsEmpty (d : DeclarationCommand) (value : Expr) : Bool :=
  d.scope == .static && match declaredValue d.type (some value) with
    | .ok (.text w) => w.isEmpty
    | _ => false

/-- A definition as it is shown. -/
def restoredDefinition (ρ : String → String) (d : DeclarationCommand) (command : String)
    (target value : Expr) : Stmt :=
  let written := Expr.subscript (.name command) (target.restored ρ)
  if startsEmpty d value then .expression 0 written else .assign 0 [written] (value.restored ρ)

/-- The target of an assignment as it is shown. -/
def writtenTarget : Expr → Expr
  | .call function arguments keywords =>
    .subscript (.name "LET") (.call function arguments keywords)
  | target => target

/-- What fills the place of a keyword. -/
def fillFor? (keyword : Option String) : List Stmt → Option (String × BinaryOp × Expr)
  | [] => none
  | .augment _ (.name x) op e :: rest =>
    if keyword = some x then some (x, op, e) else fillFor? keyword rest
  | _ :: rest => fillFor? keyword rest

/-- A call with a body as it is decompiled: the body stands in the order of the keywords. -/
def restoredCall (ρ : String → String) (function : Expr) (keywords : List (Option String × Expr))
    (body : List Stmt) : Stmt :=
  let call := Expr.call function [] (restoredKeywords ρ keywords)
  let fills := keywords.filterMap fun (k, _) =>
    (fillFor? k body).map fun (x, op, e) => Stmt.augment 0 (.name x) op (e.restored ρ)
  if fills.isEmpty then .expression 0 call else .context 0 [(call, none)] fills

/-- A statement without blocks as it is decompiled. -/
def Stmt.restoredLine (ρ : String → String) : Stmt → Stmt
  | .expression _ (.subscript (.name command) target) =>
    match DeclarationCommand.ofName? command with
    | some d => restoredDefinition ρ d command target (Compiling.initialExpr d.type)
    | none => .expression 0 (.subscript (.name command) (target.restored ρ))
  | .expression _ e => .expression 0 (e.restored ρ)
  | .assign _ [.subscript (.name command) target] value =>
    match DeclarationCommand.ofName? command with
    | some d => restoredDefinition ρ d command target value
    | none => .assign 0 [writtenTarget (target.restored ρ)] (value.restored ρ)
  | .assign _ [target] value => .assign 0 [writtenTarget (target.restored ρ)] (value.restored ρ)
  | .augment _ target op value =>
    .augment 0 (writtenTarget ((Compiling.augmentedTarget target).restored ρ)) op (value.restored ρ)
  | .context _ [(.call function _ keywords, _)] body => restoredCall ρ function keywords body
  | s => s

/-! ## Scripts -/

/-- What is known while statements are restored: the names, and the labels that wait for a
command. -/
structure Restoring where
  names : Renaming
  pending : List Wording := []

/-- The statements of labels that wait, in an order. -/
def pendingLabels (order pending : List Wording) : List Stmt :=
  (order.filter fun name => pending.contains name).map labelStatement

/-- The label that a statement sets. -/
def Stmt.label? : Stmt → Option Wording
  | .assign _ [.name "LBL"] (.const (.text name _)) => some name
  | _ => none

/-- A statement without blocks, with the labels before it. -/
def Stmt.restoreLine (order : List Wording) (r : Restoring) (s : Stmt) : List Stmt × Restoring :=
  match s.label? with
  | some name => ([], { r with pending := name :: r.pending })
  | none =>
    let ρ := r.names.after s
    (pendingLabels order r.pending ++ [s.restoredLine ρ.name], ⟨ρ, []⟩)

/-- The statements of a block at its end, where labels may wait. -/
def closeBlock (order : List Wording) (block : List Stmt × Restoring) : List Stmt × Renaming :=
  (orPass (block.1 ++ pendingLabels order block.2.pending), block.2.names)

mutual

/-- A statement as it is decompiled, with the labels before it. -/
def Stmt.restore (order : List Wording) (r : Restoring) : Stmt → List Stmt × Restoring
  | .pass _ => ([], r)
  | .branch _ test body elseBody =>
    let first := closeBlock order (restoreAll order ⟨r.names, []⟩ body)
    let other := if elseBody.isEmpty then ([], first.2)
      else closeBlock order (restoreAll order ⟨first.2, []⟩ elseBody)
    (pendingLabels order r.pending ++ [.branch 0 (test.restored r.names.name) first.1 other.1],
      ⟨other.2, []⟩)
  | .loop _ test body _ =>
    let inside := closeBlock order (restoreAll order ⟨r.names, []⟩ body)
    (pendingLabels order r.pending ++ [.loop 0 (test.restored r.names.name) inside.1 []],
      ⟨inside.2, []⟩)
  | s => s.restoreLine order r

/-- Statements as they are shown. -/
def restoreAll (order : List Wording) (r : Restoring) : List Stmt → List Stmt × Restoring
  | [] => ([], r)
  | s :: rest =>
    let first := s.restore order r
    let others := restoreAll order first.2 rest
    (first.1 ++ others.1, others.2)

end

/-! ## Plain scripts -/

/-- Whether a command is called by its name and has no statement of its own. -/
def isCallable (name : String) : Bool :=
  !(("LET" :: BlockRole.names.map Prod.fst).contains name) &&
    (DeclarationCommand.ofName? name).isNone

/-- Whether a keyword can be written, with a value that is plain. -/
def keywordIsPlain (version : Int) (given : Option String × Expr) : Bool :=
  given.1 != some "" && given.1 != some "#" && given.2.isPlain version

/-- Whether an expression is a variable or an element of one. -/
def Expr.isReference : Expr → Bool
  | .attribute _ _ => true
  | .call (.attribute _ _) _ _ => true
  | _ => false

/-- Whether a target is a variable, or an element of one, that a value can be stored in. -/
def targetIsPlain (version : Int) (target : Expr) : Bool :=
  target.isReference && target.isPlain version

/-- A filled place is plain. -/
def Stmt.fillIsPlain (version : Int) : Stmt → Bool
  | .augment _ _ _ value => value.isPlain version
  | _ => false

/-- Whether a statement without blocks is plain: a text or its end, a label, a definition, a stored
value, or a call of a command that has no statement of its own. -/
def Stmt.lineIsPlain (version : Int) : Stmt → Bool
  | .expression _ (.const (.text _ _)) => true
  | .expression _ (.yield (some (.const _))) => true
  | .expression _ (.subscript (.name _) target) => target.isPlain version
  | .expression _ (.call (.name name) [] keywords) =>
    isCallable name && keywords.all (keywordIsPlain version)
  | .assign _ [.name "LBL"] _ => true
  | .assign _ [.subscript (.name "LET") target] value =>
    targetIsPlain version target && value.isPlain version
  | .assign _ [.subscript (.name _) target] value =>
    target.isPlain version && value.isPlain version
  | .assign _ [target] value => targetIsPlain version target && value.isPlain version
  | .augment _ target _ value =>
    targetIsPlain version (Compiling.augmentedTarget target) && value.isPlain version
  | .context _ [(.call (.name name) [] keywords, none)] body =>
    isCallable name && keywords.all (keywordIsPlain version) && body.all (Stmt.fillIsPlain version)
  | _ => false

mutual

/-- Whether a statement is plain, so that it can be restored. -/
def Stmt.isPlain (version : Int) : Stmt → Bool
  | .pass _ => true
  | .branch _ test body elseBody =>
    test.isPlain version && allArePlain version body && allArePlain version elseBody
  | .loop _ test body elseBody =>
    test.isPlain version && allArePlain version body && elseBody.isEmpty
  | s => s.lineIsPlain version

/-- All statements are plain. -/
def allArePlain (version : Int) : List Stmt → Bool
  | [] => true
  | s :: rest => s.isPlain version && allArePlain version rest

end

end NovelScript
