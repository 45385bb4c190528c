import NovelScript.Decompile.Basic
import NovelScript.Decompile.Blocks

/-!
# Decompiling to the block language

The commands of a script become statements again. Commands that open, continue and close blocks
give the statements their nesting, labels are assigned before the statement of their command, and
every other command becomes a call, or an assignment if it stores a value.
-/

namespace NovelScript

/-- What a command does in blocks. -/
inductive BlockRole where
  | condition | otherwise | closeChain | blend | loop | closeLoop
  | evaluate
  | text
  | textEnd
  deriving DecidableEq

def BlockRole.names : List (String × Option BlockRole) :=
  [("IF", some .condition), ("ELSE", some .otherwise), ("IFEND", some .closeChain),
   ("IFBLEND", some .blend), ("LOOP", some .loop), ("LOOPEND", some .closeLoop),
   ("_", some .evaluate), ("WORD", some .text), ("RETURNCODE", some .textEnd)]

def Assignment.binary : Assignment → BinaryOp
  | set | add => .add
  | sub => .sub
  | mul => .mul
  | div => .div
  | mod => .mod
  | bitAnd => .bitAnd
  | bitOr => .bitOr
  | bitXor => .bitXor

def keywordOf (argument : String) : String := if argument == "#" then "LBL" else argument

def labelStatement (name : Wording) : Stmt := .assign 0 [.name "LBL"] (.text name)

/-- The statements so far. -/
structure StatementState where
  blocks : OpenBlocks := {}
  locals : Temporaries := []

namespace StatementState

def add (s : StatementState) (statement : Stmt) : StatementState :=
  { s with blocks := s.blocks.add [statement] }

end StatementState

namespace Decompiler

def expr (d : Decompiler) (locals : Temporaries) (code : List Instr) : Except Fault Expr :=
  decompileExpr (d.context locals) Dialect.blocks code

/-! ## Blocks -/

/-- Shows a command with a role. -/
def roleStatement (d : Decompiler) (s : StatementState) (c : Command) :
    BlockRole → Except Fault StatementState
  | .condition => do
    let test ← d.expr s.locals (← c.firstCode 3)
    return { s with blocks := s.blocks.openChain test }
  | .otherwise =>
    if c.arguments.length = 3 then do
      s.blocks.requireCondition
      let test ← d.expr s.locals (← c.firstCode 3)
      return { s with blocks := ← s.blocks.elseIf test }
    else do
      c.requireBare
      s.blocks.requireCondition
      return { s with blocks := ← s.blocks.otherwise }
  | .closeChain => do
    c.requireBare
    return { s with blocks := ← s.blocks.closeChain }
  | .blend => do
    c.requireBare
    s.blocks.requireCondition
    return s
  | .loop => do
    let test ← d.expr s.locals (← c.firstCode 2)
    return { s with blocks := s.blocks.openLoop test }
  | .closeLoop => do
    c.requireBare
    return { s with blocks := ← s.blocks.closeInnerLoop }
  | .evaluate => do
    let e ← d.expr s.locals (← c.firstCode 1)
    return s.add (.expression 0 (.subscript (.name "_") e))
  | .text => do return s.add (.expression 0 (.text (.ofString (← c.onlyText))))
  | .textEnd => do return s.add (.expression 0 (.yield (some (.int (← c.onlyNumber)))))

/-! ## Stored values -/

/-- The target of an assignment. -/
def storeTarget : Expr → Except Fault Expr
  | .attribute base suffix => .ok (.attribute base suffix)
  | .call function arguments keywords =>
    .ok (.subscript (.name "LET") (.call function arguments keywords))
  | _ => .error Condition.assignable

/-- Shows an assignment. -/
def storeStatement (d : Decompiler) (s : StatementState) (c : Command) :
    Except Fault StatementState := do
  let store ← StoreCommand.ofCommand c
  let info ← d.command c.code
  let locals ← d.defineTemporary info.name store s.locals
  let target ← d.expr locals store.target
  let value ← d.expr locals store.value
  let s := { s with locals }
  if ((← d.commands.code "LET") : Int) == c.code then
    let target ← storeTarget target
    if store.assignment == .set then return s.add (.assign 0 [target] value)
    else return s.add (.augment 0 target store.assignment.binary value)
  else
    let target := Expr.subscript (.name info.name) target
    if ← d.omitsValue store locals then return s.add (.expression 0 target)
    else return s.add (.assign 0 [target] value)

/-! ## Calls -/

/-- The keyword of an argument, its expression, and how the value is stored. -/
def callArgument (d : Decompiler) (locals : Temporaries) (info : CommandInfo) (a : Argument) :
    Except Fault (String × Expr × Assignment) := do
  let code ← a.code
  let parameter ← orFault (itemAt? info.parameters a.id) (Cause.pastEnd a.id)
  require (!parameter.name.isEmpty) Condition.argumentName
  return (keywordOf parameter.name, ← d.expr locals code, a.assignment)

/-- Shows a call. -/
def callStatement (d : Decompiler) (s : StatementState) (c : Command) :
    Except Fault StatementState := do
  let info ← d.command c.code
  let arguments ← c.arguments.mapM (d.callArgument s.locals info)
  let call := Expr.call (.name info.name) [] <| arguments.map fun (k, e, assignment) =>
    (some k, if assignment == .set then e else .name "_")
  let body := arguments.filterMap fun (k, e, assignment) =>
    if assignment == .set then none else some (.augment 0 (.name k) assignment.binary e)
  if body.isEmpty then return s.add (.expression 0 call)
  else return s.add (.context 0 [(call, none)] body)

/-! ## Scripts -/

/-- Shows a command. -/
def statementOf (d : Decompiler) (s : StatementState) (c : Command) :
    Except Fault StatementState := do
  match ← d.firstNamed c.code BlockRole.names with
  | some role => d.roleStatement s c role
  | none =>
    if ← d.isStore c.code then d.storeStatement s c
    else d.callStatement s c

/-- Shows a command with its labels. -/
def labelledStatement (d : Decompiler) (script : Option Nat) (s : StatementState) (c : Command) :
    Labelling StatementState := do
  let labels ← WaitingLabels.take script c.offset
  ofResult (d.statementOf { s with blocks := s.blocks.add (labels.map labelStatement) } c)

/-- The statements of a script. -/
def statements (d : Decompiler) (number : Int) (script : Script) : Labelling (List Stmt) := do
  require (script.version == d.version) (Violation.scriptVersion script.version d.version)
  let own ← ofResult (d.labelledScript number)
  let s ← script.commands.foldlM (d.labelledStatement own) {}
  return s.blocks.statements

def blockSource (d : Decompiler) (number : Int) (script : Script) : Labelling String := do
  return renderSource (← d.statements number script)

end Decompiler

end NovelScript
