import NovelScript.Fault
import NovelScript.Source.Syntax

/-!
# Open blocks

While the commands of a script are read, some blocks are open. Their statement lists are kept apart,
innermost first and each with the latest statement first, and beside them the commands that opened
them. The statement that a list belongs to is the latest one of the list around it, and gets the
list when the block is closed.

A chain of conditions holds two entries once a second branch has begun: the opening condition, and
above it the branch. While a further condition of the chain is open there is one list more, for the
statement of that condition alone.
-/

namespace NovelScript

/-- What an open block is. -/
inductive Control where
  | opening
  | elseIf
  | otherwise
  | loop
  deriving DecidableEq

/-- The blocks that are open. -/
structure OpenBlocks where
  /-- The statement lists, innermost first, down to that of the whole script. Each has its latest
  statement first. -/
  lists : List (List Stmt) := [[]]
  controls : List Control := []

/-- The body of a block that is closed, which has at least one statement. -/
def bodyOf (latestFirst : List Stmt) : List Stmt :=
  if latestFirst.isEmpty then [.pass 0] else latestFirst.reverse

/-! ## Giving lists to their statements -/

/-- Changes the latest statement that can be changed. -/
def changeLatest (f : Stmt → Option Stmt) : List Stmt → Option (List Stmt)
  | [] => none
  | s :: earlier => (f s).map (· :: earlier)

def Stmt.withBranchBody (body : List Stmt) : Stmt → Option Stmt
  | .branch line test _ elseBody => some (.branch line test body elseBody)
  | _ => none

def Stmt.withLoopBody (body : List Stmt) : Stmt → Option Stmt
  | .loop line test _ elseBody => some (.loop line test body elseBody)
  | _ => none

mutual

/-- Gives the innermost condition of a chain its other branch. -/
def Stmt.withElse (elseBody : List Stmt) : Stmt → Option Stmt
  | .branch line test body [] => some (.branch line test body elseBody)
  | .branch line test body (first :: rest) =>
    (lastWithElse elseBody (first :: rest)).map (.branch line test body)
  | _ => none

def lastWithElse (elseBody : List Stmt) : List Stmt → Option (List Stmt)
  | [] => none
  | [s] => (s.withElse elseBody).map fun t => [t]
  | s :: t :: rest => (lastWithElse elseBody (t :: rest)).map (s :: ·)

end

/-- Puts a body into the latest condition. -/
def closeBranch (parent body : List Stmt) : Except Fault (List Stmt) :=
  orFault (changeLatest (Stmt.withBranchBody body) parent) Condition.blockKind

/-- Puts a body into the latest loop. -/
def closeLoop (parent body : List Stmt) : Except Fault (List Stmt) :=
  orFault (changeLatest (Stmt.withLoopBody body) parent) Condition.blockKind

/-- Closes the other branch of the latest statement, which is a chain of conditions. -/
def closeElse (parent elseBody : List Stmt) : Except Fault (List Stmt) :=
  orFault (changeLatest (Stmt.withElse elseBody) parent) Condition.blockKind

namespace OpenBlocks

/-! ## Adding statements -/

def add (b : OpenBlocks) (statements : List Stmt) : OpenBlocks :=
  match b.lists with
  | [] => { b with lists := [statements.reverse] }
  | innermost :: rest => { b with lists := (statements.reverse ++ innermost) :: rest }

def openWith (b : OpenBlocks) (control : Control) (owner : Stmt) : OpenBlocks :=
  let around := b.add [owner]
  ⟨[] :: around.lists, control :: b.controls⟩

def openChain (b : OpenBlocks) (test : Expr) : OpenBlocks :=
  b.openWith .opening (.branch 0 test [] [])

def openLoop (b : OpenBlocks) (test : Expr) : OpenBlocks :=
  b.openWith .loop (.loop 0 test [] [])

/-! ## Going on -/

def requireCondition (b : OpenBlocks) : Except Fault Unit :=
  match b.controls with
  | [] => .error Cause.emptyStack
  | top :: _ => require (top == .opening || top == .elseIf) Condition.blockKind

/-- Closes the body of a condition. -/
def closeCondition (b : OpenBlocks) : Except Fault OpenBlocks :=
  match b.controls, b.lists with
  | .opening :: controls, body :: parent :: rest => do
    return ⟨(← closeBranch parent (bodyOf body)) :: rest, controls⟩
  | .elseIf :: .opening :: controls, body :: chain :: parent :: rest => do
    let branch ← closeBranch chain (bodyOf body)
    return ⟨(← closeElse parent branch.reverse) :: rest, controls⟩
  | [], _ => .error Cause.emptyStack
  | _, _ => .error Condition.blockKind

/-- Goes on with another condition. -/
def elseIf (b : OpenBlocks) (test : Expr) : Except Fault OpenBlocks := do
  let around ← b.closeCondition
  return ⟨[] :: [.branch 0 test [] []] :: around.lists, .elseIf :: .opening :: around.controls⟩

/-- Goes on with a last branch. -/
def otherwise (b : OpenBlocks) : Except Fault OpenBlocks := do
  let around ← b.closeCondition
  return ⟨[] :: around.lists, .otherwise :: .opening :: around.controls⟩

/-! ## Closing -/

/-- Closes a chain. -/
def closeChain (b : OpenBlocks) : Except Fault OpenBlocks :=
  match b.controls, b.lists with
  | .otherwise :: .opening :: controls, body :: parent :: rest => do
    return ⟨(← closeElse parent (bodyOf body)) :: rest, controls⟩
  | _, _ => b.closeCondition

def closeInnerLoop (b : OpenBlocks) : Except Fault OpenBlocks :=
  match b.controls, b.lists with
  | .loop :: controls, body :: parent :: rest => do
    return ⟨(← closeLoop parent (bodyOf body)) :: rest, controls⟩
  | [], _ => .error Cause.emptyStack
  | _, _ => .error Condition.blockKind

/-- The statements of the whole script. Blocks that are still open keep what they have. -/
def finish : List Control → List (List Stmt) → List Stmt
  | .opening :: controls, body :: parent :: rest =>
    finish controls (((changeLatest (Stmt.withBranchBody body.reverse) parent).getD parent) :: rest)
  | .elseIf :: .opening :: controls, body :: chain :: parent :: rest =>
    let branch := (changeLatest (Stmt.withBranchBody body.reverse) chain).getD chain
    finish controls (((changeLatest (Stmt.withElse branch.reverse) parent).getD parent) :: rest)
  | .otherwise :: .opening :: controls, body :: parent :: rest =>
    finish controls (((changeLatest (Stmt.withElse body.reverse) parent).getD parent) :: rest)
  | .loop :: controls, body :: parent :: rest =>
    finish controls (((changeLatest (Stmt.withLoopBody body.reverse) parent).getD parent) :: rest)
  | _, root :: _ => root.reverse
  | _, [] => []

/-- The statements, with open blocks closed. -/
def statements (b : OpenBlocks) : List Stmt := finish b.controls b.lists

end OpenBlocks

end NovelScript
