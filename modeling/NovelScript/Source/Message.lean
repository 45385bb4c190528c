import NovelScript.Source.Printer
import NovelScript.Text.Numeral

/-!
# Source in messages

A message that refuses an expression or a statement shows its source. A whole number with too many
digits cannot be written, and then that is what fails in the place of the message.
-/

namespace NovelScript

/-- Whether a constant is a whole number with too many digits to be written. -/
def Constant.isUnwritable : Constant → Bool
  | int n => Text.tooLong ≤ n.natAbs
  | _ => false

mutual

/-- Whether a number is too long to be shown. -/
def Expr.isUnwritable : Expr → Bool
  | .const c => c.isUnwritable
  | .name _ => false
  | .attribute base _ => base.isUnwritable
  | .call function arguments keywords =>
    function.isUnwritable || anyUnwritable arguments || anyKeywordUnwritable keywords
  | .subscript base index => base.isUnwritable || index.isUnwritable
  | .unary _ operand => operand.isUnwritable
  | .binary left _ right => left.isUnwritable || right.isUnwritable
  | .compare left rest => left.isUnwritable || anyComparedUnwritable rest
  | .logic _ operands => anyUnwritable operands
  | .conditional test body elseBody =>
    test.isUnwritable || body.isUnwritable || elseBody.isUnwritable
  | .lambda body => body.isUnwritable
  | .tuple items => anyUnwritable items
  | .list items => anyUnwritable items
  | .set items => anyUnwritable items
  | .mapping items => anyPairUnwritable items
  | .yield none => false
  | .yield (some value) => value.isUnwritable

def anyUnwritable : List Expr → Bool
  | [] => false
  | e :: rest => e.isUnwritable || anyUnwritable rest

def anyKeywordUnwritable : List (Option String × Expr) → Bool
  | [] => false
  | (_, e) :: rest => e.isUnwritable || anyKeywordUnwritable rest

def anyComparedUnwritable : List (CompareOp × Expr) → Bool
  | [] => false
  | (_, e) :: rest => e.isUnwritable || anyComparedUnwritable rest

def anyPairUnwritable : List (Expr × Expr) → Bool
  | [] => false
  | (key, value) :: rest => key.isUnwritable || value.isUnwritable || anyPairUnwritable rest

end

def contextUnwritable : Expr × Option Expr → Bool
  | (value, target) => value.isUnwritable || target.any Expr.isUnwritable

mutual

/-- Whether a statement has such a number. -/
def Stmt.isUnwritable : Stmt → Bool
  | .pass _ | .stop _ | .next _ => false
  | .expression _ value => value.isUnwritable
  | .assign _ targets value => anyUnwritable targets || value.isUnwritable
  | .augment _ target _ value => target.isUnwritable || value.isUnwritable
  | .branch _ test body elseBody =>
    test.isUnwritable || anyStatementUnwritable body || anyStatementUnwritable elseBody
  | .loop _ test body elseBody =>
    test.isUnwritable || anyStatementUnwritable body || anyStatementUnwritable elseBody
  | .context _ items body => items.any contextUnwritable || anyStatementUnwritable body
  | .iterate _ target source body elseBody =>
    target.isUnwritable || source.isUnwritable || anyStatementUnwritable body ||
      anyStatementUnwritable elseBody
  | .leave _ value => value.any Expr.isUnwritable
  | .delete _ targets => anyUnwritable targets

def anyStatementUnwritable : List Stmt → Bool
  | [] => false
  | s :: rest => s.isUnwritable || anyStatementUnwritable rest

end

/-- The text of an expression in messages. -/
def Expr.written (e : Expr) : Except Fault String :=
  if e.isUnwritable then .error Cause.longNumber else .ok e.source

/-- A failure that shows an expression. -/
def Expr.fault (e : Expr) (violation : String → Violation) : Fault :=
  if e.isUnwritable then Cause.longNumber else violation e.source

/-- A failure that shows a statement. -/
def Stmt.fault (s : Stmt) (violation : String → Violation) : Fault :=
  if s.isUnwritable then Cause.longNumber else violation s.source

end NovelScript
