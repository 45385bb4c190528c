import NovelScript.Source.Constant
import NovelScript.Table.Variables

/-!
# Declarations of variables

A variable is declared by a command that names its scope, extension and type, with the variable as
index: its name, the suffix of its type, and its dimensions if it is an array. A value may be
assigned; without one a variable starts as zero or as the empty text.

A declaration file holds the declarations of one scope, and nothing else.
-/

namespace NovelScript

/-! ## Declaration commands -/

/-- A command that declares variables. -/
structure DeclarationCommand where
  scope : Scope
  extension : Extension
  type : ValueType
  deriving DecidableEq

namespace DeclarationCommand

def types : List ValueType := [.int, .float, .text]

/-- All commands that declare. -/
def all : List DeclarationCommand :=
  types.map (⟨.temporary, .declared, ·⟩) ++
    types.flatMap (fun t => [⟨.global, .second, t⟩, ⟨.global, .third, t⟩]) ++
    [Scope.global, .static, .folder].flatMap fun s => types.map (⟨s, .declared, ·⟩)

def typeWord : ValueType → String
  | .unknown => "UNK"
  | .int => "INT"
  | .float => "FLT"
  | .text => "STR"

def scopeWord : Scope → String
  | .temporary => ""
  | scope => scope.label ++ "_"

def extensionWord : Extension → String
  | .system | .declared => ""
  | .second => "2"
  | .third => "3"

def name (c : DeclarationCommand) : String :=
  scopeWord c.scope ++ typeWord c.type ++ extensionWord c.extension

def ofName? (name : String) : Option DeclarationCommand := all.find? fun c => c.name == name

end DeclarationCommand

/-! ## Declared variables -/

/-- A dimension as it was written: a number, or a truth value that counts as zero or one. -/
inductive Dimension where
  | number (value : Int)
  | truth (value : Bool)
  deriving DecidableEq

namespace Dimension

def size : Dimension → Int
  | number n => n
  | truth b => if b then 1 else 0

def ofValue? : Value → Option Dimension
  | .int n => some (number n)
  | .bool b => some (truth b)
  | _ => none

end Dimension

/-- A declared value. A float may be declared by a whole number. -/
inductive DeclaredValue where
  | int (value : Int)
  | float (value : Binary64)
  | wholeFloat (value : Int)
  | text (value : Wording)
  deriving DecidableEq

namespace DeclaredValue

def type : DeclaredValue → ValueType
  | int _ => .int
  | float _ | wholeFloat _ => .float
  | text _ => .text

/-- The value that a variable of a type starts with if none is given. -/
def initial : ValueType → DeclaredValue
  | .unknown | .int => int 0
  | .float => float Binary64.zero
  | .text => text ∅

def ofValue? : ValueType → Value → Option DeclaredValue
  | .int, v => v.whole?.map int
  | .float, .float x => some (float x)
  | .float, v => v.whole?.map wholeFloat
  | .text, .text s => some (text s)
  | _, _ => none

end DeclaredValue

/-- A declared variable. -/
structure Declared where
  name : String
  extension : Extension
  dims : List Dimension
  value : DeclaredValue
  deriving DecidableEq

/-! ## Reading declarations -/

def ValueType.suffix : ValueType → String
  | .text => "S"
  | _ => "N"

/-- The name and the dimensions that a target declares. -/
def declaredTarget (type : ValueType) (target : Expr) : Except Fault (String × List Dimension) :=
  match target with
  | .attribute (.name name) suffix => do
    require (suffix == type.suffix) (target.fault Violation.typeSuffix)
    return (name, [])
  | .call (.attribute (.name name) suffix) sizes _ => do
    require (suffix == type.suffix) (target.fault Violation.typeSuffix)
    let values ← sizes.mapM Expr.evaluate
    return (name, ← orFault (values.mapM Dimension.ofValue?) (target.fault Violation.dimensions))
  | _ => .error (target.fault Violation.meaningless)

/-- The value that a variable is declared with. -/
def declaredValue (type : ValueType) : Option Expr → Except Fault DeclaredValue
  | none => .ok (DeclaredValue.initial type)
  | some e => do orFault (DeclaredValue.ofValue? type (← e.evaluate)) Condition.initialValue

/-- The variable of a scope that a command declares with an index and, if there is one, a value. -/
def declaredBy (scope : Scope) (statement : Stmt) (command : String) (target : Expr)
    (value : Option Expr) : Except Fault Declared := do
  let c ← orFault (DeclarationCommand.ofName? command) (Cause.unknownDeclaration command)
  require (c.scope == scope) (statement.fault (Violation.declarationScope scope.label))
  let (name, dims) ← declaredTarget c.type target
  return ⟨name, c.extension, dims, ← declaredValue c.type value⟩

/-- The variable of a scope that a statement declares. An `END` and an empty statement declare
none. -/
def Stmt.declaration (scope : Scope) (statement : Stmt) : Except Fault (Option Declared) :=
  match statement with
  | .expression _ (.subscript (.name command) target) => do
    return some (← declaredBy scope statement command target none)
  | .assign _ [.subscript (.name command) target] value => do
    return some (← declaredBy scope statement command target (some value))
  | .pass _ => .ok none
  | .expression _ (.call (.name "END") _ _) => .ok none
  | _ => .error (statement.fault Violation.notDeclaration)

/-- The variables that a file declares. -/
def declarations (scope : Scope) (statements : List Stmt) : Except Fault (List Declared) := do
  return (← statements.mapM (Stmt.declaration scope)).reduceOption

end NovelScript
