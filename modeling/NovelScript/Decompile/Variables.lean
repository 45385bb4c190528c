import NovelScript.Position
import NovelScript.Table.Catalogue
import NovelScript.Table.Variables

/-!
# Names for variables

Compiled scripts know variables by their numbers only. A decompiler gives each variable a name that
tells its scope, its type and its number. Variables of the system get the names of the compiler
catalogue, if one is at hand.
-/

namespace NovelScript

/-! ## Names -/

def Scope.letter : Scope → String
  | temporary => "l"
  | global => "g"
  | static => "s"
  | folder => "f"

def Extension.digit : Extension → String
  | system | declared => ""
  | second => "2"
  | third => "3"

def systemName : String := "__Sys"

/-- The name of a variable by what it is. -/
def nameOf (scope : Scope) (extension : Extension) (number : Int) (type : ValueType) :
    Except Fault String :=
  if extension = .system then do
    require (number < firstUserNumber) Condition.systemNumber
    return systemName ++ toString number
  else .ok (scope.letter ++ extension.digit ++ type.label ++ toString number)

def Variable.name (v : Variable) : Except Fault String :=
  match v.init with
  | none => .error Condition.typedVariable
  | some init => nameOf v.scope v.extension v.number init.type

/-- A variable with its name. -/
structure NamedVariable where
  name : String
  entry : Variable
  deriving DecidableEq

/-- The variables of a table by their numbers. A number without a variable of a known type has
none. -/
abbrev VariableNames := List (Option NamedVariable)

namespace VariableNames

def greatest : List Int → Except Fault Int
  | [] => .error Cause.noGreatest
  | n :: rest => .ok (rest.foldl max n)

def named? (v : Variable) : Except Fault (Option NamedVariable) :=
  match v.init with
  | none => .ok none
  | some _ => do return some ⟨← v.name, v⟩

/-- Enters a variable. -/
def put (names : VariableNames) (v : Variable) : Except Fault VariableNames := do
  let n ← named? v
  let i ← orFault (position? names.length v.number) (Cause.pastEnd v.number)
  return names.set i n

/-- The names of a table. -/
def ofTable (known : List Variable) : Except Fault VariableNames := do
  let last ← greatest (known.map Variable.number)
  known.foldlM put (List.replicate (last + 1).toNat none)

/-- Whether a catalogue name is used: it starts with a capital, a digit or an underscore. -/
def isGoodName (name : String) : Bool :=
  match name.toList with
  | c :: _ => ('A' ≤ c && c ≤ 'Z') || ('0' ≤ c && c ≤ '9') || c == '_'
  | [] => false

/-- Takes the name of an entry of the catalogue, which must describe the variable of the number. -/
def rename (names : VariableNames) (i : Nat) (v : Catalogue.SystemVariable) :
    Except Fault VariableNames := do
  let slot ← orFault names[i]? (Cause.pastEnd i)
  let n ← orFault slot Condition.catalogueEntry
  require (systemName.toList.isPrefixOf n.name.toList) Condition.catalogueEntry
  require (n.entry.type == v.type) Condition.catalogueEntry
  require (n.entry.dims == v.dims) Condition.catalogueEntry
  return if isGoodName v.name then names.set i (some { n with name := v.name }) else names

/-- Takes names from a catalogue. -/
def useCatalogue (names : VariableNames) (catalogued : List Catalogue.SystemVariable) :
    Except Fault VariableNames :=
  catalogued.zipIdx.foldlM (fun names (v, i) => names.rename i v) names

def find? (names : VariableNames) (number : Int) : Except Fault (Option NamedVariable) :=
  if (names.length : Int) ≤ number then .ok none
  else orFault (itemAt? names number) (Cause.pastEnd number)

end VariableNames

/-! ## Temporary variables -/

/-- The temporary variables that a script has defined, by their numbers: their names and types. -/
abbrev Temporaries := List (Int × String × ValueType)

/-- Defines a temporary variable. -/
def Temporaries.define (locals : Temporaries) (names : VariableNames) (number : Int)
    (name : Except Fault String) (type : ValueType) : Except Fault Temporaries := do
  require (← names.find? number).isNone (Violation.redefinedNonlocal number)
  require (locals.lookup number).isNone (Violation.redefinedLocal number)
  return (number, ← name, type) :: locals

/-- The name and the type of a number. -/
def variableAt (names : VariableNames) (locals : Temporaries) (number : Int) :
    Except Fault (String × ValueType) := do
  match ← names.find? number with
  | some n => return (n.name, n.entry.type)
  | none => orFault (locals.lookup number) (Cause.unknownNumber number)

end NovelScript
