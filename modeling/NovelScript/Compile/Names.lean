import NovelScript.Compile.Declaration
import NovelScript.Table.Commands

/-!
# Names in a script

Inside a script a name stands for a temporary or static variable that the script defines, for a
variable of the system, or for one declared outside. What is not the system's gets a symbol: its
position in the symbol list, counted from the first user number, stands in the instructions until
the script is linked.
-/

namespace NovelScript

/-- The commands of scripts, and the names that scripts can use without defining
them. -/
structure Vocabulary where
  commands : List CommandInfo
  system : List (String × ValueType × Int) := []
  globals : List (String × ValueType) := []
  folders : List (String × ValueType) := []

namespace Vocabulary

/-- The code of a command and the command itself; of commands with one name, the last. -/
def command? (v : Vocabulary) (name : String) : Option (CommandInfo × Nat) :=
  v.commands.zipIdx.reverse.find? fun (c, _) => c.name == name

/-- The type of a variable that is declared outside. A folder variable of unknown type does not
hide a global one. -/
def declaredType? (v : Vocabulary) (name : String) : Option ValueType :=
  match v.folders.lookup name with
  | some .unknown | none => v.globals.lookup name
  | some type => some type

end Vocabulary

/-- The position of the argument of a name; of arguments with one name, the last. -/
def CommandInfo.argument? (c : CommandInfo) (name : String) : Option Nat :=
  (c.parameters.zipIdx.reverse.find? fun (p, _) => p.name == name).map Prod.snd

/-- What a number of a script stands for until it is linked. -/
inductive Symbol where
  | definition (declared : Declared)
  | reference (name : String)
  | temporary
  deriving DecidableEq

/-- The names of a script so far. -/
structure Names where
  symbols : List Symbol := []
  temporaries : List (String × ValueType × Int) := []
  statics : List (String × ValueType × Int) := []
  references : List (String × ValueType × Int) := []

namespace Names

/-- The number of the next symbol. -/
def nextNumber (n : Names) : Int := firstUserNumber + n.symbols.length

/-- The type and the number of a name. -/
def find? (n : Names) (v : Vocabulary) (name : String) : Option (ValueType × Int) :=
  n.temporaries.lookup name <|> n.statics.lookup name <|> n.references.lookup name <|>
    v.system.lookup name

/-- The type and the number that a name stands for. The first use of an outer variable makes a
symbol for it. -/
def resolve (n : Names) (v : Vocabulary) (name : String) :
    Except Fault ((ValueType × Int) × Names) :=
  match n.find? v name with
  | some found => .ok (found, n)
  | none => do
    let type ← orFault (v.declaredType? name) (Cause.unknownVariable name)
    let found := (type, n.nextNumber)
    return (found, { n with
      symbols := .reference name :: n.symbols, references := (name, found) :: n.references })

def addStatic (n : Names) (d : Declared) : Names :=
  { n with
    symbols := .definition d :: n.symbols
    statics := (d.name, d.value.type, n.nextNumber) :: n.statics }

/-- Adds a temporary variable, which may take a name again. -/
def addTemporary (n : Names) (name : String) (type : ValueType) : Names :=
  { n with
    symbols := .temporary :: n.symbols
    temporaries := (name, type, n.nextNumber) :: n.temporaries }

end Names

end NovelScript
