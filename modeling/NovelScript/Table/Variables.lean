import NovelScript.Instruction.Bytecode
import NovelScript.Instruction.Listing
import NovelScript.Table.Header

/-!
# Variable tables

A variable table holds the variables that outlive a call: those of the system, which have the
numbers below a thousand, and those that are declared for the whole game, for a folder or for a
script. Each has dimensions, if it is an array, and an initial value, unless its type is not known.
-/

namespace NovelScript

/-- Where a variable can be seen: a temporary one in the script that defines it and only while that
runs, a static one in its script, a folder one in the scripts of a folder, a global one
everywhere. -/
inductive Scope where
  | temporary | global | static | folder
  deriving DecidableEq

namespace Scope

/-- The stored number of a scope. Temporary variables are not stored. -/
def code : Scope → Int
  | temporary => -1
  | global => 1
  | static => 2
  | folder => 3

def ofCode? (n : Int) : Option Scope :=
  [temporary, global, static, folder].find? fun s => s.code == n

def label : Scope → String
  | temporary => "L"
  | global => "G"
  | static => "S"
  | folder => "F"

end Scope

/-- A finer division of global variables: those of the system, and three kinds of declared ones. -/
inductive Extension where
  | system | declared | second | third
  deriving DecidableEq

namespace Extension

def code : Extension → Nat
  | system => 0
  | declared => 1
  | second => 2
  | third => 3

def ofCode? (n : Nat) : Option Extension :=
  [system, declared, second, third].find? fun e => e.code == n

def label : Extension → String
  | system => "SYS"
  | declared => "DEF"
  | second => "G2"
  | third => "G3"

end Extension

/-- The first number that is not a system variable's. -/
def firstUserNumber : Nat := 1000

/-- An initial value. A text is given by the instructions that make it. -/
inductive Initial where
  | int (value : Int)
  | float (value : Binary64)
  | text (code : List Instr)
  deriving DecidableEq

def Initial.type : Initial → ValueType
  | int _ => .int
  | float _ => .float
  | text _ => .text

/-- A variable of a game. -/
structure Variable where
  scope : Scope
  extension : Extension
  script : Int
  number : Int
  dims : List Int
  init : Option Initial
  deriving DecidableEq

def Variable.type (v : Variable) : ValueType := (v.init.map Initial.type).getD .unknown

/-- The variables of a game. -/
structure VariableTable where
  version : Int
  entries : List Variable
  deriving DecidableEq

namespace VariableTable

def storesExtension (version : Int) : Bool := version ≥ 481

/-! ## Reading -/

/-- Reads the value of a type. -/
def readInitial (codec : Codec) : ValueType → Reader (Option Initial)
  | .unknown => pure none
  | .int => do return some (.int (← Reader.signed 8))
  | .float => do return some (.float (← Reader.double))
  | .text => do
    let bytes ← Reader.take (← Reader.unsigned 2)
    return some (.text (← Reader.ofExcept (Instr.decodeAll codec bytes)))

/-- Reads the dimensions and the value. -/
def readValue (codec : Codec) (typeCode count : Nat) : Reader (List Int × Option Initial) := do
  let dims ← Reader.repeated (Reader.unsigned 4) count
  let type ← Table.valueType typeCode
  return (dims.map Int.ofNat, ← readInitial codec type)

def readScope (code : Nat) : Reader Scope :=
  Reader.ofExcept (orFault (Scope.ofCode? code) (Cause.unknownScope code))

def readExtension (code : Nat) : Reader Extension :=
  Reader.ofExcept (orFault (Extension.ofCode? code) (Cause.unknownExtension code))

def readPlain (codec : Codec) : Reader Variable := do
  let record ← Reader.take 7
  let scope ← readScope (record.field 0 1)
  let number := record.field 3 2
  let extension := if number < firstUserNumber then Extension.system else .declared
  let (dims, init) ← readValue codec (record.field 5 1) (record.field 6 1)
  return ⟨scope, extension, record.field 1 2, number, dims, init⟩

def readExtended (codec : Codec) : Reader Variable := do
  let record ← Reader.take 8
  let number := record.field 4 2
  require (firstUserNumber ≤ number || record.field 1 1 == Extension.system.code)
    Condition.systemExtension
  let scope ← readScope (record.field 0 1)
  let extension ← readExtension (record.field 1 1)
  let (dims, init) ← readValue codec (record.field 6 1) (record.field 7 1)
  return ⟨scope, extension, record.field 2 2, number, dims, init⟩

def readVariable (codec : Codec) (version : Int) : Reader Variable :=
  if storesExtension version then readExtended codec else readPlain codec

def reader (codec : Codec) (given : Option Int) : Reader VariableTable := do
  let (header, version) ← Table.readHeader 10 "YSVR" "YSV" given
  let entries ← Reader.repeated (readVariable codec version) (header.field 8 2)
  Reader.finished version
  return ⟨version, entries⟩

def read (codec : Codec) (given : Option Int) (bytes : Bytes) : Except Fault VariableTable :=
  (reader codec given).runOn bytes

/-! ## Writing -/

def putInitial (codec : Codec) : Option Initial → Except Fault Bytes
  | none => .ok []
  | some (.int n) => orFault (Bytes.signed? 8 n) Cause.overflow
  | some (.float x) => .ok (Bytes.ofNat 8 x.bits.toNat)
  | some (.text code) => do
    let bytes ← Instr.encodeAll codec code
    return (← orFault (Bytes.unsigned? 2 bytes.length) Cause.overflow) ++ bytes

def putVariable (codec : Codec) (version : Int) (v : Variable) : Except Fault Bytes := do
  let extension := if storesExtension version then [(1, (v.extension.code : Int))] else []
  let head ← putRecord ([(1, v.scope.code)] ++ extension ++
    [(2, v.script), (2, v.number), (1, v.type.code), (1, v.dims.length)])
  let dims ← v.dims.mapM fun d => orFault (Bytes.unsigned? 4 d) Cause.overflow
  return head ++ dims.flatten ++ (← putInitial codec v.init)

def write (codec : Codec) (given shown : Option Int) (table : VariableTable) :
    Except Fault Bytes := do
  let version := chosenVersion given table.version
  requireVersion version
  let head ← Table.putHeader "YSVR" shown version
  let count ← putUnsigned 2 table.entries.length
  return head ++ count ++ (← table.entries.mapM (putVariable codec version)).flatten

/-! ## Listing -/

def listInitial : Option Initial → String
  | none => "None"
  | some init =>
    let value := match init with
      | .int n => toString n
      | .float x => x.text
      | .text code => Instr.listAll code
    "(" ++ init.type.listing ++ ", " ++ value ++ ")"

def listVariable (v : Variable) : String :=
  "Var(scope=" ++ namedNumber "VScope" v.scope.label v.scope.code ++
    ", scoex=" ++ namedNumber "VScoEx" v.extension.label v.extension.code ++
    s!", iscr={v.script}, ivar={v.number}, dims=" ++ Text.bracketed (v.dims.map toString) ++
    ", init=" ++ listInitial v.init ++ ")"

def listing (table : VariableTable) : String :=
  s!"YSVR ver={table.version} nvar={table.entries.length}\n" ++
    String.join (table.entries.zipIdx.map fun (v, i) =>
      Table.rowNumber 3 i ++ " " ++ listVariable v ++ "\n")

end VariableTable

end NovelScript
