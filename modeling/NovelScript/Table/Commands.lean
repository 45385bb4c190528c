import NovelScript.Table.Header

/-!
# Command tables

A command table gives the names of the commands, whose positions are their codes, and the names and
types of their arguments.
-/

namespace NovelScript

structure Parameter where
  name : String
  type : ValueType
  flags : Nat
  deriving DecidableEq

structure CommandInfo where
  name : String
  parameters : List Parameter
  deriving DecidableEq

/-- The commands of a game. -/
structure CommandTable where
  version : Int
  commands : List CommandInfo
  messages : List String
  tail : Bytes
  deriving DecidableEq, Inhabited

namespace CommandTable

/-! ## Reading -/

def readParameter (codec : Codec) : Reader Parameter := do
  let name ← Reader.textZ codec
  let record ← Reader.take 2
  let type ← Table.valueType (record.field 0 1)
  return ⟨name, type, record.field 1 1⟩

def readCommand (codec : Codec) : Reader CommandInfo := do
  let name ← Reader.textZ codec
  let count ← Reader.byte
  return ⟨name, ← Reader.repeated (readParameter codec) count⟩

def reader (codec : Codec) (given : Option Int) : Reader CommandTable := do
  let (header, version) ← Table.readHeader 16 "YSCM" "YSC" given
  require (header.field 12 4 == 0) (Violation.padding (header.field 12 4))
  let commands ← Reader.repeated (readCommand codec) (header.field 8 4)
  let messages ← Reader.repeated (Reader.textZ codec) Table.messageCount
  let tail ← Reader.take 256
  Reader.finished version
  return ⟨version, commands, messages, tail⟩

def read (codec : Codec) (given : Option Int) (bytes : Bytes) : Except Fault CommandTable :=
  (reader codec given).runOn bytes

/-! ## Looking up -/

/-- The code of a command. Of several commands with one name the last is meant. -/
def code? (table : CommandTable) (name : String) : Option Nat :=
  (table.commands.zipIdx.reverse.find? fun (command, _) => command.name == name).map (·.2)

def code (table : CommandTable) (name : String) : Except Fault Nat :=
  orFault (table.code? name) (Cause.missingCode name)

/-! ## Listing -/

def listCommand (command : CommandInfo) (i : Nat) : String :=
  Table.rowNumber 3 i ++ " Cmd " ++ Text.quoted command.name ++ "\n" ++
    String.join (command.parameters.zipIdx.map fun (p, j) =>
      Table.rowNumber 3 i ++ Table.rowNumber 2 j ++ " Arg " ++ Text.quoted p.name ++
        s!" {p.type.code} {p.flags}\n")

def listing (table : CommandTable) : String :=
  s!"YSCM ver={table.version} ncmd={table.commands.length}\n" ++
    String.join (table.commands.zipIdx.map fun (c, i) => listCommand c i)

end CommandTable

end NovelScript
