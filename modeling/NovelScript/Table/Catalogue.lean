import NovelScript.Instruction.Listing
import NovelScript.Table.Errors

/-!
# Catalogues

The catalogue of the engine's own compiler: commands with their arguments, the names of the system
variables, messages, and some blocks of data of no known use.
-/

namespace NovelScript

namespace Catalogue

structure Parameter where
  name : String
  first : Nat
  second : Nat
  type : ValueType
  flags : Nat
  deriving DecidableEq

structure CommandInfo where
  name : String
  parameters : List Parameter
  deriving DecidableEq

structure SystemVariable where
  name : String
  type : ValueType
  dims : List Int
  deriving DecidableEq

end Catalogue

/-- Commands and variables that are known by name. -/
structure Catalogue where
  version : Int
  commands : List Catalogue.CommandInfo
  systemVariables : List Catalogue.SystemVariable
  errors : List ErrorMessage
  messages : List String
  blocks : List Bytes
  tail : Bytes
  deriving DecidableEq

namespace Catalogue

/-! ## Reading -/

def readParameter (codec : Codec) : Reader Parameter := do
  let name ← Reader.textZ codec
  let record ← Reader.take 4
  let type ← Table.valueType (record.field 2 1)
  return ⟨name, record.field 0 1, record.field 1 1, type, record.field 3 1⟩

def readCommand (codec : Codec) : Reader CommandInfo := do
  let name ← Reader.textZ codec
  let count ← Reader.byte
  return ⟨name, ← Reader.repeated (readParameter codec) count⟩

def readVariable (codec : Codec) : Reader SystemVariable := do
  let name ← Reader.textZ codec
  let record ← Reader.take 2
  let type ← Table.valueType (record.field 0 1)
  let dims ← Reader.repeated (Reader.unsigned 4) (record.field 1 1)
  return ⟨name, type, dims.map Int.ofNat⟩

def readCount : Reader (Nat × Nat) := do
  let record ← Reader.take 8
  return (record.field 0 4, record.field 4 4)

def requireZero (word : Nat) : Reader Unit :=
  require (word == 0) (Violation.innerPadding word)

def reader (codec : Codec) (given : Option Int) : Reader Catalogue := do
  let (header, version) ← Table.readHeader 16 "YSCD" "YSCom.ycd" given
  requireZero (header.field 12 4)
  let commands ← Reader.repeated (readCommand codec) (header.field 8 4)
  let (count, filler) ← readCount
  require (count < 1000) (Violation.tooManyVariables count)
  requireZero filler
  let systemVariables ← Reader.repeated (readVariable codec) count
  let (count, filler) ← readCount
  requireZero filler
  let errors ← Reader.repeated (ErrorTable.readMessage codec) count
  let messages ← Reader.repeated (Reader.textZ codec) Table.messageCount
  let (length, filler) ← readCount
  requireZero filler
  let blocks ← Reader.repeated (Reader.take length) length
  let tail ← Reader.take 0x800
  Reader.finished version
  return ⟨version, commands, systemVariables, errors, messages, blocks, tail⟩

def read (codec : Codec) (given : Option Int) (bytes : Bytes) : Except Fault Catalogue :=
  (reader codec given).runOn bytes

/-! ## Listing -/

def listCommand (command : CommandInfo) (i : Nat) : String :=
  Table.rowNumber 3 i ++ " Cmd " ++ Text.quoted command.name ++ "\n" ++
    String.join (command.parameters.zipIdx.map fun (p, j) =>
      Table.rowNumber 3 i ++ Table.rowNumber 2 j ++ " Arg " ++ Text.quoted p.name ++
        s!" {p.first} {p.second} {p.type.code} {p.flags}\n")

def listVariable (v : SystemVariable) : String :=
  "DVar(name=" ++ Text.quoted v.name ++ ", typ=" ++ v.type.listing ++
    ", dims=" ++ Text.bracketed (v.dims.map toString) ++ ")"

def listing (catalogue : Catalogue) : String :=
  s!"YSCD ver={catalogue.version} ncmd={catalogue.commands.length}"
    ++ s!" nvar={catalogue.systemVariables.length}\n"
    ++ "-- CMDS --\n"
    ++ String.join (catalogue.commands.zipIdx.map fun (c, i) => listCommand c i)
    ++ "-- VARS --\n"
    ++ String.join (catalogue.systemVariables.zipIdx.map fun (v, i) =>
      Table.rowNumber 3 i ++ " " ++ listVariable v ++ "\n")

end Catalogue

end NovelScript
