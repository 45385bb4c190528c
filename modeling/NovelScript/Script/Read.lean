import NovelScript.Instruction.Bytecode
import NovelScript.Script.Basic
import NovelScript.Version

/-!
# Reading scripts

Below version 300 a script has two sections, commands with their arguments and expressions. From
version 300 on commands, arguments, expressions and line numbers have a section each. All sections
are combined with a key of four bytes.
-/

namespace NovelScript.Script

structure ReadOptions where
  version : Option Int := none
  /-- The key, if it is not the usual one of the version. -/
  key : Option Int := none
  codec : Codec := Codec.japanese
  textCodec : Option Codec := none

/-- The usual key of a version. -/
def usualKey (version : Int) : Int := if version ≥ 290 then 0xD36FAC96 else 0x07B4024A

def keyBytes (key : Int) : Except Fault Bytes := do
  return (← orFault (Bytes.unsigned? 4 key) Cause.overflow).reverse

/-! ## Arguments -/

/-- How the data of an argument is read. -/
inductive Shape where
  | expression | jump | text
  deriving DecidableEq

/-- What the arguments of a command are. The codes are looked up one after another, as far as they
are needed. -/
def shapes (codes : CommandCodes) (code count : Nat) : Except Fault (List Shape) := do
  let branches ← if code = (← codes "IF") then pure true else pure (code == (← codes "ELSE"))
  if branches && count == 3 then return [.expression, .jump, .jump]
  else if code = (← codes "ELSE") then
    require (count == 0) Condition.argumentCount
    return []
  else if code = (← codes "LOOP") then
    require (count == 2) Condition.argumentCount
    return [.expression, .jump]
  else if code = (← codes "WORD") then
    require (count == 1) Condition.argumentCount
    return [.text]
  else return List.replicate count .expression

/-- The bytes of an expression. -/
def slice (expressions : Array UInt8) (offset size : Nat) : Except Fault Bytes := do
  let bytes := (expressions.extract offset (offset + size)).toList
  require (bytes.length == size) Condition.expressionLength
  return bytes

/-- The data of an argument. -/
def argumentData (codec textCodec : Codec) (expressions : Array UInt8) (shape : Shape)
    (offset size : Nat) : Except Fault ArgumentData :=
  match shape with
  | .jump => .ok .none
  | .expression => do
    return .code (← Instr.decodeAll codec (← slice expressions offset size))
  | .text => do
    return .text (← textCodec.decode (← slice expressions offset size))

def assignmentOf (code : Nat) : Except Fault Assignment :=
  orFault (Assignment.ofCode? code) (Cause.unknownAssignment code)

def typeOf (code : Nat) : Except Fault ValueType :=
  orFault (ValueType.ofCode? code) (Cause.unknownType code)

/-- An argument. Only the two low bits of the stored type count. -/
def readArgument (codec textCodec : Codec) (expressions : Array UInt8) (shape : Shape) :
    Reader Argument := do
  let record ← Reader.take 12
  let size := record.field 4 4
  let offset := record.field 8 4
  let data ← Reader.ofExcept (argumentData codec textCodec expressions shape offset size)
  let type ← Reader.ofExcept (typeOf (record.field 2 1 % 4))
  let assignment ← Reader.ofExcept (assignmentOf (record.field 3 1))
  return ⟨record.field 0 2, type, assignment, size, offset, data⟩

/-- The short argument that ends a text below version 300. Its size is stored in one version
only. -/
def readShortArgument (version : Int) : Reader Argument := do
  let record ← Reader.take 4
  let size ← if version = 290 then Reader.unsigned 4 else pure 0
  let type ← Reader.ofExcept (typeOf (record.field 2 1))
  let assignment ← Reader.ofExcept (assignmentOf (record.field 3 1))
  return ⟨record.field 0 2, type, assignment, size, 0, .none⟩

/-- What commands are read with. -/
structure Context where
  codes : CommandCodes
  version : Int
  codec : Codec
  textCodec : Codec
  /-- The expression section, from which arguments take their bytes at any place. -/
  expressions : Array UInt8

/-- Reads the arguments of a command. -/
def readArguments (ctx : Context) (code count : Nat) : Reader (List Argument) := do
  if code = (← Reader.ofExcept (ctx.codes "RETURNCODE")) then
    require (count == 1) Condition.argumentCount
    if ctx.version < 300 then return [← readShortArgument ctx.version]
    else return [← readArgument ctx.codec ctx.textCodec ctx.expressions .jump]
  else
    let shapes ← Reader.ofExcept (shapes ctx.codes code count)
    shapes.mapM (readArgument ctx.codec ctx.textCodec ctx.expressions)

/-! ## The layout below version 300 -/

/-- Reads a command with its arguments. -/
def readCommand (ctx : Context) : Reader Command := do
  let offset := (← get).pos
  let record ← Reader.take 6
  let code := record.field 0 1
  let arguments ← readArguments ctx code (record.field 1 1)
  return ⟨offset, record.field 2 4, code, arguments, 0⟩

/-- The commands up to the end. The number of bytes bounds the number of commands, each of which
takes at least six. -/
def readCommands (ctx : Context) : (bound : Nat) → Reader (List Command)
  | 0 => pure []
  | bound + 1 => do
    if (← get).rest.isEmpty then return []
    else
      let command ← readCommand ctx
      return command :: (← readCommands ctx bound)

def splitSection (length : Nat) (file : Bytes) : Except Fault (Bytes × Bytes) := do
  let (part, rest) := file.splitAt length
  require (part.length == length) Condition.sectionLength
  return (part, rest)

/-- Reads the sections of old versions. -/
def readJoined (header rest : Bytes) (key : Bytes) (ctx : Bytes → Context) :
    Except Fault (List Command) := do
  let commandLength := header.field 8 4
  let padding := [header.field 20 4, header.field 24 4, header.field 28 4]
  require (padding.all (· == 0)) (Violation.paddingWords padding)
  require (32 + commandLength == header.field 16 4) Condition.sectionSizes
  let (commands, rest) ← splitSection commandLength rest
  let (expressions, _) ← splitSection (header.field 12 4) rest
  let ctx := ctx (Bytes.cyclicXor key expressions)
  (readCommands ctx commandLength).runOn (Bytes.cyclicXor key commands)

/-! ## The layout from version 300 on -/

def quads : Bytes → List Bytes
  | a :: b :: c :: d :: rest => [a, b, c, d] :: quads rest
  | _ => []

/-- Reads commands that stand apart from their arguments. -/
def readSplitCommands (ctx : Context) :
    (offset : Nat) → List (Bytes × Bytes) → Reader (List Command)
  | _, [] => pure []
  | offset, (record, line) :: rest => do
    let code := record.field 0 1
    let arguments ← readArguments ctx code (record.field 1 1)
    let command : Command := ⟨offset, line.toNat, code, arguments, record.field 2 2⟩
    return command :: (← readSplitCommands ctx (offset + 4) rest)

/-- A hint at the key when a script cannot be read: the first stored bytes of the line numbers,
whose high bytes are mostly zero. -/
def keyHint (lines : Bytes) : String :=
  "lineno guess key: " ++
    ",".intercalate ((lines.take 16).map fun b => "0x" ++ Text.hexPadded 1 b.toNat)

/-- Reads the sections of new versions. -/
def readSplit (header rest : Bytes) (key : Bytes) (ctx : Bytes → Context) :
    Except Fault (List Command) := do
  let count := header.field 8 4
  let commandLength := header.field 12 4
  let argumentLength := header.field 16 4
  let lineLength := header.field 24 4
  require (count * 4 == commandLength && commandLength == lineLength) Condition.sectionSizes
  require (argumentLength % 12 == 0) Condition.sectionSizes
  require (header.field 28 4 == 0) Condition.sectionSizes
  let (commands, rest) ← splitSection commandLength rest
  let (arguments, rest) ← splitSection argumentLength rest
  let (expressions, rest) ← splitSection (header.field 20 4) rest
  let (lines, _) ← splitSection lineLength rest
  let ctx := ctx (Bytes.cyclicXor key expressions)
  let records := (quads (Bytes.cyclicXor key commands)).zip (quads (Bytes.cyclicXor key lines))
  noting (keyHint lines)
    ((readSplitCommands ctx 0 records).runOn (Bytes.cyclicXor key arguments))

/-! ## Scripts -/

/-- Reads a script. -/
def read (codes : CommandCodes) (options : ReadOptions) (file : Bytes) : Except Fault Script := do
  require (32 ≤ file.length) Cause.badRecord
  let (header, rest) := file.splitAt 32
  require (header.take 4 == Bytes.ofAscii "YSTB") (Violation.signature "YSTB" (header.take 4))
  let version := chosenVersion options.version (Bytes.field header 4 4)
  requireVersion version
  let key := options.key.getD (usualKey version)
  let bytes ← keyBytes key
  let ctx := fun (expressions : Bytes) =>
    ⟨codes, version, options.codec, options.textCodec.getD options.codec, expressions.toArray⟩
  let commands ←
    if version < 300 then readJoined header rest bytes ctx else readSplit header rest bytes ctx
  return ⟨version, key, commands⟩

end NovelScript.Script
