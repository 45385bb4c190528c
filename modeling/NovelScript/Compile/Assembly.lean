import NovelScript.Compile.Draft
import NovelScript.Instruction.Bytecode
import NovelScript.Position
import NovelScript.Version

/-!
# Assembling scripts

The data of all arguments is encoded first. The sizes then give every command its place: its
position among the commands, its offset in the command section, and the size of the expressions
before it. At last the commands and arguments are written, jumps with the places of their targets.

From version 300 on, commands, arguments and lines have sections of their own; before, arguments
stand behind their command, and a number in place of data makes its argument shorter.
-/

namespace NovelScript.Draft

/-- Whether commands, arguments and lines stand in sections of their own. -/
def isSplit (version : Int) : Bool := 300 ≤ version

/-! ## Encoding the data -/

/-- Bytes of an expression. -/
structure Piece where
  bytes : Bytes
  instruction : Option Instr := none
  deriving DecidableEq, Inhabited

/-- An encoded instruction. It is checked once it is encoded. -/
def encodePiece (codec : Codec) (check : Instr → Except Fault Unit) (i : Instr) :
    Except Fault Piece := do
  let bytes ← i.encode codec
  check i
  return ⟨bytes, some i⟩

/-- Encodes data. -/
def Data.pieces (codec : Codec) (check : Instr → Except Fault Unit) :
    Data → Except Fault (List Piece)
  | .none | .number _ | .jump _ => .ok []
  | .text w => do return [{ bytes := ← codec.encodeWording w }]
  | .bytes b => .ok [{ bytes := b }]
  | .code instructions => instructions.mapM (encodePiece codec check)

/-- The encoded data of the arguments of a command that is not left out. -/
def Command.encoded (version : Int) (codec : Codec) (check : Instr → Except Fault Unit)
    (c : Command) : Except Fault (List (List Piece)) :=
  if c.presence.isLeftOut version then .ok []
  else c.arguments.mapM fun a => a.data.pieces codec check

def pieceSize (pieces : List Piece) : Nat := total (pieces.map fun p => p.bytes.length)

/-! ## Places -/

/-- Where a command stands. -/
structure Place where
  index : Nat := 0
  offset : Nat := 0
  /-- How many bytes of expressions stand before its own. -/
  expressions : Nat := 0
  deriving DecidableEq

/-- Where the bytes of an argument stand. -/
structure Span where
  offset : Nat
  size : Nat
  deriving DecidableEq

/-- The size of an argument that is written. -/
def Argument.size (version : Int) (a : Argument) : Nat :=
  match a.data with
  | .number _ => if isSplit version then 12 else if version = 290 then 8 else 4
  | _ => 12

/-- The size of a command that is written. -/
def Command.size (version : Int) (c : Command) : Nat :=
  if isSplit version then 4 else 6 + total (c.arguments.map (Argument.size version))

/-- The place behind a command. -/
def Place.after (version : Int) (p : Place) (c : Command) (data : List (List Piece)) : Place :=
  if c.presence.isLeftOut version then p
  else ⟨p.index + 1, p.offset + c.size version, p.expressions + total (data.map pieceSize)⟩

def spansFrom (offset : Nat) : List (List Piece) → List Span
  | [] => []
  | pieces :: rest => ⟨offset, pieceSize pieces⟩ :: spansFrom (offset + pieceSize pieces) rest

/-- A command with its place and bytes. -/
structure Placed where
  command : Command
  place : Place
  data : List (List Piece)
  deriving DecidableEq

/-- The spans of the data of a placed command; a command that is left out has none. -/
def Placed.spans (p : Placed) : List Span := spansFrom p.place.expressions p.data

/-- Places commands one after the other. -/
def placeFrom (version : Int) (p : Place) : List (Command × List (List Piece)) → List Placed
  | [] => []
  | (c, data) :: rest => ⟨c, p, data⟩ :: placeFrom version (p.after version c data) rest

def piecesFrom (offset : Nat) : List Piece → List (Nat × Piece)
  | [] => []
  | p :: rest => (offset, p) :: piecesFrom (offset + p.bytes.length) rest

/-! ## Writing -/

/-- Writes an argument. -/
def Argument.write (version : Int) (places : Array Place) (a : Argument) (span : Span) :
    Except Fault Bytes :=
  let head : List (Nat × Int) := [(2, a.id), (1, a.type), (1, a.assignment)]
  match a.data with
  | .number n =>
    if isSplit version then putRecord (head ++ [(4, n), (4, 0)])
    else if version = 290 then putRecord (head ++ [(4, n)])
    else putRecord head
  | .jump target => do
    let p ← orFault places[target]? (Cause.pastEnd target)
    putRecord (head ++ [(4, ((if isSplit version then p.index else p.offset : Nat) : Int)),
      (4, (p.expressions : Int))])
  | .none => putRecord (head ++ [(4, 0), (4, 0)])
  | _ => putRecord (head ++ [(4, (span.size : Int)), (4, (span.offset : Int))])

def Placed.writeArguments (version : Int) (places : Array Place) (p : Placed) :
    Except Fault Bytes := do
  return (← (p.command.arguments.zip p.spans).mapM fun (a, s) => a.write version places s).flatten

/-- The sections of a script with separate arguments: commands, arguments, expressions, lines. -/
def splitSections (version : Int) (places : Array Place) (kept : List Placed)
    (expressions : Bytes) : Except Fault (List Bytes) := do
  let commands ← kept.mapM fun p => putRecord [(1, p.command.code),
    (1, (p.command.arguments.length : Int)), (2, p.command.parameters)]
  let lines ← kept.mapM fun p => putRecord [(4, p.command.line)]
  let arguments ← kept.mapM (Placed.writeArguments version places)
  return [commands.flatten, arguments.flatten, expressions, lines.flatten]

/-- The sections of a script whose arguments stand behind their commands: commands and
expressions. -/
def joinedSections (version : Int) (places : Array Place) (kept : List Placed)
    (expressions : Bytes) : Except Fault (List Bytes) := do
  let commands ← kept.mapM fun p => do
    let head ← putRecord [(1, p.command.code), (1, (p.command.arguments.length : Int)),
      (4, p.command.line)]
    return head ++ (← p.writeArguments version places)
  return [commands.flatten, expressions]

/-- The header of a script: the signature, the version, the sizes of the sections, and filler up to
32 bytes. -/
def header (version : Int) (count : Nat) (sections : List Bytes) : Except Fault Bytes := do
  let sizes : List Int := match sections with
    | [commands, arguments, expressions, lines] =>
      [count, commands.length, arguments.length, expressions.length, lines.length]
    | commands :: expressions :: _ => [commands.length, expressions.length, 32 + commands.length]
    | _ => []
  let words ← putRecord ((4, version) :: sizes.map fun n => (4, n))
  let head := Bytes.ofAscii "YSTB" ++ words
  return head ++ List.replicate (32 - head.length) 0

/-- What is written of a draft. -/
structure Assembly where
  header : Bytes
  sections : List Bytes
  placed : List Placed
  deriving DecidableEq

namespace Assembly

def segments (a : Assembly) : List Bytes := a.header :: a.sections

/-- All instructions, with their offsets and sizes. -/
def instructions (a : Assembly) : List (Nat × Nat × Instr) :=
  (a.placed.flatMap fun p => (p.data.zip p.spans).flatMap fun (pieces, span) =>
    piecesFrom span.offset pieces).filterMap fun (offset, piece) =>
      piece.instruction.map fun i => (offset, piece.bytes.length, i)

end Assembly

/-- Assembles a draft for a version. The header shows the other version if one is given. -/
def assemble (version : Int) (shown : Option Int) (codec : Codec)
    (check : Instr → Except Fault Unit) (commands : List Command) : Except Fault Assembly := do
  let data ← commands.mapM (Command.encoded version codec check)
  let placed := placeFrom version {} (commands.zip data)
  let kept := placed.filter fun p => !p.command.presence.isLeftOut version
  let places := (placed.map Placed.place).toArray
  let expressions := placed.flatMap fun p => p.data.flatMap fun pieces =>
    pieces.flatMap Piece.bytes
  let sections ←
    if isSplit version then splitSections version places kept expressions
    else joinedSections version places kept expressions
  return ⟨← header (chosenVersion shown version) kept.length sections, sections, placed⟩

end NovelScript.Draft
