import NovelScript.Checksum
import NovelScript.Reader
import NovelScript.Version

/-!
# Archives

An archive is a header, a directory and the data of its entries. The names in the directory are
scrambled: their lengths go through one table and their bytes through another. Names and data carry
checksums. The tables, the checksums and the width of offsets go by the version.
-/

namespace NovelScript.Archive

/-- An entry. The packing mark is 0 for data that is stored as it is, 1 for data that is stored
compressed, and -1 where the data given here is already compressed. -/
structure Entry where
  name : String
  kind : Int
  packing : Int
  data : Bytes
  size : Int
  deriving DecidableEq

/-- How a version lays its directory out. -/
structure Layout where
  /-- Where the length of a name goes. -/
  lengthMap : Bytes
  /-- Where the bytes of a name go. -/
  nameMap : Bytes
  nameHash : Hash
  fileHash : Hash
  wideOffsets : Bool

/-! ## Tables -/

/-- A table that exchanges pairs of bytes. -/
def exchange (pairs : List (Nat × Nat)) : Bytes :=
  (List.range 256).map fun i =>
    match pairs.find? fun (a, b) => a == i || b == i with
    | some (a, b) => UInt8.ofNat (if a == i then b else a)
    | none => UInt8.ofNat i

/-- The pairs of lengths that every version exchanges. -/
def commonPairs : List (Nat × Nat) :=
  [(6, 53), (9, 11), (12, 16), (13, 19), (21, 27), (28, 30), (32, 35), (38, 41), (44, 47)]

/-- Where lengths go by the version. -/
def lengthMapOf (version : Int) : Bytes :=
  if version = 500 then exchange ([(3, 10), (17, 24), (20, 46)] ++ commonPairs)
  else exchange ([(3, 72), (17, 25), (46, 50)] ++ commonPairs)

def xorMap (key : UInt8) : Bytes :=
  (List.range 256).map fun i => UInt8.ofNat i ^^^ key

/-- Where the bytes of names go by the version. -/
def nameMapOf (version : Int) : Bytes :=
  if version = 500 then xorMap (0xFF ^^^ 0x36)
  else if version = 290 then xorMap (0xFF ^^^ 0x40)
  else xorMap 0xFF

/-- What a caller may choose in the place of what goes by the version. An empty table counts as not
given. -/
structure Choices where
  lengthMap : Bytes := []
  nameMap : Bytes := []
  nameHash : Option Hash := none
  fileHash : Option Hash := none

/-- The layout of a version, where no other is chosen. -/
def Layout.ofVersion (version : Int) (choices : Choices := {}) : Layout where
  lengthMap := if choices.lengthMap.isEmpty then lengthMapOf version else choices.lengthMap
  nameMap := if choices.nameMap.isEmpty then nameMapOf version else choices.nameMap
  nameHash := choices.nameHash.getD (Checksum.ofNames version).value
  fileHash := choices.fileHash.getD (Checksum.ofFiles version).value
  wideOffsets := version ≥ 477

/-- The size of an entry without its name. -/
def Layout.entrySize (layout : Layout) : Nat := if layout.wideOffsets then 22 else 18

/-- Sends every byte through a table, which must have an entry for each. -/
def sendThrough (table data : Bytes) : Except Fault Bytes := do
  require (table.length == 256) (Cause.tableLength table.length)
  return data.map fun b => table.getD b.toNat 0

/-- The line that is logged for an entry of which `stored` bytes are in the archive. -/
def logLine (entry : Entry) (stored : Nat) : String :=
  s!"k={entry.kind} c={entry.packing} ul=" ++ Text.padRight 7 (toString entry.size) ++
    " cl=" ++ Text.padRight 7 (toString stored) ++ s!" file: {entry.name}\n"

/-! ## Constants -/

def signature : Bytes := Bytes.ofAscii "YPF" ++ [0]

def headerSize : Nat := 32

/-- The version from which on the directory size in the header includes the header. -/
def headerCounted (version : Int) : Bool := version ≥ 300

end NovelScript.Archive
