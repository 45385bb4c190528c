import NovelScript.Checksum
import NovelScript.Table.Header

/-!
# Label tables

A label table holds the labels of all scripts, sorted by the hash of their names. An index of 256
entries tells, for each top byte of a hash, how many labels come before the first one with it.
-/

namespace NovelScript

/-- A label of a game. -/
structure Label where
  name : Wording
  position : Int
  script : Int
  ifDepth : Int
  loopDepth : Int
  hash : Nat := 0
  deriving DecidableEq

/-- The labels of a game. -/
structure LabelTable where
  version : Int
  labels : List Label
  deriving DecidableEq

namespace LabelTable

/-! ## Reading -/

def readLabel (codec : Codec) (hash : Hash) : Reader Label := do
  let length ← Reader.byte
  let name ← Reader.take length
  let record ← Reader.take 12
  let stored := record.field 0 4
  match hash.mismatch name stored with
  | some actual => Reader.fail (Violation.labelHash stored actual name)
  | none =>
    let text ← Reader.ofExcept (codec.decode name)
    return ⟨.ofString text, record.field 4 4, record.field 8 2, record.field 10 1,
      record.field 11 1, stored⟩

/-- A whole table. The index is not looked at. -/
def reader (codec : Codec) (given : Option Int) (hash : Option Hash) : Reader LabelTable := do
  let (header, version) ← Table.readHeader 12 "YSLB" "YSL" given
  Reader.skip 1024
  let hash := hash.getD (Checksum.ofNames version).value
  let labels ← Reader.repeated (readLabel codec hash) (header.field 8 4)
  Reader.finished version
  return ⟨version, labels⟩

def read (codec : Codec) (given : Option Int) (hash : Option Hash) (bytes : Bytes) :
    Except Fault LabelTable :=
  (reader codec given hash).runOn bytes

/-! ## Writing -/

/-- A label ready to be written. -/
structure Hashed where
  nameBytes : Bytes
  hash : Nat
  label : Label

def hashed (codec : Codec) (hash : Hash) (label : Label) : Except Fault Hashed := do
  let name ← codec.encodeWording label.name
  return ⟨name, hash.written name, label⟩

/-- How many hashes have each top byte. -/
def topByteCounts (hashes : List Nat) : List Nat :=
  hashes.foldl (fun counts h => counts.modify (h / 0x1000000) (· + 1)) (List.replicate 256 0)

/-- For each number the sum of those before it, counted from a start. -/
def runningSums : (start : Nat) → List Nat → List Nat
  | _, [] => []
  | start, n :: rest => start :: runningSums (start + n) rest

/-- The index: for each top byte, how many of the hashes have a smaller one. -/
def index (hashes : List Nat) : List Nat := runningSums 0 (topByteCounts hashes)

def putLabel (h : Hashed) : Except Fault Bytes := do
  let length ← orFault (Bytes.unsigned? 1 h.nameBytes.length) Cause.overflow
  let body ← putRecord
    [(4, h.hash), (4, h.label.position), (2, h.label.script), (1, h.label.ifDepth),
     (1, h.label.loopDepth)]
  return length ++ h.nameBytes ++ body

/-- The bytes of a label table. The version written may differ from the one gone by. -/
def write (codec : Codec) (version : Int) (shown : Option Int) (hash : Option Hash)
    (labels : List Label) : Except Fault Bytes := do
  requireVersion version
  let hash := hash.getD (Checksum.ofNames version).value
  let entries ← labels.mapM (hashed codec hash)
  let sorted := entries.mergeSort fun a b => a.hash ≤ b.hash
  let head ← Table.putHeader "YSLB" shown version
  let count ← putUnsigned 4 sorted.length
  let body ← sorted.mapM putLabel
  return head ++ count ++ (index (sorted.map (·.hash))).flatMap (Bytes.ofNat 4) ++ body.flatten

/-! ## Listing -/

def listLabel (label : Label) : String :=
  "Lbl(" ++ Text.quotedWording label.name ++
    s!", {label.position}, {label.script}, {label.ifDepth}, {label.loopDepth}, 0x" ++
    Text.hexPadded 8 label.hash ++ ")"

def listing (table : LabelTable) : String :=
  s!"YSLB ver={table.version} nlbl={table.labels.length}\n" ++
    String.join (table.labels.zipIdx.map fun (l, i) => s!"[{i}] " ++ listLabel l ++ "\n")

end LabelTable

end NovelScript
