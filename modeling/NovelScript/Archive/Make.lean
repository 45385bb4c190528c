import NovelScript.Archive.Basic
import NovelScript.Position

/-!
# Making archives

Entries are first prepared one by one: their data is compressed where asked for and where that makes
it shorter. Then the header, the directory and the data are written.
-/

namespace NovelScript.Archive

structure MakeOptions where
  codec : Codec := Codec.japanese
  choices : Choices := {}
  /-- Whether data that is to be stored as it is gets compressed all the same. -/
  compressesAll : Bool := false
  compress : Bytes → Bytes

/-- An entry that is ready to be written: its data is what is stored, and its packing mark is 0 or
1. -/
structure Prepared where
  entry : Entry
  nameBytes : Bytes

/-- Checks the size that an entry tells. -/
def requireSize (entry : Entry) : Except Fault Unit :=
  require ((entry.data.length : Int) == entry.size)
    (Violation.givenSize entry.data.length entry.size entry.name)

/-- Compresses an entry if that makes it shorter. -/
def pack (options : MakeOptions) (entry : Entry) : Except Fault Entry := do
  let packing := if entry.packing = 0 ∧ options.compressesAll then 1 else entry.packing
  if packing = -1 then return { entry with packing := 1 }
  else if packing = 0 then
    requireSize entry
    return { entry with packing := 0 }
  else if packing = 1 then
    requireSize entry
    let compressed := options.compress entry.data
    if (compressed.length : Int) < entry.size then
      return { entry with packing := 1, data := compressed }
    else return { entry with packing := 0 }
  else .error (Violation.makeCompression packing entry.name)

/-- Makes an entry ready to be written. -/
def prepare (options : MakeOptions) (entry : Entry) : Except Fault Prepared := do
  let entry ← pack options entry
  return ⟨entry, ← options.codec.encode entry.name⟩

def directoryEntry (layout : Layout) (p : Prepared) (offset : Nat) : Except Fault Bytes := do
  let length ← orFault layout.lengthMap[p.nameBytes.length]?
    (Cause.pastEnd p.nameBytes.length)
  let head ← putRecord [(4, layout.nameHash.written p.nameBytes), (1, (255 - length.toNat : Nat))]
  let name ← sendThrough layout.nameMap p.nameBytes
  let record ← putRecord
    [(1, p.entry.kind), (1, p.entry.packing), (4, p.entry.size), (4, p.entry.data.length),
     (if layout.wideOffsets then 8 else 4, offset), (4, layout.fileHash.written p.entry.data)]
  return head ++ name ++ record

/-- The entries of a directory. -/
def directory (layout : Layout) : (offset : Nat) → List Prepared → Except Fault Bytes
  | _, [] => .ok []
  | offset, p :: rest => do
    let head ← directoryEntry layout p offset
    return head ++ (← directory layout (offset + p.entry.data.length) rest)

/-- Where the data starts. -/
def dataOffset (layout : Layout) (prepared : List Prepared) : Nat :=
  headerSize + total (prepared.map fun p => 5 + p.nameBytes.length + layout.entrySize)

def header (version : Int) (count dataOffset : Nat) : Except Fault Bytes := do
  let size := if headerCounted version then dataOffset else dataOffset - headerSize
  let fields ← putRecord [(4, version), (4, count), (4, size)]
  return signature ++ fields ++ List.replicate 16 0

/-- Writes an archive, with a log. -/
def make (options : MakeOptions) (version : Int) (entries : List Entry) :
    Except Fault (Bytes × String) := do
  requireVersion version
  let layout := Layout.ofVersion version options.choices
  let prepared ← entries.mapM (prepare options)
  let offset := dataOffset layout prepared
  let head ← header version prepared.length offset
  let entriesBytes ← directory layout offset prepared
  let log := String.join (prepared.map fun p => logLine p.entry p.entry.data.length) ++ "writing\n"
  return (head ++ entriesBytes ++ prepared.flatMap (fun p => p.entry.data), log)

end NovelScript.Archive
