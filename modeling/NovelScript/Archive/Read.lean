import NovelScript.Archive.Basic
import NovelScript.Archive.Inflate

/-!
# Reading archives
-/

namespace NovelScript.Archive

structure ReadOptions where
  version : Option Int := none
  codec : Codec := Codec.japanese
  choices : Choices := {}
  inflates : Bool := true

/-- The first `n` bytes of a directory, all of which must be there, and the rest. -/
def splitRecord (n : Nat) (directory : Bytes) : Except Fault (Bytes × Bytes) :=
  if n ≤ directory.length then .ok (directory.splitAt n) else .error Cause.badRecord

def tableEntry (table : Bytes) (index : Nat) : Except Fault Nat :=
  orFault (table[index]?.map UInt8.toNat) (Cause.pastEnd index)

/-- The name at the start of a directory, and the rest. A name that is cut off is not noticed until
its hash is checked. -/
def readName (layout : Layout) (codec : Codec) (directory : Bytes) :
    Except Fault (String × Bytes) := do
  let (head, directory) ← splitRecord 5 directory
  let length ← tableEntry layout.lengthMap (255 - head.field 4 1)
  let (scrambled, directory) := directory.splitAt length
  let bytes ← sendThrough layout.nameMap scrambled
  match layout.nameHash.mismatch bytes (head.field 0 4) with
  | some actual => .error (Violation.nameHash (head.field 0 4) actual bytes)
  | none => return (← codec.decode bytes, directory)

/-- The data that is stored at an offset. -/
def storedData (file : Bytes) (offset length : Nat) : Except Fault Bytes := do
  require (offset < 0x8000000000000000) Cause.overflow
  return (file.drop offset).take length

/-- The data of an entry by its mark. -/
def unpack (inflates : Bool) (name : String) (mark size : Nat) (stored : Bytes) :
    Except Fault (Int × Bytes) :=
  if inflates then do
    let data ← if mark = 0 then pure stored else orFault (Inflate.inflate? stored) Cause.badStream
    require (data.length == size) (Violation.inflatedSize size data.length name)
    return (mark, data)
  else .ok (if mark = 0 then 0 else -1, stored)

def readEntry (layout : Layout) (options : ReadOptions) (file directory : Bytes) :
    Except Fault ((Entry × Nat) × Bytes) := do
  let (name, directory) ← readName layout options.codec directory
  let (record, directory) ← splitRecord layout.entrySize directory
  let mark := record.field 1 1
  let size := record.field 2 4
  let length := record.field 6 4
  let width := if layout.wideOffsets then 8 else 4
  let hash := record.field (10 + width) 4
  let stored ← storedData file (record.field 10 width) length
  require (mark ≤ 1) (Violation.readCompression mark name)
  require (stored.length == length) (Violation.entryShort length stored.length name)
  match layout.fileHash.mismatch stored hash with
  | some actual => .error (Violation.entryHash hash actual name)
  | none =>
    let (packing, data) ← unpack options.inflates name mark size stored
    return ((⟨name, record.field 0 1, packing, data, size⟩, length), directory)

/-- Reads the entries of a directory. -/
def readEntries (layout : Layout) (options : ReadOptions) (file : Bytes) :
    (count : Nat) → Bytes → Except Fault (List (Entry × Nat))
  | 0, _ => .ok []
  | count + 1, directory => do
    let (entry, directory) ← readEntry layout options file directory
    return entry :: (← readEntries layout options file count directory)

/-- The outcome of reading an archive: the version gone by, and the entries with the numbers of
their stored bytes. -/
structure Contents where
  version : Int
  entries : List (Entry × Nat)

/-- Reads an archive. -/
def read (options : ReadOptions) (file : Bytes) : Except Fault Contents := do
  let (header, rest) ← splitRecord headerSize file
  require (header.take 4 == signature) (Violation.signature "YPF" (header.take 4))
  require (header.drop 16 == List.replicate 16 0) (Violation.paddingBytes (header.drop 16))
  let version := chosenVersion options.version (header.field 4 4)
  requireVersion version
  let stated := header.field 12 4
  let reduced : Nat := if headerCounted version then headerSize else 0
  require (reduced ≤ stated) Violation.directorySize
  let length := stated - reduced
  let directory := rest.take length
  require (directory.length == length) (Violation.directoryShort length directory.length)
  let layout := Layout.ofVersion version options.choices
  return ⟨version, ← readEntries layout options file (header.field 8 4) directory⟩

def Contents.log (contents : Contents) : String :=
  String.join (contents.entries.map fun (entry, stored) => logLine entry stored)

end NovelScript.Archive
