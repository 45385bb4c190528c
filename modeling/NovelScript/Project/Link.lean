import NovelScript.Archive.Basic
import NovelScript.Project.Cache
import NovelScript.Project.Variables
import NovelScript.Script.Read

/-!
# Linking and packing scripts

To link a script is to write the numbers of its variables where its instructions name them. The
linked sections are then combined with the key and packed for the archive, unless the packed form of
the same sections is kept.
-/

namespace NovelScript.Project

/-- Writes the number of a variable. -/
def writeNumber (data : Array UInt8) (offset number : Nat) : Except Fault (Array UInt8) := do
  require (number < 0x10000) Cause.badRecord
  require (offset + 2 ≤ data.size) Cause.badRecord
  return (data.setIfInBounds offset (UInt8.ofNat (number % 256))).setIfInBounds (offset + 1)
    (UInt8.ofNat (number / 256))

/-- Writes the numbers of all symbols. -/
def writeLinks (data : Bytes) (links : List Link) : Except Fault Bytes := do
  let places := links.flatMap fun l => l.offsets.map fun o => (o, l.number)
  return (← places.foldlM (fun d (o, n) => writeNumber d o n) data.toArray).toList

/-- A script to be linked. -/
structure LinkTask where
  number : Nat
  path : String
  links : List Link
  segments : List Bytes
  deriving DecidableEq

/-- Changes the expressions section. -/
def changeExpressions (f : Bytes → Except Fault Bytes) : List Bytes → Except Fault (List Bytes)
  | [header, commands, expressions] => do return [header, commands, ← f expressions]
  | [header, commands, arguments, expressions, lines] => do
    return [header, commands, arguments, ← f expressions, lines]
  | segments => .ok segments

/-- The sections behind the header in one, the expressions last. -/
def sectionsOf : List Bytes → Bytes
  | [_, commands, expressions] => commands ++ expressions
  | [_, commands, arguments, expressions, lines] => commands ++ arguments ++ lines ++ expressions
  | segments => segments.flatten

/-- The segments with all sections behind the header combined with a key. -/
def encrypt (key : Bytes) : List Bytes → List Bytes
  | [] => []
  | header :: sections => header :: sections.map (Bytes.cyclicXor key)

/-- The file name of a script. -/
def scriptFile (number : Nat) : String :=
  let digits := toString number
  "yst" ++ String.ofList (List.replicate (5 - digits.length) '0') ++ digits ++ ".ybn"

def archiveName (file : String) : String := "ysbin\\" ++ file

/-- Data in the form that is stored: compressed if that is shorter. -/
def packData (compress : Bytes → Bytes) (data : Bytes) : Int × Bytes :=
  let packed := compress data
  if packed.length < data.length then (-1, packed) else (0, data)

structure LinkOptions where
  workRoot : String
  key : Int
  compress : Bytes → Bytes

/-- The packed script that was kept, if it is still good. -/
def keptPacked? (path : String) (sections : Bytes) (size : Nat) : Work (Option PackedScript) := do
  match ← Session.content? path with
  | some (.record (.packed p)) =>
    if p.sections = sections then
      require (p.packing != 0 || p.data.length == size) Condition.packedLength
      return some p
    else return none
  | some (.bytes data) =>
    require (33 ≤ data.length) Cause.badRecord
    return none
  | _ => return none

/-- Links and packs a script. -/
def linkTask (o : LinkOptions) (t : LinkTask) : Work Archive.Entry := do
  let segments ← ofResult (changeExpressions (writeLinks · t.links) t.segments)
  let sections := sectionsOf segments
  let size := total (segments.map List.length)
  let path := Path.join o.workRoot (t.path ++ ".comp")
  match ← keptPacked? path sections size with
  | some p => return ⟨archiveName (scriptFile t.number), 0, p.packing, p.data, size⟩
  | none =>
    Session.say s!"compress {t.number} {t.path}"
    let key ← ofResult (Script.keyBytes o.key)
    let (packing, data) := packData o.compress (encrypt key segments).flatten
    Session.write path (.record (.packed ⟨sections, packing, data⟩))
    return ⟨archiveName (scriptFile t.number), 0, packing, data, size⟩

end NovelScript.Project
