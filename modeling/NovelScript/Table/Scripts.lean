import NovelScript.Table.Header

/-!
# Script lists

A script list holds an entry for each script: its number, its path, the time of its source, and how
many variables, labels and texts it has. The number of texts is kept from one version on only.
-/

namespace NovelScript

/-- A script of a game. -/
structure ScriptEntry where
  number : Int
  path : String
  time : Int
  variableCount : Int
  labelCount : Int
  textCount : Int := 0
  deriving DecidableEq

/-- The scripts of a game. -/
structure ScriptList where
  version : Int
  scripts : List ScriptEntry
  deriving DecidableEq

namespace ScriptList

def countsTexts (version : Int) : Bool := version ≥ 474

/-! ## Reading -/

def readEntry (codec : Codec) (version : Int) (number : Nat) : Reader ScriptEntry := do
  let head ← Reader.take 8
  require (head.field 0 4 == number) (Violation.scriptNumber (head.field 0 4) number)
  let path ← Reader.text codec (head.field 4 4)
  if countsTexts version then
    let record ← Reader.take 20
    return ⟨number, path, record.field 0 8, record.signedField 8 4, record.signedField 12 4,
      record.signedField 16 4⟩
  else
    let record ← Reader.take 16
    return ⟨number, path, record.field 0 8, record.signedField 8 4, record.signedField 12 4, 0⟩

def readEntries (codec : Codec) (version : Int) : (number count : Nat) → Reader (List ScriptEntry)
  | _, 0 => pure []
  | number, count + 1 => do
    let entry ← readEntry codec version number
    return entry :: (← readEntries codec version (number + 1) count)

def reader (codec : Codec) (given : Option Int) : Reader ScriptList := do
  let (header, version) ← Table.readHeader 12 "YSTL" "yst_list.ybn" given
  let scripts ← readEntries codec version 0 (header.field 8 4)
  Reader.finished version
  return ⟨version, scripts⟩

def read (codec : Codec) (given : Option Int) (bytes : Bytes) : Except Fault ScriptList :=
  (reader codec given).runOn bytes

/-! ## Writing -/

def putEntry (codec : Codec) (version : Int) (entry : ScriptEntry) : Except Fault Bytes := do
  let path ← codec.encode entry.path
  let head ← putRecord [(4, entry.number), (4, path.length)]
  let time ← putUnsigned 8 entry.time
  let counts := [entry.variableCount, entry.labelCount] ++
    if countsTexts version then [entry.textCount] else []
  return head ++ path ++ time ++ (← counts.mapM (putSigned 4)).flatten

def write (codec : Codec) (given shown : Option Int) (list : ScriptList) : Except Fault Bytes := do
  let version := chosenVersion given list.version
  requireVersion version
  let head ← Table.putHeader "YSTL" shown version
  let count ← putUnsigned 4 list.scripts.length
  return head ++ count ++ (← list.scripts.mapM (putEntry codec version)).flatten

/-! ## Listing -/

def listEntry (entry : ScriptEntry) : String :=
  s!"Scr(iscr={entry.number}, path=" ++ Text.quoted entry.path ++
    s!", time={entry.time}, nvar={entry.variableCount}" ++
    s!", nlbl={entry.labelCount}, ntext={entry.textCount})"

def listing (list : ScriptList) : String :=
  s!"YSTL ver={list.version} nscr={list.scripts.length}\n" ++
    String.join (list.scripts.zipIdx.map fun (s, i) => s!"[{i}] " ++ listEntry s ++ "\n")

end ScriptList

end NovelScript
