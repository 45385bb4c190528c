import NovelScript.Files.Spot
import NovelScript.Text.Codec
import NovelScript.Text.Lines

/-!
# Work on a file tree

Whole runs read and write a file tree and report what they do. What has been written and reported
stays when a run fails.
-/

namespace NovelScript

/-- Everything that work can see. -/
structure World (ρ : Type) where
  tree : Tree ρ := {}
  log : List String := []
  clock : Int := 0

abbrev Session (ρ : Type) := EStateM Fault (World ρ)

namespace Session

variable {ρ α : Type}

/-! ## Reports -/

def say (line : String) : Session ρ Unit :=
  modify fun w => { w with log := w.log ++ [line] }

/-- Work without its messages. -/
def silently (work : Session ρ α) : Session ρ α := fun w =>
  match work w with
  | .ok a w' => .ok a { w' with log := w.log }
  | .error f w' => .error f { w' with log := w.log }

/-! ## Reading -/

/-- Where a path leads. -/
def locate (path : String) : Session ρ (Spot ρ) := do ofResult ((← get).tree.locate path)

def locate? (path : String) : Session ρ (Option (Spot ρ)) := do
  match (← get).tree.locate path with
  | .ok spot => return some spot
  | .error f => if f.cause.kind = .noFile then return none else throw f

def file (path : String) : Session ρ (File ρ) := do
  match ← locate path with
  | .folder _ => throw (Cause.isFolder path : Fault)
  | .file _ f => return f
  | .free _ => throw (Cause.noFile path : Fault)

/-- The bytes of a file. -/
def readBytes (path : String) : Session ρ Bytes := do
  match (← file path).content with
  | .bytes data => return data
  | .record _ => return []

def requireKnown (codec : Codec) : Session ρ Unit := do
  let _ ← ofResult (codec.encode "")

def readText (codec : Codec) (path : String) : Session ρ String := do
  let data ← readBytes path
  requireKnown codec
  let text ← ofResult (codec.decode data)
  return String.ofList (Text.plainLines text.toList)

def content? (path : String) : Session ρ (Option (Content ρ)) := do
  match ← locate? path with
  | some (.folder _) => throw (Cause.isFolder path : Fault)
  | some (.file _ f) => return some f.content
  | _ => return none

/-- The record at a path, if there is one. Bytes are no record. -/
def record? (path : String) : Session ρ (Option ρ) := do
  match ← content? path with
  | some (.record value) => return some value
  | some (.bytes data) =>
    throw (if data.isEmpty then Cause.emptyRecord else Cause.damagedRecord : Fault)
  | none => return none

/-- All folders below a root, with their files. -/
def walk (root : String) : Session ρ (List (String × List String)) := do
  match ← locate root with
  | .folder p =>
    let t := (← get).tree
    return (t.foldersBelow p).map fun q =>
      (if q == p then root else Path.join root ("/".intercalate (q.drop p.length)), t.fileNames q)
  | .file _ _ => throw (Cause.notFolder root : Fault)
  | .free _ => throw (Cause.noFile root : Fault)

/-! ## Writing -/

/-- Writes a file. -/
def write (path : String) (content : Content ρ) : Session ρ Unit := do
  match ← locate path with
  | .folder _ => throw (Cause.isFolder path : Fault)
  | .file p _ | .free p => modify fun w => { w with tree := w.tree.put p ⟨content, w.clock⟩ }

def writeBytes (path : String) (data : Bytes) : Session ρ Unit := write path (.bytes data)

/-- Writes what is made, over an empty file. -/
def writeMade (path : String) (data : Except Fault Bytes) : Session ρ Unit := do
  writeBytes path []
  writeBytes path (← ofResult data)

/-- Writes a text that is made once the file is empty and the codec is known. -/
def writeMadeText (codec : Codec) (path : String) (text : Except Fault Wording) :
    Session ρ Unit := do
  writeBytes path []
  requireKnown codec
  writeBytes path (← ofResult (text >>= codec.encodeWording))

def writeText (codec : Codec) (path text : String) : Session ρ Unit :=
  writeMadeText codec path (.ok (.ofString text))

/-- The lines before the first failure. -/
def linesBefore (lines : List (Except Fault String)) : List String :=
  (lines.takeWhile Except.isOk).filterMap Except.toOption

/-- Writes lines as UTF-8. What stands before a fault is written. -/
def writeLines (path : String) (lines : List (Except Fault String)) : Session ρ Unit := do
  writeText Codec.utf8 path (String.join ((linesBefore lines).map (· ++ "\n")))
  let _ ← ofResult (lines.mapM id)

/-- Makes the folder that a way leads to. A file may be in its place only on the way to `path`. -/
def makeWay (path way : String) : Session ρ Unit := do
  match ← locate way with
  | .folder _ => return ()
  | .file _ _ => require (way != path) (Cause.occupied path)
  | .free p => modify fun w => { w with tree := w.tree.addFolder p }

/-- Makes a folder and those around it. -/
def makeFolder (path : String) : Session ρ Unit := do
  require (!path.isEmpty) (Cause.noFile path)
  (Path.ways path).forM (makeWay path)

def remove (path : String) : Session ρ Unit := do
  match ← locate path with
  | .folder p | .file p _ => modify fun w => { w with tree := w.tree.remove p }
  | .free _ => throw (Cause.noFile path : Fault)

/-! ## Tasks -/

/-- Runs tasks one after another, up to the first that fails. -/
def inTurn : List (Session ρ α) → Session ρ (List α)
  | [] => return []
  | task :: rest => do
    let a ← task
    return a :: (← inTurn rest)

/-- Runs all tasks, also those after one that fails, and then fails as the first that did. -/
def atOnce : List (Session ρ α) → Session ρ (List α)
  | [] => return []
  | task :: rest => fun w =>
    match task w with
    | .ok a w' =>
      match atOnce rest w' with
      | .ok l w'' => .ok (a :: l) w''
      | .error f w'' => .error f w''
    | .error f w' =>
      match atOnce rest w' with
      | .ok _ w'' => .error f w''
      | .error _ w'' => .error f w''

/-- Runs tasks, either in turn or, without their reports, at once. -/
def runTasks (parallel : Bool) (tasks : List (Session ρ α)) : Session ρ (List α) :=
  if parallel then silently (atOnce tasks) else inTurn tasks

end Session

end NovelScript
