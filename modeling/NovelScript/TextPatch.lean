import NovelScript.Files.Session
import NovelScript.Source.Constant
import NovelScript.Text.Lower

/-!
# Texts of scripts apart

The texts that a script shows can be taken out to a file of their own, one a line, and put back when
that file has been edited. Only lines that start with a quote count as texts, so what stands in
blocks is left alone.
-/

namespace NovelScript.TextPatch

/-- Whether a line is a text. -/
def isTextLine (line : String) : Bool :=
  match line.toList with
  | c :: _ => c == '"' || c == '\''
  | [] => false

def textLines (lines : List String) : List Nat :=
  lines.zipIdx.filterMap fun (line, i) => if isTextLine line then some i else none

/-- The value of a text line. -/
def lineValue (line : String) : Except Fault Value := do
  (← Source.parseExpression line).plainValue

/-- The lines of a script. -/
def scriptLines (source : String) : List String := Text.linesOf (Text.trimEnd source)

/-- The texts of a script. -/
def extract (source : String) : Except Fault (List Value) :=
  ((scriptLines source).filter isTextLine).mapM lineValue

/-- Texts, one a line. A value that is no text cannot be written. -/
def joinTexts (values : List Value) : Except Fault Wording := do
  let texts ← values.mapM fun v =>
    match v with
    | .text s => .ok s
    | _ => .error Cause.notText
  return (Wording.ofString "\n").intercalate texts

/-- The lines of a script with the texts replaced, as far as there are new ones. -/
def replaceTexts : List String → List String → List String
  | [], _ => []
  | line :: lines, texts =>
    if isTextLine line then
      match texts with
      | [] => line :: lines
      | t :: rest => Text.quoted t :: replaceTexts lines rest
    else line :: replaceTexts lines texts

/-! ## Files -/

/-- A script file and the file for its texts. -/
structure Task where
  script : String
  text : String
  deriving DecidableEq

structure Options where
  scriptRoot : String
  textRoot : String
  scriptCodec : Codec
  textCodec : Codec
  extensions : List String
  parallel : Bool := false

/-- A file name without the ending that it has, in any case. -/
def baseName? (extensions : List String) (name : String) : Option String := do
  let small := (Text.lower name).toList
  let ending ← (extensions.map Text.lower).find? fun e => e.toList.isSuffixOf small
  return if ending.isEmpty then ""
    else String.ofList (name.toList.take (name.length - ending.length))

variable {ρ : Type}

/-- Whether a file of texts is newer than its script. A folder is newer than any file. -/
def isNewer (task : Task) : Session ρ Bool := do
  let script ← Session.file task.script
  match ← Session.locate? task.text with
  | some (.folder _) => return true
  | some (.file _ text) => return script.time < text.time
  | _ => return false

def folderTasks (o : Options) (folder : String) (names : List String) : List Task :=
  let texts := Path.join o.textRoot (Path.relative o.scriptRoot folder)
  names.filterMap fun name =>
    (baseName? o.extensions name).map fun base => ⟨Path.join folder name, Path.join texts base⟩

/-- All tasks for taking texts out. The folders for the texts are made. -/
def extractTasks (o : Options) : Session ρ (List Task) := do
  let folders ← Session.walk o.scriptRoot
  let tasks ← folders.mapM fun (folder, names) => do
    Session.makeFolder (Path.join o.textRoot (Path.relative o.scriptRoot folder))
    return folderTasks o folder names
  return tasks.flatten

def patchTasks (o : Options) : Session ρ (List Task) := do
  let folders ← Session.walk o.scriptRoot
  let tasks := folders.flatMap fun (folder, names) => folderTasks o folder names
  tasks.filterM isNewer

/-- Takes the texts out of a script. A script without texts gets no file. -/
def extractTask (o : Options) (task : Task) : Session ρ Unit := do
  let source ← Session.readText o.scriptCodec task.script
  let values ← ofResult (extract source)
  if values.isEmpty then return ()
  else
    Session.say ("write " ++ task.text)
    Session.writeMadeText o.textCodec task.text (joinTexts values)

/-- Puts the texts of a script back. -/
def patchTask (o : Options) (task : Task) : Session ρ Unit := do
  let lines := scriptLines (← Session.readText o.scriptCodec task.script)
  let texts := scriptLines (← Session.readText o.textCodec task.text)
  let count := (textLines lines).length
  if count = 0 then return ()
  else
    if count ≠ texts.length then
      Session.say s!"行数不一致 {task.script} {count} {task.text} {texts.length}"
    Session.say ("write " ++ task.script)
    Session.writeText o.scriptCodec task.script ("\n".intercalate (replaceTexts lines texts))

/-- Extracts the texts of all scripts. -/
def extractAll (o : Options) : Session ρ Unit := do
  let tasks ← extractTasks o
  let _ ← Session.runTasks o.parallel (tasks.map (extractTask o))

/-- Puts the texts of all scripts back. -/
def patchAll (o : Options) : Session ρ Unit := do
  let tasks ← patchTasks o
  let _ ← Session.runTasks o.parallel (tasks.map (patchTask o))

end NovelScript.TextPatch
