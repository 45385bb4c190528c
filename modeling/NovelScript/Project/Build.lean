import NovelScript.Archive.Inflate
import NovelScript.Archive.Make
import NovelScript.Project.Link
import NovelScript.Substitution
import NovelScript.Table.Labels
import NovelScript.Table.Scripts
import NovelScript.Table.Totals
import NovelScript.Text.Lower

/-!
# Building a project

A project is a folder of sources, together with the tables of the game that are taken over. A build
reads the declarations, compiles the scripts, numbers all variables, links the scripts, and writes
them with the tables to an archive.

Files named `global` declare global variables, files named `global_f` variables of their folder, and
files named `macro` are passed over; all others are scripts.
-/

namespace NovelScript.Project

/-- The encoding of texts in scripts. -/
structure OutputCodec where
  codec : Codec
  /-- Whether the codec substitutes characters. What it makes of a source then decides whether a
  compiled script is used again. -/
  substitutes : Bool := false

/-- What a build is asked for. -/
structure BuildOptions where
  key : Int
  version : Int
  sourceRoot : String
  workRoot : String
  templateRoot : String
  archivePath : String
  savePath : Option String := none
  sourceCodec : Codec := Codec.utf8
  /-- The codec of the names and texts in the template's table of variables. -/
  templateCodec : Codec := Codec.japanese
  /-- The codec of the names in the template's table of commands. -/
  commandCodec : Codec := Codec.japanese
  templateVersion : Option Int := none
  shownVersion : Option Int := none
  output : OutputCodec
  system : List (String × ValueType × Int) := []
  parallel : Bool := false
  recompiles : Bool := false
  archiveVersion : Option Int := none
  countsByType : Bool := false
  codecNamed : Wording → Codec := Codec.ofWording
  compress : Bytes → Bytes

/-- The options that the scripts of a build are compiled with. -/
def BuildOptions.compiling (o : BuildOptions) : CompileOptions :=
  ⟨o.version, o.shownVersion, o.output.codec, o.countsByType, o.codecNamed⟩

/-! ## Template -/

/-- What is taken over from the original game. -/
structure Template where
  variableTable : VariableTable
  commands : CommandTable
  commandBytes : Bytes
  errorBytes : Bytes
  settingBytes : Bytes

/-- The names of the system variables of a table by their numbers. They must stand in order. -/
def systemNames (known : List Variable) :
    Except Fault (List (String × ValueType × Int)) := do
  let names ← known.zipIdx.mapM fun (v, i) => do
    require (v.number == i) Condition.variablePosition
    return v.init.map fun init => ("__Sys" ++ toString i, init.type, (i : Int))
  return names.reduceOption

/-- Reads the tables that are taken over. Of the variables only those of the system count. -/
def readTemplate (o : BuildOptions) : Work Template := do
  let file (name : String) : Work Bytes := Session.readBytes (o.templateRoot ++ "/" ++ name)
  let table ← ofResult
    (VariableTable.read o.templateCodec o.templateVersion (← file "ysv.ybn"))
  let commandBytes ← file "ysc.ybn"
  let errorBytes ← file "yse.ybn"
  let settingBytes ← file "yscfg.ybn"
  let commands ← ofResult (CommandTable.read o.commandCodec o.templateVersion commandBytes)
  let own := { table with entries := table.entries.take firstUserNumber }
  return ⟨own, commands, commandBytes, errorBytes, settingBytes⟩

/-! ## Sources -/

/-- A source with its folder. -/
structure SourceFile where
  folder : String
  path : String
  deriving DecidableEq

/-- All sources of a project. -/
structure Sources where
  globals : List SourceFile := []
  folders : List SourceFile := []
  scripts : List SourceFile := []

def sourceEnding : String := ".yuri"

def stem (name : String) : String := String.ofList (name.toList.takeWhile (· != '.'))

/-- Sorts a file in. -/
def Sources.add (s : Sources) (folder name : String) : Sources :=
  if sourceEnding.toList.isSuffixOf name.toList then
    let file : SourceFile := ⟨folder, Path.join folder name⟩
    match stem name with
    | "macro" => s
    | "global" => { s with globals := s.globals ++ [file] }
    | "global_f" => { s with folders := s.folders ++ [file] }
    | _ => { s with scripts := s.scripts ++ [file] }
  else s

/-- Files in the order of their paths: in small letters, and by the bytes these are encoded to. -/
def sortFiles (codec : Codec) (files : List SourceFile) : Except Fault (List SourceFile) := do
  let keyed ← files.mapM fun f => do return (← codec.encode (Text.lower f.path), f)
  return (keyed.mergeSort fun a b => decide (a.1 ≤ b.1)).map Prod.snd

/-- Finds all sources. -/
def findSources (o : BuildOptions) : Work Sources := do
  let folders ← Session.walk o.sourceRoot
  let found : Sources := folders.foldl (fun (s : Sources) (folder, names) =>
    names.foldl (fun (s : Sources) name => s.add folder name) s) {}
  let globals ← ofResult (sortFiles o.output.codec found.globals)
  let folderFiles ← ofResult (sortFiles o.output.codec found.folders)
  let scripts ← ofResult (sortFiles o.output.codec found.scripts)
  return ⟨globals, folderFiles, scripts⟩

/-! ## Declarations -/

/-- Reads the declarations of a file. -/
def readDeclarations (o : BuildOptions) (scope : Scope) (path : String) : Work (List Declared) := do
  Session.say path
  let text ← Session.readText o.sourceCodec path
  ofResult (do declarations scope (← Source.parse text))

/-- Checks that names are not taken. -/
def requireNew (taken : List (String × ValueType)) (violation : String → Violation)
    (declared : List Declared) : Except Fault Unit :=
  declared.forM fun d => require (taken.lookup d.name).isNone (violation d.name)

/-- The declarations of global variables, file by file. A name must not come in two files. -/
def readGlobals (o : BuildOptions) : List SourceFile → List (String × ValueType) →
    Work (List Declared × List (String × ValueType))
  | [], types => return ([], types)
  | f :: rest, types => do
    let declared ← readDeclarations o .global f.path
    ofResult (requireNew types Violation.sameGlobal declared)
    let types := setEntries types (declared.map fun d => (d.name, d.value.type))
    let (others, types) ← readGlobals o rest types
    return (declared ++ others, types)

/-- The declarations of folders. A name must not be that of a global variable. -/
def readFolders (o : BuildOptions) (globals : List (String × ValueType)) (files : List SourceFile) :
    Work (List FolderDeclarations) :=
  files.mapM fun f => do
    let declared ← readDeclarations o .folder f.path
    ofResult (requireNew globals Violation.folderAndGlobal declared)
    return ⟨f.folder, declared⟩

/-! ## Scripts -/

/-- A script to be compiled. -/
structure CompileTask where
  file : SourceFile
  folders : List (String × ValueType)
  deriving DecidableEq

/-- The script that was kept, if it is still good. -/
def keptCompiled? (o : BuildOptions) (path : String) (print : Fingerprint) :
    Work (Option CompiledScript) := do
  match ← Session.record? (path ++ "hash") with
  | some (.fingerprint kept) =>
    if kept = print ∧ !o.recompiles then
      match ← Session.record? (path ++ "com") with
      | some (.compiled script) => return some script
      | _ => return none
    else return none
  | _ => return none

/-- Compiles a script or takes the kept one. -/
def compileTask (o : BuildOptions) (vocabulary : Vocabulary) (t : CompileTask) :
    Work CompiledScript := do
  let source ← Session.readBytes t.file.path
  let text ← ofResult (o.sourceCodec.decode source)
  let shown ← if o.output.substitutes then ofResult (o.output.codec.encode text) else pure source
  let print : Fingerprint := ⟨vocabulary.globals, t.folders, shown⟩
  let work := Path.join o.workRoot (Path.relative o.sourceRoot t.file.path)
  match ← keptCompiled? o work print with
  | some script => return script
  | none =>
    Session.say ("compile " ++ t.file.path)
    Session.makeFolder (Path.parent work)
    let statements ← ofResult (Source.parse text)
    let script ← ofResult (noting ("file: " ++ t.file.path)
      (compileScript o.compiling { vocabulary with folders := t.folders } statements))
    Session.write (work ++ "com") (.record (.compiled script))
    Session.write (work ++ "hash") (.record (.fingerprint print))
    return script

/-! ## Linking -/

/-- All scripts with their numbers. -/
structure Linked where
  known : List Variable
  entries : List ScriptEntry
  labels : List Label
  tasks : List LinkTask
  variableCount : Nat
  textCount : Nat
  deriving Inhabited

/-- The path of a script without its ending. -/
def scriptPath (root path : String) : String :=
  let p := Path.relative root path
  if sourceEnding.toList.isSuffixOf p.toList then
    String.ofList (p.toList.take (p.length - sourceEnding.length))
  else p

def gamePath (path : String) : String :=
  String.ofList (path.toList.map fun c => if c = '/' then '\\' else c)

/-- The labels of a script for the table. -/
def labelsOf (number : Nat) (script : CompiledScript) : List Label :=
  script.labels.map fun l => ⟨l.name, l.position, number, l.ifDepth, l.loopDepth, 0⟩

/-- The entry of a script in the list. -/
def entryOf (number : Nat) (path : String) (script : CompiledScript) : ScriptEntry :=
  ⟨number, gamePath path, 0, script.temporaries + script.statics, script.labels.length,
    script.texts⟩

/-- Links scripts in turn. -/
def linkScripts (root : String) (folders : List (String × List (String × Nat)))
    (globals : List (String × Nat)) :
    LinkState → List ((SourceFile × CompiledScript) × Nat) →
      Except Fault (List LinkTask × LinkState)
  | s, [] => .ok ([], s)
  | s, ((file, script), n) :: rest => do
    let (links, s) ← linkSymbols n (visible folders file.folder) globals s script.symbols
    let (tasks, s) ← linkScripts root folders globals s rest
    return (⟨n, scriptPath root file.path, links, script.segments⟩ :: tasks, s)

/-- Numbers all variables and links all scripts. -/
def link (root : String) (system : List Variable) (globals : List Declared)
    (folders : List FolderDeclarations) (scripts : List (SourceFile × CompiledScript)) :
    Except Fault Linked := do
  let (known, globalNumbers) ← number .global system globals []
  let (known, folderNumbers) ← numberFolders known folders []
  let statics := total (scripts.map fun s => s.2.statics)
  let firstTemporary := statics + known.length
  let (tasks, s) ← linkScripts root folderNumbers globalNumbers ⟨known, firstTemporary⟩
    scripts.zipIdx
  require (s.known.length == firstTemporary) Condition.variablePosition
  return {
    known := s.known
    entries := scripts.zipIdx.map fun ((file, script), n) =>
      entryOf n (scriptPath root file.path) script
    labels := scripts.zipIdx.flatMap fun ((_, script), n) => labelsOf n script
    tasks
    variableCount := s.nextTemporary
    textCount := total (scripts.map fun s => s.2.texts) }

/-! ## The archive -/

def tableEntry (file : String) (data : Bytes) : Archive.Entry :=
  ⟨archiveName file, 0, 1, data, data.length⟩

/-- The tables of the game. -/
def tableEntries (o : BuildOptions) (t : Template) (l : Linked) :
    Except Fault (List Archive.Entry) := do
  let codec := o.output.codec
  let labels ← LabelTable.write codec o.version o.shownVersion none l.labels
  let scripts ← ScriptList.write codec none o.shownVersion ⟨o.version, l.entries⟩
  let totals ← Totals.write o.shownVersion ⟨o.version, l.variableCount, l.textCount⟩
  let table ← VariableTable.write codec none o.shownVersion
    { t.variableTable with entries := l.known }
  return [tableEntry "ysc.ybn" t.commandBytes, tableEntry "yscfg.ybn" t.settingBytes,
    tableEntry "yse.ybn" t.errorBytes, tableEntry "ysl.ybn" labels,
    tableEntry "yst_list.ybn" scripts, tableEntry "yst.ybn" totals, tableEntry "ysv.ybn" table]

/-- The data of an entry, unpacked. -/
def entryData (e : Archive.Entry) : Except Fault Bytes :=
  if e.packing = -1 then orFault (Inflate.inflate? e.data) Cause.badStream else .ok e.data

def entryPath (folder name : String) : String :=
  ((Text.partsAt '\\' name.toList).map String.ofList).foldl Path.join folder

/-- Saves entries as files. -/
def saveEntries (folder : String) (entries : List Archive.Entry) : Work Unit :=
  entries.forM fun e => do
    let data ← ofResult (entryData e)
    let path := entryPath folder e.name
    Session.makeFolder (Path.parent path)
    Session.say ("save ybn: " ++ path)
    Session.writeBytes path data

/-- Builds a game from its sources. -/
def build (o : BuildOptions) : Work Unit := do
  let template ← readTemplate o
  let system ← ofResult (systemNames template.variableTable.entries)
  let sources ← findSources o
  let (globals, globalTypes) ← readGlobals o sources.globals []
  let folders ← readFolders o globalTypes sources.folders
  let folderTypes := folders.map fun f => (f.folder, typesOf f.declared)
  let vocabulary : Vocabulary :=
    ⟨template.commands.commands, system ++ o.system, globalTypes, []⟩
  let tasks : List CompileTask := sources.scripts.map fun f => ⟨f, visible folderTypes f.folder⟩
  let scripts ← Session.runTasks o.parallel (tasks.map (compileTask o vocabulary))
  let linked ← ofResult (link o.sourceRoot template.variableTable.entries globals folders
    (sources.scripts.zip scripts))
  let packed ← Session.runTasks o.parallel
    (linked.tasks.map (linkTask ⟨o.workRoot, o.key, o.compress⟩))
  let tables ← ofResult (tableEntries o template linked)
  let entries := packed ++ tables
  Session.writeMade o.archivePath (do
    let (data, _) ← Archive.make { codec := o.output.codec, compress := o.compress }
      (chosenVersion o.archiveVersion o.version) entries
    return data)
  match o.savePath with
  | some folder => saveEntries folder entries
  | none => return ()

end NovelScript.Project
