import NovelScript.Decompile.Globals
import NovelScript.Project.Link
import NovelScript.Script.Listing
import NovelScript.Table.Scripts
import NovelScript.Text.Lower

/-!
# Recovering sources

The scripts of a game are decompiled to a folder, each to the path that the script list gives. A
script without a compiled form holds declarations only: the first such script gets those of the
global variables.
-/

namespace NovelScript

namespace Target

def ending : Target → String
  | .blocks => ".yuri"
  | .listing => ""

def emptyText : Target → String
  | .blocks => "pass"
  | .listing => ";"

def usualCodec : Target → Codec
  | .blocks => Codec.utf8
  | .listing => Codec.japanese

end Target

namespace Project

variable {ρ : Type}

/-- What is asked for. -/
structure RecoverOptions where
  inputRoot : String
  outputRoot : String
  target : Target
  codec : Codec := Codec.japanese
  /-- The codec of the names in the table of commands. -/
  commandCodec : Codec := Codec.japanese
  outputCodec : Option Codec := none
  textCodec : Option Codec := none
  /-- Takes over names of variables, such as those of a catalogue. -/
  rename : Decompiler → Except Fault Decompiler := .ok
  parallel : Bool := false
  lists : Bool := false
  key : Option Int := none
  version : Option Int := none

def RecoverOptions.sourceCodec (o : RecoverOptions) : Codec :=
  o.outputCodec.getD o.target.usualCodec

/-- The tables of a game. -/
structure GameTables where
  commands : CommandTable
  variableTable : VariableTable
  labels : LabelTable
  scripts : ScriptList

/-- Reads the tables. -/
def readTables (o : RecoverOptions) : Session ρ GameTables := do
  let file (name : String) : Session ρ Bytes := Session.readBytes (Path.join o.inputRoot name)
  let commands ← ofResult (CommandTable.read o.commandCodec o.version (← file "ysc.ybn"))
  let variableTable ← ofResult (VariableTable.read o.codec o.version (← file "ysv.ybn"))
  let labels ← ofResult (LabelTable.read o.codec o.version none (← file "ysl.ybn"))
  let scripts ← ofResult (ScriptList.read o.codec o.version (← file "yst_list.ybn"))
  return ⟨commands, variableTable, labels, scripts⟩

/-- Lists the tables. -/
def listTables (o : RecoverOptions) (t : GameTables) : Session ρ Unit := do
  let write (name text : String) : Session ρ Unit :=
    Session.writeText (o.outputCodec.getD Codec.utf8)
      (Path.join o.outputRoot (name ++ ".ybn.dump")) text
  write "ysc" t.commands.listing
  write "ysv" t.variableTable.listing
  write "ysl" t.labels.listing
  write "yst_list" t.scripts.listing

/-- Where a script is recovered. -/
def recoveredPath (o : RecoverOptions) (s : ScriptEntry) : String :=
  Path.join o.outputRoot (String.ofList (s.path.toList.map fun c => if c = '\\' then '/' else c))

def sayScript (s : ScriptEntry) : Session ρ Unit :=
  Session.say (toString s.number ++ " " ++ s.path)

def writeSource (o : RecoverOptions) (s : ScriptEntry) (text : String) : Session ρ Unit :=
  Session.writeText o.sourceCodec (recoveredPath o s ++ o.target.ending)
    (String.ofList (Text.pairedLines text.toList))

def holdsDeclarations (s : ScriptEntry) : Bool := s.variableCount < 0

def takesGlobals (s : ScriptEntry) : Bool :=
  !occursIn "macro".toList (Text.lower s.path).toList

/-- Makes the folders of the scripts, and writes those that hold declarations. The first that can
gets those of the global variables, if there are any. -/
def writeDeclarations (o : RecoverOptions) : String → List ScriptEntry → Session ρ Unit
  | _, [] => return ()
  | globals, s :: rest => do
    Session.makeFolder (Path.parent (recoveredPath o s))
    if holdsDeclarations s then
      sayScript s
      if !globals.isEmpty && takesGlobals s then
        writeSource o s globals
        writeDeclarations o "" rest
      else
        writeSource o s o.target.emptyText
        writeDeclarations o globals rest
    else writeDeclarations o globals rest

/-- Recovers a script. No script takes the labels of another, as each has a number of its own. -/
def recoverScript (o : RecoverOptions) (d : Decompiler) (labels : WaitingLabels) (s : ScriptEntry) :
    Session ρ Unit := do
  sayScript s
  let data ← Session.readBytes (o.inputRoot ++ "/" ++ scriptFile s.number.toNat)
  let script ← ofResult (noting s.path (Script.read d.commands.code
    { version := o.version, key := o.key, codec := o.codec, textCodec := o.textCodec } data))
  if o.lists then
    Session.writeLines (recoveredPath o s ++ ".dump") (script.listingLines d.commands true)
  match d.scriptText o.target s.number script labels with
  | .ok text _ => writeSource o s text
  | .error f _ => throw f

/-- Recovers the sources of a game. -/
def recover (o : RecoverOptions) : Session ρ Unit := do
  let tables ← readTables o
  Session.makeFolder o.outputRoot
  if o.lists then listTables o tables
  let (d, labels) ← ofResult
    (Decompiler.ofTables tables.commands tables.variableTable tables.labels)
  let d ← ofResult (o.rename d)
  let globals ← ofResult (d.globalsText o.target)
  writeDeclarations o (globals.getD "") tables.scripts.scripts
  let compiled := tables.scripts.scripts.filter fun s => !holdsDeclarations s
  let _ ← Session.runTasks o.parallel (compiled.map (recoverScript o d labels))

end Project

end NovelScript
