import NovelScript.Archive.Read
import NovelScript.Project.Build
import NovelScript.Project.Recover

/-!
# Taking a game apart and building it again

An archive is extracted, the sources of its scripts are recovered, and a new archive is built from
them. The folders have fixed names.
-/

namespace NovelScript.Project

def inputArchive : String := "ypf/ysbin-input.ypf"

def outputArchive : String := "ypf/ysbin-output.ypf"

def extractedRoot : String := "ybn/original"

def extractedScripts : String := "ybn/original/ysbin"

def recoveredRoot : String := "ybn/decoded/unofficial"

def keptRoot : String := "ybn/encoded/temp"

def scriptVersion : Int := 480

def rebuiltVersion : Int := 554

def scriptKey : Int := 0x9C28430C

/-- Writes entries as files. -/
def extract (folder : String) (entries : List Archive.Entry) : Work Unit :=
  entries.forM fun e => do
    Session.say ("Extracted file: " ++ e.name)
    let path := entryPath folder e.name
    Session.makeFolder (Path.parent path)
    Session.writeBytes path e.data

def recovering : RecoverOptions where
  inputRoot := extractedScripts
  outputRoot := recoveredRoot
  target := .blocks
  outputCodec := some Codec.utf8
  lists := true
  key := some scriptKey
  version := some scriptVersion

def rebuilding (archiveVersion : Int) (compress : Bytes → Bytes) : BuildOptions where
  key := scriptKey
  version := scriptVersion
  sourceRoot := recoveredRoot
  workRoot := keptRoot
  templateRoot := extractedScripts
  archivePath := outputArchive
  templateVersion := some scriptVersion
  shownVersion := some rebuiltVersion
  output := ⟨Codec.japanese, false⟩
  archiveVersion := some archiveVersion
  compress

/-- Recovers the sources of an archive and builds them again. -/
def repack (compress : Bytes → Bytes) : Work Unit := do
  let contents ← ofResult (Archive.read {} (← Session.readBytes inputArchive))
  Session.say ("The actual version of the YPF file is: " ++ toString contents.version)
  extract extractedRoot (contents.entries.map Prod.fst)
  recover recovering
  build (rebuilding contents.version compress)

end NovelScript.Project
