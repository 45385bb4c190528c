import NovelScript.Project.Repack

/-!
# Command line

Takes the archive `ypf/ysbin-input.ypf` apart, recovers its sources, and builds
`ypf/ysbin-output.ypf` from them. The work is done on a file tree in memory, which is then written
to disk.
-/

namespace NovelScript.CommandLine

/-- The text of a kind of failure. -/
def kindText : Kind → String
  | .violation => "a check has failed"
  | .value => "a value is not possible"
  | .key => "a name or number is not known"
  | .index => "a position lies past the end"
  | .argument => "an argument does not fit"
  | .member => "the command table lacks a command"
  | .overflow => "a number is too large"
  | .codec => "a codec is not known"
  | .noFile => "a file does not exist"
  | .isFolder => "a folder stands where a file is needed"
  | .notFolder => "a file stands where a folder is needed"
  | .occupied => "a file stands where a folder is to be made"
  | .system => "a path is too long"
  | .ended => "a kept file is empty"
  | .damaged => "a kept file is damaged"
  | .decoding => "bytes are not text in the encoding"
  | .encoding => "a text has no bytes in the encoding"
  | .grammar => "a source does not follow the grammar"
  | .record => "a record is cut off, or a number does not fit its field"
  | .stream => "compressed data is damaged"

/-- What is shown of a failure. -/
def faultLines (fault : Fault) : List String :=
  let detail := match fault.cause with
    | .violated v => if v.message.isEmpty then [] else [v.message]
    | .noFile path | .isFolder path | .notFolder path | .occupied path | .longName path => [path]
    | _ => []
  ": ".intercalate (kindText fault.cause.kind :: detail) :: fault.notes

/-- A world with the archive in it. -/
def inputWorld (archive : Bytes) : World Project.CacheRecord :=
  let place := Path.place Project.inputArchive
  { tree := (Tree.addFolder {} place.dropLast).put place ⟨.bytes archive, 0⟩ }

/-- Writes all files. -/
def writeTree (tree : Tree Project.CacheRecord) : IO Unit := do
  for folder in tree.folders do
    IO.FS.createDirAll ("/".intercalate folder)
  for (path, data) in tree.bytesBelow [] do
    IO.FS.writeBinFile path ⟨data.toArray⟩

/-- Shows and writes the results. -/
def finish (world : World Project.CacheRecord) : IO Unit := do
  world.log.forM fun line => IO.println line
  writeTree world.tree

/-- Runs the program on the input archive. What a run that fails has written stays. -/
def run : IO UInt32 := do
  let archive ← IO.FS.readBinFile Project.inputArchive
  match Project.repack id (inputWorld archive.toList) with
  | .ok _ world =>
    finish world
    return 0
  | .error fault world =>
    finish world
    (faultLines fault).forM fun line => IO.eprintln line
    return 1

end NovelScript.CommandLine

def main : IO UInt32 := NovelScript.CommandLine.run
