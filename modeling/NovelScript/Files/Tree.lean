import NovelScript.Bytes
import NovelScript.Text.Parts

/-!
# File trees

A tree of folders and files. A file holds bytes, or a record that a program keeps for itself between
runs. Places in the tree are the names on the way from the root; paths are how they are written.
-/

namespace NovelScript

/-- The names on the way from the start. -/
abbrev Place := List String

namespace Path

/-- The parts of a path. -/
def parts (path : String) : List String := (Text.partsAt '/' path.toList).map String.ofList

def isAbsolute (path : String) : Bool := path.toList.head? == some '/'

/-- The place of the root of all places, which is none that can be reached from the tree. -/
def root : Place := ["/"]

def start (path : String) : Place := if isAbsolute path then root else []

/-- The folder around a place. Folders outside of the tree are told apart by how far they are. -/
def around (place : Place) : Place :=
  if place = root then root
  else if place.all (· == "..") then place ++ [".."]
  else place.dropLast

/-- The place that a part leads to. -/
def enter (place : Place) (part : String) : Place :=
  if part = "" || part = "." then place
  else if part = ".." then around place
  else place ++ [part]

/-- The place of a path. -/
def place (path : String) : Place := (parts path).foldl enter (start path)

/-- A path below another, unless it starts at the root. -/
def join (folder path : String) : String :=
  if isAbsolute path then path
  else if folder.isEmpty || folder.toList.getLast? == some '/' then folder ++ path
  else folder ++ "/" ++ path

/-- The folder of a path. -/
def parent (path : String) : String :=
  match "/".intercalate (parts path).dropLast with
  | "" => if isAbsolute path then "/" else ""
  | folder => folder

/-- A path from a folder on. -/
def relative (folder path : String) : String :=
  match (place path).drop (place folder).length with
  | [] => "."
  | rest => "/".intercalate rest

end Path

/-- What a file holds. -/
inductive Content (ρ : Type) where
  | bytes (data : Bytes)
  | record (value : ρ)

/-- A file with its time. -/
structure File (ρ : Type) where
  content : Content ρ
  time : Int

/-- A tree. Its root and the folders around it are always there and not listed. -/
structure Tree (ρ : Type) where
  folders : List Place := []
  files : List (Place × File ρ) := []

namespace Tree

variable {ρ : Type}

def isFolder (t : Tree ρ) (p : Place) : Bool :=
  p == Path.root || p.all (· == "..") || t.folders.contains p

def file? (t : Tree ρ) (p : Place) : Option (File ρ) := t.files.lookup p

/-- Puts a file. -/
def put (t : Tree ρ) (p : Place) (f : File ρ) : Tree ρ :=
  { t with files := (t.files.filter fun (q, _) => q != p) ++ [(p, f)] }

def addFolder (t : Tree ρ) (p : Place) : Tree ρ :=
  if t.folders.contains p then t else { t with folders := t.folders ++ [p] }

/-- Removes a place with all below it. -/
def remove (t : Tree ρ) (p : Place) : Tree ρ where
  folders := t.folders.filter fun q => !p.isPrefixOf q
  files := t.files.filter fun (q, _) => !p.isPrefixOf q

/-- The files of a folder, sorted. -/
def fileNames (t : Tree ρ) (p : Place) : List String :=
  let own := t.files.filterMap fun (q, _) => if q.dropLast == p then q.getLast? else none
  own.mergeSort fun a b => decide (a ≤ b)

/-- Whether a place comes before another, or is the same: the first different names decide, and a
folder comes before what lies in it. -/
def comesBefore : Place → Place → Bool
  | [], _ => true
  | _ :: _, [] => false
  | a :: p, b :: q => if a == b then comesBefore p q else decide (a ≤ b)

/-- A place with the folders below it, sorted. -/
def foldersBelow (t : Tree ρ) (p : Place) : List Place :=
  let below := t.folders.filter fun q => p.isPrefixOf q && q != p
  p :: below.mergeSort comesBefore

/-- The files below a place, with their bytes. -/
def bytesBelow (t : Tree ρ) (p : Place) : List (String × Bytes) :=
  let own := t.files.filterMap fun (q, f) =>
    match f.content with
    | .bytes data => if p.isPrefixOf q then some ("/".intercalate q, data) else none
    | .record _ => none
  own.mergeSort fun a b => decide (a.1 ≤ b.1)

end Tree

end NovelScript
