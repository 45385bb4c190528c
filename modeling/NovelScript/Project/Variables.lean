import NovelScript.Compile.Script
import NovelScript.Files.Tree

/-!
# Variables of a project

Variables are declared for the whole game, for a folder, or in a script. A script sees those of the
folders around it; where one name is declared in several of them, the innermost folder wins.

The numbers go to the variables of the system first, then to the global ones, to those of folders
and to the static ones of each script, and at last to all temporary ones.
-/

namespace NovelScript.Project

/-! ## Dictionaries -/

/-- A value by a name; a name that is there keeps its place and gets the new value. -/
def setEntry {α : Type} (entries : List (String × α)) (name : String) (value : α) :
    List (String × α) :=
  if entries.any fun (n, _) => n == name then
    entries.map fun (n, v) => if n == name then (n, value) else (n, v)
  else entries ++ [(name, value)]

/-- Sets entries in turn. -/
def setEntries {α : Type} (entries : List (String × α)) (others : List (String × α)) :
    List (String × α) :=
  others.foldl (fun e (n, v) => setEntry e n v) entries

/-! ## What a script sees -/

/-- The declarations of a folder. -/
structure FolderDeclarations where
  folder : String
  declared : List Declared
  deriving DecidableEq

/-- The folders around something in a folder, from the outermost to the folder itself. -/
def foldersAround (folder : String) : List String :=
  let parts := Path.parts folder
  (List.range parts.length).map fun n => "/".intercalate (parts.take (n + 1))

/-- What is known by name in the folders around something, inner folders winning. Of several lists
for one folder the last counts. -/
def visible {α : Type} (lists : List (String × List (String × α))) (folder : String) :
    List (String × α) :=
  (foldersAround folder).foldl (fun seen f =>
    match lists.reverse.lookup f with
    | some entries => setEntries seen entries
    | none => seen) []

def typesOf (declared : List Declared) : List (String × ValueType) :=
  setEntries [] (declared.map fun d => (d.name, d.value.type))

/-! ## Numbers -/

/-- The value that a variable starts with. -/
def initialOf : DeclaredValue → Except Fault Initial
  | .int n => .ok (.int n)
  | .float x => .ok (.float x)
  | .wholeFloat n => do return .float (← orFault (Value.toFloat? n) Cause.overflow)
  | .text s => do
    if s.isEmpty then return .text []
    else return .text [.text (← Literal.quote s)]

/-- The variable of a declaration. -/
def variableOf (scope : Scope) (script number : Nat) (d : Declared) : Except Fault Variable := do
  return ⟨scope, d.extension, script, number, d.dims.map Dimension.size, some (← initialOf d.value)⟩

/-- Numbers declarations from the end of a variable list on, and gives the longer list and the
numbers by name. -/
def number (scope : Scope) (known : List Variable) :
    List Declared → List (String × Nat) → Except Fault (List Variable × List (String × Nat))
  | [], numbers => .ok (known, numbers)
  | d :: rest, numbers => do
    let n := known.length
    let v ← variableOf scope 0 n d
    number scope (known ++ [v]) rest (setEntry numbers d.name n)

/-- Numbers the variables of folders. -/
def numberFolders (known : List Variable) :
    List FolderDeclarations → List (String × List (String × Nat)) →
      Except Fault (List Variable × List (String × List (String × Nat)))
  | [], numbers => .ok (known, numbers)
  | f :: rest, numbers => do
    let (known, own) ← number .folder known f.declared []
    numberFolders known rest (numbers ++ [(f.folder, own)])

/-! ## Linking -/

/-- Where numbers of variables stand, and the number. -/
structure Link where
  offsets : List Nat
  number : Nat
  deriving DecidableEq

/-- Numbers that are taken. -/
structure LinkState where
  known : List Variable
  nextTemporary : Nat
  deriving Inhabited

/-- The number of a variable that is declared outside. A folder variable with the number zero is not
found. -/
def outerNumber (folders globals : List (String × Nat)) (name : String) : Except Fault Nat :=
  match folders.lookup name with
  | some (n + 1) => .ok (n + 1)
  | _ => orFault (globals.lookup name) (Cause.unknownVariable name)

/-- Links a symbol. -/
def linkSymbol (script : Nat) (folders globals : List (String × Nat)) (s : LinkState)
    (u : SymbolUse) : Except Fault (Link × LinkState) :=
  match u.symbol with
  | .temporary =>
    .ok (⟨u.offsets, s.nextTemporary⟩, { s with nextTemporary := s.nextTemporary + 1 })
  | .reference name => do return (⟨u.offsets, ← outerNumber folders globals name⟩, s)
  | .definition d => do
    let n := s.known.length
    let v ← variableOf .static script n d
    return (⟨u.offsets, n⟩, { s with known := s.known ++ [v] })

/-- Links symbols in turn. -/
def linkSymbols (script : Nat) (folders globals : List (String × Nat)) :
    LinkState → List SymbolUse → Except Fault (List Link × LinkState)
  | s, [] => .ok ([], s)
  | s, u :: rest => do
    let (link, s) ← linkSymbol script folders globals s u
    let (links, s) ← linkSymbols script folders globals s rest
    return (link :: links, s)

end NovelScript.Project
