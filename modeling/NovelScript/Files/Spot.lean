import NovelScript.Fault
import NovelScript.Files.Tree

/-!
# Where paths lead

A path is followed part by part from where it starts. Each part must be a name in a folder; only the
last one may be missing.
-/

namespace NovelScript

/-- What a path leads to. -/
inductive Spot (ρ : Type) where
  | folder (place : Place)
  | file (place : Place) (file : File ρ)
  /-- Nothing is there, but the folder around it is. -/
  | free (place : Place)

namespace Path

/-- The longest name. -/
def maxName : Nat := 255

/-- The longest path. -/
def maxPath : Nat := 4095

/-- The paths of the folders on the way. -/
def ways (path : String) : List String :=
  ((List.range (parts path).length).map fun n => "/".intercalate ((parts path).take (n + 1))).filter
    fun way => !way.isEmpty

end Path

namespace Tree

variable {ρ : Type}

/-- What stands at a place. -/
def spotAt (t : Tree ρ) (p : Place) : Spot ρ :=
  if t.isFolder p then .folder p
  else
    match t.file? p with
    | some f => .file p f
    | none => .free p

/-- Goes on by a part of a path. -/
def follow (t : Tree ρ) (path : String) : Spot ρ → String → Except Fault (Spot ρ)
  | .folder p, part =>
    if part = "" ∨ part = "." then .ok (.folder p)
    else if part = ".." then .ok (.folder (Path.around p))
    else if Path.maxName < part.utf8ByteSize then .error (Cause.longName path)
    else .ok (t.spotAt (p ++ [part]))
  | .file _ _, _ => .error (Cause.notFolder path)
  | .free _, _ => .error (Cause.noFile path)

/-- What a path leads to. The empty path leads nowhere. -/
def locate (t : Tree ρ) (path : String) : Except Fault (Spot ρ) := do
  require (!path.toList.contains '\x00') (Cause.zeroInPath path)
  require (!path.isEmpty) (Cause.noFile path)
  require (path.utf8ByteSize ≤ Path.maxPath) (Cause.longName path)
  (Path.parts path).foldlM (t.follow path) (.folder (Path.start path))

end Tree

end NovelScript
