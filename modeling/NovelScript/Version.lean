import NovelScript.Fault

/-!
# Versions of the engine

Every file carries the version of the engine that it was made for. Only a range of versions is
understood, and a caller may put another version in the place of the one in the file.
-/

namespace NovelScript

def isSupportedVersion (version : Int) : Bool := 200 ≤ version && version < 600

/-- The version to go by: the one that the caller gives, unless it is zero, or the one found. -/
def chosenVersion (given : Option Int) (found : Int) : Int :=
  match given with
  | some v => if v = 0 then found else v
  | none => found

def requireVersion {m : Type → Type} [Monad m] [MonadExceptOf Fault m] (version : Int) : m Unit :=
  require (isSupportedVersion version) (Violation.unsupportedVersion version)

end NovelScript
