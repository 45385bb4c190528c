/-!
# Replacing parts of lists
-/

namespace NovelScript

/-- A list with every occurrence of a part replaced, from the left. The first `skip` items belong to
an occurrence that is replaced already. -/
def replaceAll {α : Type} [BEq α] (part replacement : List α) (skip : Nat) : List α → List α
  | [] => []
  | a :: rest =>
    match skip with
    | k + 1 => replaceAll part replacement k rest
    | 0 =>
      if part.isPrefixOf (a :: rest) then
        replacement ++ replaceAll part replacement (part.length - 1) rest
      else a :: replaceAll part replacement 0 rest

/-- Whether a part occurs. -/
def occursIn {α : Type} [BEq α] (part : List α) : List α → Bool
  | [] => part.isEmpty
  | a :: rest => part.isPrefixOf (a :: rest) || occursIn part rest

end NovelScript
