/-!
# Parts of a text
-/

namespace NovelScript.Text

/-- The parts of a text between separators. A text without a separator is one part, also if it is
empty. -/
def partsAt (separator : Char) : List Char → List (List Char)
  | [] => [[]]
  | c :: rest =>
    if c = separator then [] :: partsAt separator rest
    else
      match partsAt separator rest with
      | [] => [[c]]
      | part :: parts => (c :: part) :: parts

end NovelScript.Text
