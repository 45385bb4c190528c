import NovelScript.Text.Identifier.Marks
import NovelScript.Text.Identifier.Starts
import NovelScript.Text.Normal

/-!
# Identifiers

Which characters a name may hold, and the form in which names are compared: letters, the underscore
and, after the first character, digits and combining marks. Names are the same if their normal forms
are, so wide forms of Latin letters and digits count as the plain ones.
-/

namespace NovelScript.Text

def isNameStart (c : Char) : Bool :=
  if c.toNat < 0x80 then c.isAlpha || c == '_' else startRanges.contains c.toNat

def isNameRest (c : Char) : Bool :=
  if c.toNat < 0x80 then c.isAlphanum || c == '_'
  else startRanges.contains c.toNat || markRanges.contains c.toNat

/-- Whether characters make a name. -/
def isName : List Char → Bool
  | [] => false
  | c :: rest => isNameStart c && rest.all isNameRest

def plainName (cs : List Char) : String := String.ofList (normalForm cs)

end NovelScript.Text
