import NovelScript.Text.Parts

/-!
# Lines of text

Files end lines in several ways; texts in memory end them with a single line feed.
-/

namespace NovelScript.Text

/-- All line ends as line feeds. -/
def plainLines : List Char → List Char
  | [] => []
  | '\r' :: '\n' :: rest => '\n' :: plainLines rest
  | c :: rest => (if c = '\r' then '\n' else c) :: plainLines rest

def pairedLines (cs : List Char) : List Char :=
  cs.flatMap fun c => if c = '\n' then ['\r', '\n'] else [c]

/-- The lines of a text. A text without a line feed is one line, also if it is empty. -/
def linesOf (text : String) : List String := (partsAt '\n' text.toList).map String.ofList

def wideBlanks : List Nat :=
  [0x85, 0xA0, 0x1680, 0x2028, 0x2029, 0x202F, 0x205F, 0x3000] ++ List.range' 0x2000 11

/-- Whether a character is blank. -/
def isBlank (c : Char) : Bool :=
  let n := c.toNat
  (9 ≤ n && n ≤ 13) || (28 ≤ n && n ≤ 32) || wideBlanks.contains n

def trimEnd (text : String) : String :=
  String.ofList (text.toList.reverse.dropWhile isBlank).reverse

end NovelScript.Text
