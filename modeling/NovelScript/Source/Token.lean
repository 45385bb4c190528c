import NovelScript.Bytes
import NovelScript.Number.Binary64
import NovelScript.Text.Wording

/-!
# Tokens
-/

namespace NovelScript.Source

/-- Tokens. -/
inductive Token where
  | name (id : String)
  | word (id : String)
  | int (value : Nat)
  | float (value : Binary64)
  | imaginary (value : Binary64)
  | text (value : Wording) (marked : Bool)
  | bytes (value : Bytes)
  | sign (symbol : String)
  | newline
  | indent
  | dedent
  deriving DecidableEq

/-- A token with its line. -/
structure Located where
  token : Token
  line : Nat
  deriving DecidableEq

def reserved : List String :=
  ["False", "None", "True", "and", "as", "assert", "async", "await", "break", "class", "continue",
   "def", "del", "elif", "else", "except", "finally", "for", "from", "global", "if", "import", "in",
   "is", "lambda", "nonlocal", "not", "or", "pass", "raise", "return", "try", "while", "with",
   "yield"]

/-- The signs, longer ones first. -/
def signs : List String :=
  ["**=", "//=", ">>=", "<<=", "...", "**", "//", ">>", "<<", "<=", ">=", "==", "!=", "->", "+=",
   "-=", "*=", "/=", "%=", "&=", "|=", "^=", "@=", ":=", "+", "-", "*", "/", "%", "@", "&", "|",
   "^", "~", "<", ">", "(", ")", "[", "]", "\x7b", "\x7d", ",", ":", ".", ";", "="]

end NovelScript.Source
