import NovelScript.Fault

/-!
# Text literals of the bytecode

A text literal stands between two equal quotes. A backslash inside is doubled, and no other escape
exists, so a text that holds both kinds of quotes has no literal.
-/

namespace NovelScript.Literal

abbrev backslash : Sign := .char '\\'

/-- Doubles backslashes. -/
def escape (w : Wording) : Wording :=
  ⟨w.signs.flatMap fun s => if s = backslash then [s, s] else [s]⟩

/-- What stands between the quotes, with doubled backslashes made single. A single backslash at the
very end stands for itself; before anything else it is no escape. -/
def unescape? : List Sign → Option (List Sign)
  | [] => some []
  | [s] => some [s]
  | s :: t :: rest =>
    if s ≠ backslash then (unescape? (t :: rest)).map (s :: ·)
    else if t = backslash then (unescape? rest).map (s :: ·)
    else none

/-- The text of a literal. Only the sameness of the first and the last sign is asked for, which need
not be quotes. -/
def unquote (literal : Wording) : Except Fault Wording :=
  match literal.signs with
  | [] => .error (Cause.pastEnd 0)
  | s :: rest =>
    if rest.getLast? = some s ∨ rest = [] then
      match unescape? rest.dropLast with
      | some signs => .ok ⟨signs⟩
      | none => .error (Violation.escape literal.shown)
    else .error Condition.matchingQuotes

/-- The quote that a wording is written with. -/
def quoteFor (w : Wording) : Char :=
  if w.contains '"' then '\'' else '"'

/-- A wording as a literal. -/
def quote (w : Wording) : Except Fault Wording := do
  require (!(w.contains '"' && w.contains '\'')) Condition.oneQuoteKind
  let q := Wording.ofChars [quoteFor w]
  let literal := q ++ escape w ++ q
  require ((← unquote literal) == w) Condition.literalReadsBack
  return literal

end NovelScript.Literal
