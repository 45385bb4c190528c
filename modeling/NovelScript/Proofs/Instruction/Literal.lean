import NovelScript.Instruction.Literal
import NovelScript.Proofs.Outcome

/-!
# Quoting texts

A text is put between quotes exactly if it does not hold both kinds, and what is between them is
read back as the text (`quote_unquote_iff`). Doubling and halving backslashes are inverse whatever
stands beside them, also at the end of a text, where the closing quote follows.
-/

namespace NovelScript.Literal

open List

variable {w literal : Wording}

theorem unescape?_cons {s : Sign} (h : s ≠ backslash) (rest : List Sign) :
    unescape? (s :: rest) = (unescape? rest).map (s :: ·) := by
  cases rest with
  | nil => rfl
  | cons t rest => rw [unescape?, if_pos h]

/-- Escaping is undone. -/
theorem unescape?_escape (signs : List Sign) : unescape? (escape ⟨signs⟩).signs = some signs := by
  induction signs with
  | nil => rfl
  | cons s rest ih =>
    simp only [escape, flatMap_cons] at ih ⊢
    by_cases h : s = backslash
    · rw [if_pos h, h, cons_append, singleton_append, unescape?, if_neg (not_not.mpr rfl),
        if_pos rfl, ih]
      rfl
    · rw [if_neg h, singleton_append, unescape?_cons h, ih]
      rfl

theorem unquote_delimited (q : Sign) (w : Wording) :
    unquote (⟨[q]⟩ ++ escape w ++ ⟨[q]⟩) = .ok w := by
  show unquote ⟨q :: ((escape w).signs ++ [q])⟩ = .ok w
  simp only [unquote, getLast?_concat, true_or, if_true, dropLast_concat]
  rw [unescape?_escape w.signs]

/-- A wording has both kinds of quotes in it. -/
def HoldsBothQuotes (w : Wording) : Prop := w.contains '"' = true ∧ w.contains '\'' = true

/-- Nothing delimits a wording with both kinds. -/
theorem quote_of_holdsBoth (h : HoldsBothQuotes w) : quote w = .error Condition.oneQuoteKind := by
  rw [quote, h.1, h.2]
  rfl

/-- Any other wording is delimited, and found again. -/
theorem exists_quote (h : ¬HoldsBothQuotes w) :
    ∃ literal, quote w = .ok literal ∧ unquote literal = .ok w := by
  have hone : (!(w.contains '"' && w.contains '\'')) = true := by
    rwa [Bool.not_eq_true', Bool.eq_false_iff, ne_eq, Bool.and_eq_true]
  have hback := unquote_delimited (.char (quoteFor w)) w
  refine ⟨_, ?_, hback⟩
  simp only [quote, hone, require, if_true]
  rw [Wording.ofChars, map_singleton, hback, ok_bind, beq_self_eq_true, if_pos rfl]
  rfl

theorem unquote_of_quote (h : quote w = .ok literal) : unquote literal = .ok w := by
  by_cases hboth : HoldsBothQuotes w
  · rw [quote_of_holdsBoth hboth] at h
    cases h
  · obtain ⟨_, hquote, hback⟩ := exists_quote hboth
    rw [h] at hquote
    cases hquote
    exact hback

/-- A text has a literal exactly if it does not hold both kinds of quotes, which is the only way to
fail, and the literal stands for the text. What any literal stands for is quoted and read back
alike, whatever its delimiters are. -/
theorem quote_unquote_iff (w : Wording) :
    ((∃ literal, quote w = .ok literal) ↔ ¬HoldsBothQuotes w) ∧
      (∀ fault, quote w = .error fault → fault = Condition.oneQuoteKind) ∧
      (∀ literal, quote w = .ok literal → unquote literal = .ok w) ∧
      (∀ literal, unquote literal = .ok w → ¬HoldsBothQuotes w →
        (unquote literal >>= quote >>= unquote) = unquote literal) := by
  refine ⟨⟨?_, fun h => ?_⟩, fun fault h => ?_, fun literal => unquote_of_quote,
    fun literal hread h => ?_⟩
  · rintro ⟨literal, h⟩ hboth
    rw [quote_of_holdsBoth hboth] at h
    cases h
  · obtain ⟨literal, hquote, -⟩ := exists_quote h
    exact ⟨literal, hquote⟩
  · by_cases hboth : HoldsBothQuotes w
    · rw [quote_of_holdsBoth hboth] at h
      cases h
      rfl
    · obtain ⟨literal, hquote, -⟩ := exists_quote hboth
      rw [hquote] at h
      cases h
  · obtain ⟨literal', hquote, hback⟩ := exists_quote h
    rw [hread, ok_bind, hquote, ok_bind, hback]

/-- A text that ends with backslashes and holds a double quote, and a literal between letters. -/
theorem quote_unquote_iff_backslashes :
    (∃ literal, quote (.ofString "\"\\\\") = .ok literal) ∧
      (unquote (.ofString "a\"\\\\\\\\a") >>= quote >>= unquote) = .ok (.ofString "\"\\\\") := by
  obtain ⟨hone, -, -, hforeign⟩ := quote_unquote_iff (.ofString "\"\\\\")
  have hnot : ¬HoldsBothQuotes (.ofString "\"\\\\") := by
    unfold HoldsBothQuotes
    decide
  have hread : unquote (.ofString "a\"\\\\\\\\a") = .ok (.ofString "\"\\\\") := by
    decide +kernel
  exact ⟨hone.mpr hnot, (hforeign _ hread hnot).trans hread⟩

end NovelScript.Literal
