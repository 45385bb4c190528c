import NovelScript.Proofs.Text.Lines
import NovelScript.Source.Constant

/-!
# Quoted texts

A text between quotes is read back as it was (`parseExpression_quoted`), whatever characters it has.
Each character is spelled as itself or as an escape (`Spelled`), and neither the end of the literal
nor the meaning of an escape hangs on what stands beside it.
-/

namespace NovelScript.Source

open List Text

/-! ## Numbers in escapes -/

theorem digit_digitChar {d : Nat} (h : d < 16) :
    isDigitOf 16 d.digitChar = true ∧ digitOf d.digitChar = d := by
  have hall : ∀ d : Fin 16,
      isDigitOf 16 d.val.digitChar = true ∧ digitOf d.val.digitChar = d.val := by decide
  exact hall ⟨d, h⟩

theorem numberOf_append (base : Nat) (digits : List Char) (c : Char) :
    numberOf base (digits ++ [c]) = base * numberOf base digits + digitOf c := by
  rw [numberOf, foldl_append]
  rfl

/-- A number is read from its digits. -/
theorem numberOf_toDigits (n : Nat) :
    (∀ c ∈ Nat.toDigits 16 n, isDigitOf 16 c = true) ∧ numberOf 16 (Nat.toDigits 16 n) = n := by
  induction n using Nat.strongRecOn with
  | ind n ih =>
    rw [Nat.toDigits_eq_if (by decide)]
    split
    · next h =>
      obtain ⟨hdigit, hvalue⟩ := digit_digitChar h
      exact ⟨by simpa using hdigit, by simpa [numberOf] using hvalue⟩
    · next h =>
      obtain ⟨hdigits, hvalues⟩ := ih (n / 16) (by omega)
      obtain ⟨hdigit, hvalue⟩ := digit_digitChar (Nat.mod_lt n (show 16 > 0 by decide))
      refine ⟨?_, ?_⟩
      · simpa [or_imp, forall_and] using ⟨hdigits, hdigit⟩
      · rw [numberOf_append, hvalues, hvalue]
        omega

/-- Padding does not change a number. -/
theorem numberOf_hexPadded {width n : Nat} (hwidth : 0 < width) (h : n < 16 ^ width) :
    (hexPadded width n).toList.length = width ∧
      (∀ c ∈ (hexPadded width n).toList, isDigitOf 16 c = true) ∧
      numberOf 16 (hexPadded width n).toList = n := by
  obtain ⟨hdigits, hvalue⟩ := numberOf_toDigits n
  have hlength := (Nat.length_toDigits_le_iff (b := 16) (by decide) hwidth).mpr h
  have hzeros (k : Nat) : (replicate k '0').foldl (fun n c => 16 * n + digitOf c) 0 = 0 := by
    induction k with
    | zero => rfl
    | succ k ih => exact ih
  rw [hexPadded, String.toList_ofList]
  refine ⟨?_, fun c hc => ?_, ?_⟩
  · rw [length_append, length_replicate]
    omega
  · rcases mem_append.mp hc with hc | hc
    · rw [eq_of_mem_replicate hc]
      decide
    · exact hdigits c hc
  · rw [numberOf, foldl_append, hzeros]
    exact hvalue

/-! ## Spellings -/

/-- How a character is spelled between quotes: as itself, by a letter or by its number. -/
inductive Spelled (quote : Char) : List Char → Char → Prop
  | plain {c : Char} (hquote : c ≠ quote) (hslash : c ≠ '\\') (hvisible : isVisible c = true) :
      Spelled quote [c] c
  | letter {l c : Char} (hl : 32 ≤ l.toNat) (hmeant : letterEscapes.lookup l = some c) :
      Spelled quote ['\\', l] c
  | number {l c : Char} {digits : List Char} (hl : 32 ≤ l.toNat)
      (hother : letterEscapes.lookup l = none)
      (hcount : (numberEscapes true).lookup l = some digits.length)
      (hdigits : ∀ d ∈ digits, isDigitOf 16 d = true) (hvalue : numberOf 16 digits = c.toNat) :
      Spelled quote ('\\' :: l :: digits) c

theorem spelled_hexPadded {quote l c : Char} {width : Nat} (hl : 32 ≤ l.toNat)
    (hother : letterEscapes.lookup l = none) (hcount : (numberEscapes true).lookup l = some width)
    (hwidth : 0 < width) (h : c.toNat < 16 ^ width) :
    Spelled quote ('\\' :: l :: (hexPadded width c.toNat).toList) c := by
  obtain ⟨hlength, hdigits, hvalue⟩ := numberOf_hexPadded hwidth h
  exact .number hl hother (by rw [hlength, hcount]) hdigits hvalue

/-- An escape by number is read back. -/
theorem spelled_escapeByNumber (quote c : Char) :
    Spelled quote (escapeByNumber c.toNat).toList c := by
  have hsize : c.toNat < 16 ^ 8 := c.val.toNat_lt
  unfold escapeByNumber
  split
  · rw [String.toList_append]
    exact spelled_hexPadded (l := 'x') (by decide) rfl rfl (by decide) ‹_›
  · rw [apply_ite String.toList, String.toList_append, String.toList_append]
    split
    · exact spelled_hexPadded (l := 'u') (by decide) rfl rfl (by decide) ‹_›
    · exact spelled_hexPadded (l := 'U') (by decide) rfl rfl (by decide) hsize

/-- The two kinds of quotes. -/
def IsQuote (c : Char) : Prop := c = '\'' ∨ c = '"'

/-- Every character is spelled so that it is read back. -/
theorem spelled_quoteChar {quote : Char} (hquote : IsQuote quote) (c : Char) :
    Spelled quote (quoteChar quote c).toList c := by
  unfold quoteChar
  split
  · next h =>
    subst h
    rw [String.toList_ofList]
    rcases hquote with rfl | rfl <;> exact .letter (by decide) rfl
  · next hne =>
    split
    · unfold escapeChar
      split
      · next h => subst h; exact .letter (by decide) rfl
      · split
        · next h => subst h; exact .letter (by decide) rfl
        · split
          · next h => subst h; exact .letter (by decide) rfl
          · split
            · next h => subst h; exact .letter (by decide) rfl
            · exact spelled_escapeByNumber quote c
    · next h =>
      simp only [Bool.or_eq_true, decide_eq_true_eq, Bool.not_eq_true', not_or,
        Bool.not_eq_false] at h
      rw [Char.toString, String.toList_singleton]
      exact .plain hne h.1 h.2

namespace Spelled

variable {quote c : Char} {piece : List Char}

theorem le_toNat_of_digit {x : Char} (h : isDigitOf 16 x = true) : 48 ≤ x.toNat := by
  by_contra hlow
  have hnone : ∀ n : Fin 48, isDigitOf 16 (Char.ofNat n.val) = false := by decide
  have hx := hnone ⟨x.toNat, by omega⟩
  rw [Char.ofNat_toNat, h] at hx
  cases hx

theorem le_toNat (h : Spelled quote piece c) : ∀ x ∈ piece, 32 ≤ x.toNat := by
  cases h with
  | plain hquote hslash hvisible =>
    have hle : 32 ≤ c.toNat := by
      unfold isVisible at hvisible
      split at hvisible
      · exact of_decide_eq_true hvisible
      · omega
    simpa using hle
  | letter hl =>
    simpa using hl
  | number hl hother hcount hdigits =>
    simp only [forall_mem_cons]
    refine ⟨by decide, hl, fun x hx => ?_⟩
    have := le_toNat_of_digit (hdigits x hx)
    omega

theorem quotedRun_append {cs : List Char} (h : ∀ x ∈ cs, x ≠ quote ∧ x ≠ '\\' ∧ x ≠ '\n')
    (rest : List Char) : quotedRun quote false (cs ++ rest) =
      (quotedRun quote false rest).map fun x => (cs ++ x.1, x.2) := by
  induction cs with
  | nil => simp
  | cons c cs ih =>
    obtain ⟨⟨hquote, hslash, hline⟩, hrest⟩ := forall_mem_cons.mp h
    rw [cons_append]
    simp [quotedRun, hquote, hslash, hline, ih hrest, Function.comp_def]

theorem quotedRun (hquote : IsQuote quote) (h : Spelled quote piece c) (rest : List Char) :
    Source.quotedRun quote false (piece ++ rest) =
      (Source.quotedRun quote false rest).map fun x => (piece ++ x.1, x.2) := by
  have hlower := h.le_toNat
  cases h with
  | plain hne hslash hvisible =>
    refine quotedRun_append (forall_mem_singleton.mpr ⟨hne, hslash, ?_⟩) rest
    rintro rfl
    exact absurd hvisible (by decide)
  | letter hl hmeant => simp [Source.quotedRun]
  | @number _ _ digits hl hother hcount hdigits hvalue =>
    have hplain : ∀ x ∈ digits, x ≠ quote ∧ x ≠ '\\' ∧ x ≠ '\n' := by
      intro x hx
      have hdigit := hdigits x hx
      have hle := le_toNat_of_digit hdigit
      refine ⟨?_, ?_, ?_⟩
      · rintro rfl
        rcases hquote with rfl | rfl <;> exact absurd hle (by decide)
      all_goals
        rintro rfl
        exact absurd hdigit (by decide)
    simp [Source.quotedRun, quotedRun_append hplain, Function.comp_def]

/-- A piece means its character, whatever follows it. -/
theorem unescape (h : Spelled quote piece c) (fuel : Nat) (rest : List Char) :
    Source.unescape true (fuel + 1) (piece ++ rest) =
      (Source.unescape true fuel rest).map (.char c :: ·) := by
  have hstep : Source.unescape true (fuel + 1) (piece ++ rest) =
      (Source.unescape true fuel rest).bind fun tail => some (.char c :: tail) := by
    cases h with
    | plain hne hslash hvisible =>
      refine Eq.trans ?_ Option.map_eq_bind
      simp [Source.unescape, hslash]
    | @letter l _ hl hmeant =>
      have hline : l ≠ '\n' := by
        rintro rfl
        exact absurd hl (by decide)
      simp [Source.unescape, escapeAt, hmeant, hline]
    | @number l _ digits hl hother hcount hdigits hvalue =>
      have hline : l ≠ '\n' := by
        rintro rfl
        exact absurd hl (by decide)
      have hpoint : Sign.ofPoint? c.toNat = some (.char c) := by
        rw [Sign.ofPoint?, if_pos (show c.toNat.isValidChar from c.valid), Char.ofNat_toNat]
      have hall : digits.all (isDigitOf 16) = true := all_eq_true.mpr hdigits
      simp [Source.unescape, escapeAt, hline, hother, hcount, hall, hvalue, hpoint]
  exact hstep.trans Option.map_eq_bind.symm

theorem exists_cons (hquote : IsQuote quote) (h : Spelled quote piece c) :
    ∃ x xs, piece = x :: xs ∧ x ≠ quote := by
  have hslash : '\\' ≠ quote := by rcases hquote with rfl | rfl <;> decide
  cases h with
  | plain hne => exact ⟨_, _, rfl, hne⟩
  | letter | number => exact ⟨_, _, rfl, hslash⟩

end Spelled

/-! ## Literals -/

/-- What stands between the quotes. -/
def quotedBody (quote : Char) (cs : List Char) : List Char :=
  cs.flatMap fun c => (quoteChar quote c).toList

variable (s : String)

theorem toList_quoted : ∃ quote, IsQuote quote ∧
    (quoted s).toList = quote :: (quotedBody quote s.toList ++ [quote]) := by
  refine ⟨quoteFor (Wording.ofString s).contains, ?_, ?_⟩
  · unfold quoteFor
    split
    · exact .inr rfl
    · exact .inl rfl
  · simp only [quoted, quotedWording, String.toList_append, String.toList_join, Char.toString,
      String.toList_singleton, Wording.ofString, Wording.ofChars, flatMap_map, map_map]
    rfl

variable {quote : Char} {cs : List Char}

section

variable (hquote : IsQuote quote)
include hquote

/-- A run ends at the closing quote. -/
theorem quotedRun_body (cs rest : List Char) :
    quotedRun quote false (quotedBody quote cs ++ quote :: rest) =
      some (quotedBody quote cs, rest) := by
  induction cs with
  | nil =>
    have hslash : quote ≠ '\\' := by rcases hquote with rfl | rfl <;> decide
    simp [quotedBody, quotedRun, hslash]
  | cons c cs ih =>
    rw [quotedBody, flatMap_cons, append_assoc, (spelled_quoteChar hquote c).quotedRun hquote]
    rw [quotedBody] at ih
    rw [ih]
    rfl

/-- The escapes of a literal are undone. -/
theorem unescape_body {fuel : Nat} (hfuel : cs.length ≤ fuel) :
    unescape true fuel (quotedBody quote cs) = some (cs.map .char) := by
  induction cs generalizing fuel with
  | nil => cases fuel <;> rfl
  | cons c cs ih =>
    obtain ⟨fuel, rfl⟩ : ∃ n, fuel = n + 1 := ⟨fuel - 1, by simp at hfuel; omega⟩
    rw [quotedBody, flatMap_cons, (spelled_quoteChar hquote c).unescape]
    rw [quotedBody] at ih
    rw [ih (by simpa using hfuel)]
    rfl

theorem length_le_body (cs : List Char) : cs.length ≤ (quotedBody quote cs).length := by
  induction cs with
  | nil => exact Nat.le_refl 0
  | cons c cs ih =>
    obtain ⟨x, xs, hpiece, -⟩ := (spelled_quoteChar hquote c).exists_cons hquote
    rw [quotedBody] at ih
    rw [quotedBody, flatMap_cons, length_append, hpiece, length_cons, length_cons]
    omega

theorem le_toNat_body : ∀ x ∈ quotedBody quote cs, 32 ≤ x.toNat := by
  intro x hx
  obtain ⟨c, -, hx⟩ := mem_flatMap.mp hx
  exact (spelled_quoteChar hquote c).le_toNat x hx

theorem quotedContents_body (cs : List Char) :
    quotedContents (quote :: (quotedBody quote cs ++ [quote, '\n'])) =
      some (quotedBody quote cs, ['\n']) := by
  have hsingle : [quote, quote].isPrefixOf (quotedBody quote cs ++ [quote, '\n']) = false := by
    cases cs with
    | nil => rcases hquote with rfl | rfl <;> rfl
    | cons c cs =>
      obtain ⟨x, xs, hpiece, hne⟩ := (spelled_quoteChar hquote c).exists_cons hquote
      rw [quotedBody, flatMap_cons, hpiece]
      simp [isPrefixOf, Ne.symm hne]
  rw [quotedContents, hsingle, if_neg Bool.false_ne_true]
  exact quotedRun_body hquote cs ['\n']

theorem tokenAt_body (cs : List Char) :
    tokenAt (quote :: (quotedBody quote cs ++ [quote, '\n'])) =
      some ⟨.text (.ofChars cs) false, 0, ['\n']⟩ := by
  have hmarks : marksBefore (quote :: (quotedBody quote cs ++ [quote, '\n'])) = some [] := by
    rcases hquote with rfl | rfl <;> simp [marksBefore, literalMarks]
  have hcount : (quotedBody quote cs).count '\n' = 0 :=
    count_eq_zero.mpr fun hx => absurd (le_toNat_body hquote _ hx) (by decide)
  have hliteral : literalToken [] (quotedBody quote cs) = some (.text (.ofChars cs) false) := by
    have hsigns := unescape_body hquote (length_le_body hquote cs)
    simp [literalToken, literalContents, hsigns, Wording.ofChars]
  simp [tokenAt, hmarks, quotedContents_body hquote, hliteral, hcount]

theorem tokensFrom_literal {rest : List Char} {w : Wording}
    (h : tokenAt (quote :: rest) = some ⟨.text w false, 0, ['\n']⟩) (fuel : Nat) :
    tokensFrom (fuel + 4) {} (quote :: rest) = some [⟨.text w false, 1⟩, ⟨.newline, 1⟩] := by
  rcases hquote with rfl | rfl <;> simp [tokensFrom, margin, blocksAt, closeBlocks, h]

end

theorem le_toNat_quoted : ∀ x ∈ (quoted s).toList, 32 ≤ x.toNat := by
  obtain ⟨quote, hquote, hchars⟩ := toList_quoted s
  have hself : 32 ≤ quote.toNat := by rcases hquote with rfl | rfl <;> decide
  rw [hchars]
  simpa [hself, or_imp, forall_and] using le_toNat_body hquote

/-- A quoted text is one token. -/
theorem tokens_quoted :
    tokens (quoted s) = some [⟨.text (.ofString s) false, 1⟩, ⟨.newline, 1⟩] := by
  obtain ⟨quote, hquote, hchars⟩ := toList_quoted s
  have hcomplete : completeLines (quoted s) =
      quote :: (quotedBody quote s.toList ++ [quote, '\n']) := by
    have hend : endsPlainly (quoted s).toList = false := by
      rw [hchars]
      rcases hquote with rfl | rfl <;> simp [endsPlainly]
    have hreturn : '\r' ∉ (quoted s).toList := fun h =>
      absurd (le_toNat_quoted s _ h) (by decide)
    rw [completeLines, hend, if_neg Bool.false_ne_true, plainLines_of_not_mem hreturn, hchars]
    simp
  rw [tokens, hcomplete]
  exact tokensFrom_literal hquote (tokenAt_body hquote s.toList) _

/-- A quoted text is parsed as that text. -/
theorem parseExpression_quoted : parseExpression (quoted s) = .ok (.text (.ofString s)) := by
  obtain ⟨quote, hquote, hchars⟩ := toList_quoted s
  have hblanks : (quoted s).toList.dropWhile (fun c => c == ' ' || c == '\t') =
      (quoted s).toList := by
    rw [hchars]
    rcases hquote with rfl | rfl <;> simp
  have hzero : (quoted s).toList.contains '\x00' = false := by
    rw [contains_eq_mem, decide_eq_false_iff_not]
    exact fun h => absurd (le_toNat_quoted s _ h) (by decide)
  have hjoin : Wording.join [.ofString s] = .ofString s := by simp [Wording.join]
  have hparse : expressionOf [⟨.text (.ofString s) false, 1⟩, ⟨.newline, 1⟩] =
      some (.text (.join [.ofString s])) := rfl
  rw [parseExpression, hblanks, hzero, String.ofList_toList, tokens_quoted, Option.bind_some,
    hparse, hjoin]
  rfl

end NovelScript.Source
