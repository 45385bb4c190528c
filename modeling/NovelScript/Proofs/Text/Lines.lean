import Mathlib.Data.List.DropRight
import NovelScript.Proofs.Outcome
import NovelScript.Text.Lines

/-!
# Lines of a text

The lines of a text are what it is joined from, and white space at its end is what can be put behind
it. Together (`partsAt_trimmed`): the lines of a text without the white space at its end are the
only ones from which the text is joined, but for white space behind them, and of which the last ends
in something else, if there is anything.
-/

namespace NovelScript.Text

open List

variable {lines : List (List Char)} {text : List Char} (separator : Char) (cs : List Char)

/-! ## Line ends -/

theorem plainLines_append {a : List Char} (h : '\r' ∉ a) (b : List Char) :
    plainLines (a ++ b) = a ++ plainLines b := by
  induction a with
  | nil => rfl
  | cons c a ih =>
    obtain ⟨hc, ha⟩ := not_or.mp (mt mem_cons.mpr h)
    rw [cons_append, plainLines, if_neg (Ne.symm hc), ih ha]
    · rfl
    · exact fun _ hreturn => absurd hreturn (Ne.symm hc)

/-- A text without returns is plain. -/
theorem plainLines_of_not_mem {cs : List Char} (h : '\r' ∉ cs) : plainLines cs = cs := by
  simpa [plainLines] using plainLines_append h []

theorem not_mem_plainLines : '\r' ∉ plainLines cs := by
  fun_induction plainLines cs with
  | case1 => exact not_mem_nil
  | case2 rest ih => simpa using ih
  | case3 c rest _ ih =>
    refine not_mem_cons_of_ne_of_not_mem ?_ ih
    split
    · decide
    · next hc => exact Ne.symm hc

theorem isBlank_plainLines :
    (∀ c ∈ plainLines cs, isBlank c = true) ↔ ∀ c ∈ cs, isBlank c = true := by
  have hfeed : isBlank '\n' = true := by decide
  have hreturn : isBlank '\r' = true := by decide
  fun_induction plainLines cs with
  | case1 => rfl
  | case2 rest ih => simp [ih, hfeed, hreturn]
  | case3 c rest _ ih =>
    rw [forall_mem_cons, forall_mem_cons]
    refine and_congr ?_ ih
    by_cases hc : c = '\r' <;> simp [hc, hfeed, hreturn]

/-! ## Parts -/

/-- Parts are those between separators. -/
theorem partsAt_eq_splitOn (text : List Char) :
    partsAt separator text = text.splitOn separator := by
  induction text with
  | nil => rw [partsAt, splitOn_nil]
  | cons c rest ih =>
    rw [partsAt, ih, splitOn_cons_eq_if_modifyHead]
    by_cases hc : c = separator
    · simp [hc]
    · cases hparts : rest.splitOn separator with
      | nil => exact absurd hparts (splitOn_ne_nil _ _)
      | cons part parts => simp [hc]

/-- Lines with line feeds between them. -/
def joinLines (lines : List (List Char)) : List Char := ['\n'].intercalate lines

theorem joinLines_cons (line : List Char) (lines : List (List Char)) :
    joinLines (line :: lines) = line ++ lines.flatMap ('\n' :: ·) := by
  induction lines generalizing line with
  | nil => simp [joinLines]
  | cons next lines ih =>
    rw [joinLines, intercalate_cons_cons, ← joinLines, ih]
    simp

theorem joinLines_append {first : List (List Char)} (h : first ≠ []) (rest : List (List Char)) :
    joinLines (first ++ rest) = joinLines first ++ rest.flatMap ('\n' :: ·) := by
  cases first with
  | nil => exact absurd rfl h
  | cons line lines => simp [joinLines_cons]

theorem mem_joinLines {c : Char} (hc : c ≠ '\n') :
    c ∈ joinLines lines ↔ ∃ line ∈ lines, c ∈ line := by
  cases lines with
  | nil => simp [joinLines]
  | cons line lines => simp [joinLines_cons, hc]

/-- Lines that are joined are found again. -/
theorem partsAt_joinLines (h : ∀ line ∈ lines, '\n' ∉ line) (hne : lines ≠ []) :
    partsAt '\n' (joinLines lines) = lines := by
  rw [partsAt_eq_splitOn, joinLines, splitOn_intercalate _ h hne]

/-- A text is its lines joined. -/
theorem joinLines_partsAt (text : List Char) : joinLines (partsAt '\n' text) = text := by
  rw [partsAt_eq_splitOn, joinLines, intercalate_splitOn]

theorem partsAt_ne_nil (text : List Char) : partsAt separator text ≠ [] := by
  rw [partsAt_eq_splitOn]
  exact splitOn_ne_nil _ _

theorem not_mem_of_mem_partsAt {separator : Char} {part : List Char}
    (h : part ∈ partsAt separator text) : separator ∉ part := by
  induction text generalizing part with
  | nil =>
    rw [partsAt, mem_singleton] at h
    simp [h]
  | cons c rest ih =>
    rw [partsAt] at h
    split at h
    · rcases mem_cons.mp h with rfl | h
      · exact not_mem_nil
      · exact ih h
    · next hc =>
      cases hparts : partsAt separator rest with
      | nil => exact absurd hparts (partsAt_ne_nil _ _)
      | cons first others =>
        rw [hparts] at h ih
        rcases mem_cons.mp h with rfl | h
        · exact not_mem_cons_of_ne_of_not_mem (Ne.symm hc) (ih mem_cons_self)
        · exact ih (mem_cons_of_mem _ h)

/-! ## White space at the end -/

/-- Whether a text is empty or ends in something else than white space. -/
def EndsPlainly (text : List Char) : Prop :=
  text = [] ∨ ∃ init c, text = init ++ [c] ∧ isBlank c = false

/-- Trimming keeps what ends plainly. -/
theorem rdropWhile_isBlank {kept : List Char} : text.rdropWhile isBlank = kept ↔
    EndsPlainly kept ∧ ∃ blanks, text = kept ++ blanks ∧ ∀ c ∈ blanks, isBlank c = true := by
  constructor
  · rintro rfl
    refine ⟨?_, text.rtakeWhile isBlank, rdropWhile_append_rtakeWhile.symm, fun c hc =>
      mem_rtakeWhile_imp hc⟩
    rcases eq_nil_or_concat' (text.rdropWhile isBlank) with h | ⟨init, c, h⟩
    · exact .inl h
    · have hne : text.rdropWhile isBlank ≠ [] := by simp [h]
      have hlast := rdropWhile_last_not isBlank text hne
      simp only [h] at hlast
      exact .inr ⟨init, c, by simpa using h, by simpa using hlast⟩
  · rintro ⟨hkept, blanks, rfl, hblanks⟩
    induction blanks using reverseRecOn with
    | nil =>
      rw [append_nil]
      rcases hkept with rfl | ⟨init, c, rfl, hc⟩
      · rfl
      · exact rdropWhile_concat_neg _ _ _ (by simp [hc])
    | append_singleton blanks c ih =>
      rw [← append_assoc, rdropWhile_concat_pos _ _ _ (hblanks c (by simp))]
      exact ih fun x hx => hblanks x (by simp [hx])

/-- Lines without line feeds, of which the last ends in something else than white space, or there is
only an empty one. -/
structure TrimmedLines (lines : List (List Char)) : Prop where
  plain : ∀ line ∈ lines, '\n' ∉ line
  last : lines = [[]] ∨ ∃ line c, lines.getLast? = some (line ++ [c]) ∧ isBlank c = false

theorem TrimmedLines.ne_nil (h : TrimmedLines lines) : lines ≠ [] := by
  rintro rfl
  rcases h.last with h | ⟨_, _, h, -⟩ <;> cases h

theorem endsPlainly_concat (init : List Char) (c : Char) :
    EndsPlainly (init ++ [c]) ↔ isBlank c = false := by
  simp [EndsPlainly]

theorem endsPlainly_joinLines (hne : lines ≠ []) :
    EndsPlainly (joinLines lines) ↔
      lines = [[]] ∨ ∃ line c, lines.getLast? = some (line ++ [c]) ∧ isBlank c = false := by
  obtain ⟨init, last, rfl⟩ := (eq_nil_or_concat' lines).resolve_left hne
  have hjoin (h : init ≠ []) : joinLines (init ++ [last]) = joinLines init ++ '\n' :: last := by
    simp [joinLines_append h]
  rcases eq_nil_or_concat' last with rfl | ⟨line, c, rfl⟩
  · by_cases hinit : init = []
    · subst hinit
      simp [joinLines, EndsPlainly]
    · -- the text ends in a line feed
      rw [hjoin hinit, endsPlainly_concat]
      simp [hinit, show isBlank '\n' = true by decide]
  · obtain ⟨text, htext⟩ : ∃ text, joinLines (init ++ [line ++ [c]]) = text ++ [c] := by
      by_cases hinit : init = []
      · exact ⟨line, by simp [hinit, joinLines]⟩
      · exact ⟨joinLines init ++ '\n' :: line, by simp [hjoin hinit]⟩
    have hlast : init ++ [line ++ [c]] ≠ [[]] := fun h => by
      simpa using congrArg getLast? h
    rw [htext, endsPlainly_concat]
    simp [hlast]

/-- Lines of a text without blanks at its end. -/
theorem partsAt_trimmed :
    partsAt '\n' (text.rdropWhile isBlank) = lines ↔ TrimmedLines lines ∧
      ∃ blanks, text = joinLines lines ++ blanks ∧ ∀ c ∈ blanks, isBlank c = true := by
  constructor
  · rintro rfl
    obtain ⟨hends, hblanks⟩ := rdropWhile_isBlank.mp (rfl : text.rdropWhile isBlank = _)
    refine ⟨⟨fun _ => not_mem_of_mem_partsAt, ?_⟩, by rwa [joinLines_partsAt]⟩
    rwa [← endsPlainly_joinLines (partsAt_ne_nil _ _), joinLines_partsAt]
  · rintro ⟨hlines, hblanks⟩
    have hends := (endsPlainly_joinLines hlines.ne_nil).mpr hlines.last
    rw [rdropWhile_isBlank.mpr ⟨hends, hblanks⟩, partsAt_joinLines hlines.plain hlines.ne_nil]

end NovelScript.Text
