import NovelScript.Replace

/-!
# Replacing words

A text is a list of words with a blank between any two. Replacing a word that has a blank on both
sides goes word by word (`replaceAll_words`). The first and the last word stay, and so does the word
after one that was replaced, since the blank between them belongs to the first.
-/

namespace NovelScript

open List

/-- Words with a blank before each. -/
def spaced (words : List (List Char)) : List Char := words.flatMap (' ' :: ·)

@[simp] theorem spaced_nil : spaced [] = [] := rfl

@[simp] theorem spaced_cons (w : List Char) (words : List (List Char)) :
    spaced (w :: words) = ' ' :: (w ++ spaced words) := by
  simp [spaced]

/-- Replaces a word where there is a blank on both sides. The flag tells that the blank before the
words belongs to a word that was replaced. -/
def respell (word other : List Char) : Bool → List (List Char) → List (List Char)
  | _, [] => []
  | _, [w] => [w]
  | true, w :: rest => w :: respell word other false rest
  | false, w :: rest =>
    if w = word then other :: respell word other true rest
    else w :: respell word other false rest

section

variable {word other : List Char} (w : List Char)

theorem respell_cons {rest : List (List Char)} (hrest : rest ≠ []) :
    respell word other false (w :: rest) =
      if w = word then other :: respell word other true rest
      else w :: respell word other false rest :=
  respell.eq_4 _ _ _ _ hrest

@[simp] theorem respell_true_cons (rest : List (List Char)) :
    respell word other true (w :: rest) = w :: respell word other false rest := by
  cases rest <;> rfl

/-- Respelling keeps what both words share. -/
theorem map_respell {α : Type} {f : List Char → α} (hf : f word = f other) (used : Bool)
    (words : List (List Char)) : (respell word other used words).map f = words.map f := by
  fun_induction respell word other used words with
  | case1 | case2 => rfl
  | case3 w rest _ ih | case5 w rest _ _ ih => rw [map_cons, map_cons, ih]
  | case4 rest _ ih => rw [map_cons, map_cons, ih, hf]

theorem forall_mem_respell {P : List Char → Prop} (hother : P other) {used : Bool}
    {words : List (List Char)} (h : ∀ w ∈ words, P w) :
    ∀ w ∈ respell word other used words, P w := by
  fun_induction respell word other used words with
  | case1 | case2 => exact h
  | case3 w rest _ ih | case5 w rest _ _ ih =>
    obtain ⟨hw, hrest⟩ := forall_mem_cons.mp h
    exact forall_mem_cons.mpr ⟨hw, ih hrest⟩
  | case4 rest _ ih =>
    exact forall_mem_cons.mpr ⟨hother, ih (forall_mem_cons.mp h).2⟩

end

/-! ## Words of a text -/

/-- Words are split where spaces are. -/
theorem splitOn_append_spaced {w : List Char} {ws : List (List Char)} (hw : ' ' ∉ w)
    (hws : ∀ w ∈ ws, ' ' ∉ w) : (w ++ spaced ws).splitOn ' ' = w :: ws := by
  induction ws generalizing w with
  | nil => rw [spaced_nil, append_nil, splitOn_eq_singleton hw]
  | cons v ws ih =>
    obtain ⟨hv, hws⟩ := forall_mem_cons.mp hws
    rw [spaced_cons, splitOn_append_cons_self_of_not_mem hw, ih hv hws]

theorem append_spaced_inj {a b : List Char} {ws vs : List (List Char)} (ha : ' ' ∉ a)
    (hb : ' ' ∉ b) (hws : ∀ w ∈ ws, ' ' ∉ w) (hvs : ∀ v ∈ vs, ' ' ∉ v) :
    a ++ spaced ws = b ++ spaced vs ↔ a = b ∧ ws = vs := by
  refine ⟨fun h => List.cons.inj ?_, by rintro ⟨rfl, rfl⟩; rfl⟩
  rw [← splitOn_append_spaced ha hws, h, splitOn_append_spaced hb hvs]

/-! ## Replacing -/

theorem replaceAll_skip {α : Type} [BEq α] (part other : List α) (skip : Nat) (l : List α) :
    replaceAll part other skip l = replaceAll part other 0 (l.drop skip) := by
  induction l generalizing skip with
  | nil => cases skip <;> rfl
  | cons a l ih =>
    cases skip with
    | zero => rfl
    | succ skip =>
      rw [replaceAll, ih]
      rfl

section

variable {word other : List Char}
variable {w : List Char} {rest : List (List Char)}

/-- A word without spaces is kept. -/
theorem replaceAll_append (w rest : List Char) (hw : ' ' ∉ w) :
    replaceAll (' ' :: (word ++ [' '])) other 0 (w ++ rest) =
      w ++ replaceAll (' ' :: (word ++ [' '])) other 0 rest := by
  induction w with
  | nil => rfl
  | cons c w ih =>
    have hc : (' ' == c) = false := beq_eq_false_iff_ne.mpr fun h => hw (h ▸ mem_cons_self)
    rw [cons_append, replaceAll, isPrefixOf, hc, Bool.false_and, if_neg (by simp),
      ih fun h => hw (mem_cons_of_mem _ h)]
    rfl

/-- A word with a blank on both sides stands at the start of a text if it is the first of several
words. -/
theorem isPrefixOf_spaced (hword : ' ' ∉ word) (hw : ' ' ∉ w) :
    (' ' :: (word ++ [' '])).isPrefixOf (spaced (w :: rest)) = true ↔ w = word ∧ rest ≠ [] := by
  refine isPrefixOf_iff_prefix.trans ?_
  rw [spaced_cons, cons_prefix_cons, and_iff_right rfl]
  cases rest with
  | nil =>
    refine iff_of_false (fun h => hw ?_) (by simp)
    rw [spaced_nil, append_nil] at h
    exact h.subset (by simp)
  | cons v rest =>
    rw [spaced_cons]
    constructor
    · rintro ⟨t, ht⟩
      have hsplit := congrArg (splitOn ' ') ht
      rw [append_assoc, singleton_append, splitOn_append_cons_self_of_not_mem hword,
        splitOn_append_cons_self_of_not_mem hw] at hsplit
      exact ⟨(List.cons.inj hsplit).1.symm, by simp⟩
    · rintro ⟨rfl, -⟩
      exact ⟨v ++ spaced rest, by simp⟩

theorem replaceAll_cons_of_not (other : List Char) (hword : ' ' ∉ word) (hw : ' ' ∉ w)
    (hnot : ¬(w = word ∧ rest ≠ [])) :
    replaceAll (' ' :: (word ++ [' '])) other 0 (spaced (w :: rest)) =
      ' ' :: (w ++ replaceAll (' ' :: (word ++ [' '])) other 0 (spaced rest)) := by
  rw [← isPrefixOf_spaced hword hw, spaced_cons] at hnot
  rw [spaced_cons, replaceAll, if_neg hnot, replaceAll_append _ _ hw]

theorem replaceAll_cons_of_eq (other : List Char) (hword : ' ' ∉ word) {v : List Char}
    (hv : ' ' ∉ v) :
    replaceAll (' ' :: (word ++ [' '])) other 0 (spaced (word :: v :: rest)) =
      other ++ (v ++ replaceAll (' ' :: (word ++ [' '])) other 0 (spaced rest)) := by
  have hprefix : (' ' :: (word ++ [' '])).isPrefixOf (spaced (word :: v :: rest)) = true :=
    (isPrefixOf_spaced hword hword).mpr ⟨rfl, by simp⟩
  rw [spaced_cons] at hprefix
  have hafter : (word ++ spaced (v :: rest)).drop ((' ' :: (word ++ [' '])).length - 1) =
      v ++ spaced rest := by
    have hsplit : word ++ spaced (v :: rest) = (word ++ [' ']) ++ (v ++ spaced rest) := by simp
    rw [hsplit]
    exact drop_left' rfl
  rw [spaced_cons, replaceAll, if_pos hprefix, replaceAll_skip, hafter, replaceAll_append _ _ hv]

/-- Replacing a word between spaces respells every second one of a run. -/
theorem replaceAll_spaced (hword : ' ' ∉ word) :
    ∀ {rest : List (List Char)}, (∀ w ∈ rest, ' ' ∉ w) →
      replaceAll (' ' :: (word ++ [' '])) (' ' :: (other ++ [' '])) 0 (spaced rest) =
        spaced (respell word other false rest)
  | [], _ => rfl
  | [w], hrest => by
    rw [replaceAll_cons_of_not _ hword (hrest w mem_cons_self) (by simp)]
    rfl
  | w :: v :: rest, hrest => by
    have htail : ∀ u ∈ v :: rest, ' ' ∉ u := (forall_mem_cons.mp hrest).2
    rw [respell_cons w (cons_ne_nil v rest)]
    by_cases hsame : w = word
    · -- the word after it is passed together with it
      rw [if_pos hsame, hsame, replaceAll_cons_of_eq _ hword (htail v mem_cons_self),
        replaceAll_spaced hword (forall_mem_cons.mp htail).2, respell_true_cons]
      simp
    · rw [if_neg hsame, replaceAll_cons_of_not _ hword (hrest w mem_cons_self)
        (fun h => hsame h.1), replaceAll_spaced hword htail, spaced_cons]

/-- So it does behind a first word. -/
theorem replaceAll_words (hword : ' ' ∉ word) {first : List Char} (hfirst : ' ' ∉ first)
    (hrest : ∀ w ∈ rest, ' ' ∉ w) :
    replaceAll (' ' :: (word ++ [' '])) (' ' :: (other ++ [' '])) 0 (first ++ spaced rest) =
      first ++ spaced (respell word other false rest) := by
  rw [replaceAll_append _ _ hfirst, replaceAll_spaced hword hrest]

end

end NovelScript
