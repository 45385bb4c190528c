import Mathlib.Data.List.Perm.Basic
import NovelScript.Compile.ParameterCount
import NovelScript.Proofs.Outcome

/-!
# Packed parameter counts

Each keyword tells the position of one parameter, and the largest position of a type is the number
of its parameters. The order of the keywords does not count. The three numbers stand in bits of
their own, that of the floats in two places, so that each is found again as long as it fits. A
position with too many digits is refused, however small the number that they write.
-/

namespace NovelScript

open List

/-! ## Digits -/

namespace Text

variable {c : Char} {d n : Nat} {digits : List Char}

theorem Ranges.of_find? {ranges : Ranges} {range : Nat × Nat} (h : ranges.find? n = some range) :
    range ∈ ranges ∧ range.1 ≤ n ∧ n ≤ range.2 := by
  fun_induction Ranges.find? ranges n with
  | case1 => cases h
  | case2 => cases h
  | case3 n first last rest hfirst hlast =>
    cases h
    exact ⟨mem_cons_self, Nat.le_of_not_lt hfirst, hlast⟩
  | case4 n first last rest hfirst hlast ih =>
    obtain ⟨hmem, hrange⟩ := ih h
    exact ⟨mem_cons_of_mem _ hmem, hrange⟩

theorem Ranges.contains_of_find? {ranges : Ranges} {first : Nat} {range : Nat × Nat}
    (h : ranges.find? first = some range) (hfirst : first ≤ n) (hlast : n ≤ range.2) :
    ranges.contains n = true := by
  fun_induction Ranges.find? ranges first with
  | case1 => cases h
  | case2 => cases h
  | case3 first low high rest hlow hhigh =>
    cases h
    rw [contains, if_neg (by omega), decide_eq_true hlast, Bool.true_or]
  | case4 first low high rest hlow hhigh ih =>
    rw [contains, if_neg (by omega), ih h hfirst, Bool.or_true]

/-- Every digit is numeric. -/
theorem digits_numeric :
    (digitRanges.all fun range =>
      (numericRanges.find? range.1).any fun numeric => range.2 ≤ numeric.2) = true := by
  simp only [numericRanges, digitRanges, Ranges.ofLines, flatMap_cons, flatMap_nil]
  -- the kernel is slow at the characters of a literal
  repeat rw [String.toList_ofList]
  decide +kernel

theorem numeric_of_digitValue? (h : digitValue? c = some d) :
    numericRanges.contains c.toNat = true := by
  obtain ⟨range, hfind, -⟩ := Option.map_eq_some_iff.mp h
  obtain ⟨hmem, hfirst, hlast⟩ := Ranges.of_find? hfind
  have hnumeric := all_eq_true.mp digits_numeric range hmem
  cases hin : numericRanges.find? range.1 with
  | none =>
    rw [hin] at hnumeric
    cases hnumeric
  | some numeric =>
    rw [hin] at hnumeric
    exact Ranges.contains_of_find? hin hfirst (Nat.le_trans hlast (of_decide_eq_true hnumeric))

/-- A numeral has digits only. -/
theorem digits_of_foldlM
    (h : digits.foldlM (fun n c => (digitValue? c).map fun d => 10 * n + d) d = some n) :
    ∀ c ∈ digits, ∃ d, digitValue? c = some d := by
  induction digits generalizing d with
  | nil => exact fun _ hc => absurd hc not_mem_nil
  | cons c digits ih =>
    rw [foldlM_cons] at h
    obtain ⟨_, hc, hdigits⟩ := Option.bind_eq_some_iff.mp h
    obtain ⟨d, hd, -⟩ := Option.map_eq_some_iff.mp hc
    exact forall_mem_cons.mpr ⟨⟨d, hd⟩, ih hdigits⟩

/-- A numeral has no other signs. -/
theorem not_mem_of_numeralValue? (h : numeralValue? digits = some n) (hc : digitValue? c = none) :
    c ∉ digits := by
  intro hmem
  obtain ⟨d, hd⟩ := digits_of_foldlM h c hmem
  rw [hc] at hd
  cases hd

end Text

namespace ParameterCount

/-! ## What a keyword tells -/

/-- No digits stand for the first position. -/
def IsPosition (digits : List Char) (n : Nat) : Prop :=
  digits = [] ∧ n = 1 ∨
    digits ≠ [] ∧ digits.length ≤ Text.maxDigits ∧ Text.numeralValue? digits = some n

/-- A keyword holds a type word with a position behind it, and none of the other words. -/
structure Holds (word : String) (others : List String) (keyword : String) (n : Nat) : Prop where
  position : ∃ stem digits, keyword.toList = stem ++ word.toList ++ digits ∧ IsPosition digits n
  others : ∀ other ∈ others, ¬other.toList <:+: keyword.toList

/-- The count of the one parameter that a keyword names. -/
inductive Tells : String → ParameterCount → Prop
  | label : Tells "LBL" {}
  | int {keyword : String} {n : Nat} (h : Holds "INT" ["STR", "FLT"] keyword n) :
    Tells keyword { ints := n }
  | text {keyword : String} {n : Nat} (h : Holds "STR" ["INT", "FLT"] keyword n) :
    Tells keyword { texts := n }
  | float {keyword : String} {n : Nat} (h : Holds "FLT" ["INT", "STR"] keyword n) :
    Tells keyword { floats := n }

/-- The largest count of a type. -/
def largest (type : ParameterCount → Nat) (counts : List ParameterCount) : Nat :=
  (counts.map type).foldr max 0

/-- The number in some bits of a number. -/
def bits (low width value : Nat) : Nat := value / 2 ^ low % 2 ^ width

/-! ## One keyword -/

variable {word stem digits letters : List Char} {c : Char} {n : Nat} {keyword : String}
  {keywords others : List String} {count told : ParameterCount} {counts : List ParameterCount}

/-- A word that does not occur has nothing behind it. -/
theorem afterLast?_eq_none (hword : word ≠ []) (h : ¬word <:+: letters) :
    afterLast? word letters = none := by
  induction letters with
  | nil => rw [afterLast?, if_neg (by simpa using hword)]
  | cons c letters ih =>
    rw [infix_cons_iff, not_or] at h
    rw [afterLast?, ih h.2]
    exact if_neg (by simpa using h.1)

theorem afterLast?_append (h : afterLast? word letters = some digits) (stem : List Char) :
    afterLast? word (stem ++ letters) = some digits := by
  induction stem with
  | nil => exact h
  | cons c stem ih => rw [cons_append, afterLast?, ih]

/-- Behind a word there is no second occurrence if its first letter does not come again. -/
theorem afterLast?_word (h : c ∉ digits) :
    afterLast? (c :: word) (c :: word ++ digits) = some digits := by
  have hinfix : ¬c :: word <:+: word ++ digits := by
    intro hinfix
    have hcount := hinfix.sublist.count_le c
    rw [count_append, count_cons_self, count_eq_zero.mpr h] at hcount
    omega
  rw [cons_append, afterLast?, afterLast?_eq_none (cons_ne_nil _ _) hinfix]
  have hstarts : (c :: word).isPrefixOf (c :: (word ++ digits)) = true :=
    isPrefixOf_iff_prefix.mpr (prefix_append (c :: word) digits)
  simp [hstarts]

/-- Digits tell a position, unless they are too many. -/
theorem position_of_numeralValue? (hne : digits ≠ []) (h : Text.numeralValue? digits = some n) :
    position digits
      = if digits.length ≤ Text.maxDigits then .ok n else .error Cause.longNumber := by
  have hnumeric : Text.isNumeric (String.ofList digits) = true := by
    rw [Text.isNumeric, Bool.and_eq_true, all_eq_true, String.toList_ofList]
    refine ⟨by simpa using hne, fun c hc => ?_⟩
    obtain ⟨d, hd⟩ := Text.digits_of_foldlM h c hc
    exact Text.numeric_of_digitValue? hd
  rw [position, if_pos hnumeric, Text.readNumeral, String.toList_ofList, h, String.length_ofList]
  split
  · next hlength => rw [decide_eq_true hlength]; rfl
  · next hlength => rw [decide_eq_false hlength]; rfl

theorem IsPosition.position (h : IsPosition digits n) : position digits = .ok n := by
  obtain ⟨rfl, rfl⟩ | ⟨hne, hlength, hvalue⟩ := h
  · rfl
  · rw [position_of_numeralValue? hne hvalue, if_pos hlength]

theorem IsPosition.not_mem (h : IsPosition digits n) (hc : Text.digitValue? c = none) :
    c ∉ digits := by
  obtain ⟨rfl, -⟩ | ⟨-, -, hvalue⟩ := h
  · exact not_mem_nil
  · exact Text.not_mem_of_numeralValue? hvalue hc

/-- No word for a type starts with a digit. -/
theorem not_digit (h : c ∈ ['I', 'S', 'F']) : Text.digitValue? c = none := by
  have hall : (['I', 'S', 'F'].all fun c => Text.digitValue? c == none) = true := by
    decide +kernel
  exact eq_of_beq (all_eq_true.mp hall c h)

/-- A keyword of a type has its position behind the type. -/
theorem Holds.exists_afterLast? (h : Holds (String.ofList (c :: word)) others keyword n)
    (hc : c ∈ ['I', 'S', 'F']) :
    ∃ digits, afterLast? (c :: word) keyword.toList = some digits ∧
      ParameterCount.position digits = .ok n := by
  obtain ⟨stem, digits, hkeyword, hdigits⟩ := h.position
  refine ⟨digits, ?_, hdigits.position⟩
  rw [hkeyword, append_assoc, String.toList_ofList]
  exact afterLast?_append (afterLast?_word (hdigits.not_mem (not_digit hc))) stem

theorem Holds.lacks {type : String} (h : Holds type others keyword n) (c : Char) (word : List Char)
    (hword : String.ofList (c :: word) ∈ others) :
    afterLast? (c :: word) keyword.toList = none := by
  have hinfix := h.others _ hword
  rw [String.toList_ofList] at hinfix
  exact afterLast?_eq_none (cons_ne_nil _ _) hinfix

/-- The counts of which each is the larger of two. -/
def join (a b : ParameterCount) : ParameterCount where
  ints := max a.ints b.ints
  texts := max a.texts b.texts
  floats := max a.floats b.floats

/-- A keyword raises the count of its type to its position. -/
theorem add_of_tells (h : Tells keyword told) (count : ParameterCount) :
    add count keyword = .ok (count.join told) := by
  cases h with
  | label => simp [join, add, afterLast?, isPrefixOf, require]
  | int h =>
    obtain ⟨digits, hdigits, hn⟩ := h.exists_afterLast? (by decide)
    simp [add, hdigits, hn, join]
  | text h =>
    obtain ⟨digits, hdigits, hn⟩ := h.exists_afterLast? (by decide)
    have hint := h.lacks 'I' ['N', 'T'] mem_cons_self
    simp [add, hint, hdigits, hn, join]
  | float h =>
    obtain ⟨digits, hdigits, hn⟩ := h.exists_afterLast? (by decide)
    have hint := h.lacks 'I' ['N', 'T'] mem_cons_self
    have htext := h.lacks 'S' ['T', 'R'] (mem_cons_of_mem _ mem_cons_self)
    simp [add, hint, htext, hdigits, hn, join]

theorem foldlM_add (h : Forall₂ Tells keywords counts) (count : ParameterCount) :
    keywords.foldlM add count = .ok (counts.foldl join count) := by
  induction h generalizing count with
  | nil => rfl
  | cons hhead _ ih => rw [foldlM_cons, add_of_tells hhead, ok_bind, ih, foldl_cons]

/-- Joined counts are the largest of each type. -/
theorem foldl_join (counts : List ParameterCount) (count : ParameterCount) :
    counts.foldl join count = count.join
      ⟨largest ints counts, largest texts counts, largest floats counts⟩ := by
  induction counts generalizing count with
  | nil => simp [join, largest]
  | cons told counts ih => simp [ih, join, largest, max_assoc]

/-! ## All keywords -/

/-- The order of keywords does not matter. -/
theorem ofKeywords_of_perm {order : List String} (h : Forall₂ Tells keywords counts)
    (horder : order ~ keywords) :
    ofKeywords order =
      .ok ⟨largest ints counts, largest texts counts, largest floats counts⟩ := by
  obtain ⟨counts', htells, hperm⟩ := perm_comp_forall₂ horder h
  have hlargest (type : ParameterCount → Nat) : largest type counts' = largest type counts :=
    (hperm.map type).foldr_eq 0
  rw [ofKeywords, foldlM_add htells, foldl_join, hlargest, hlargest, hlargest]
  simp [join]

/-- Counts that fit are read from their bits. -/
theorem bits_packed (hints : count.ints < 64) (htexts : count.texts < 32)
    (hfloats : count.floats < 32) :
    count.packed < 65536 ∧ bits 3 6 count.packed = count.ints ∧
      bits 9 5 count.packed = count.texts ∧
      bits 14 2 count.packed + 4 * bits 0 3 count.packed = count.floats := by
  have hlow : count.packed % 8 = count.floats / 4 := by
    rw [packed]
    omega
  have hfloats : count.packed / 16384 = count.floats % 4 := by
    rw [packed]
    omega
  have htexts : count.packed / 512 = count.texts + 32 * (count.floats % 4) := by
    rw [packed]
    omega
  have hints : count.packed / 8 = count.ints + 64 * (count.texts + 32 * (count.floats % 4)) := by
    rw [packed]
    omega
  simp only [bits, Nat.reducePow, Nat.div_one]
  omega

/-- **The counts of all keywords are packed in any order, and found again.** -/
theorem counts_of_packed (htells : Forall₂ Tells keywords counts)
    (hints : largest ints counts < 64) (htexts : largest texts counts < 32)
    (hfloats : largest floats counts < 32) :
    ∃ value, (∀ order, order ~ keywords → (ofKeywords order).map packed = .ok value) ∧
      value < 65536 ∧
      bits 3 6 value = largest ints counts ∧
      bits 9 5 value = largest texts counts ∧
      bits 14 2 value + 4 * bits 0 3 value = largest floats counts := by
  let count : ParameterCount := ⟨largest ints counts, largest texts counts, largest floats counts⟩
  refine ⟨count.packed, fun order horder => ?_, count.bits_packed hints htexts hfloats⟩
  rw [ofKeywords_of_perm htells horder]
  rfl

theorem counts_of_call :
    let keywords := ["LBL", "PINT", "PSTR10", "PFLT31", "PINT63"]
    let counts : List ParameterCount :=
      [{}, { ints := 1 }, { texts := 10 }, { floats := 31 }, { ints := 63 }]
    Forall₂ Tells keywords counts ∧
    ∃ value, (∀ order, order ~ keywords → (ofKeywords order).map packed = .ok value) ∧
      value < 65536 ∧ bits 3 6 value = 63 ∧ bits 9 5 value = 10 ∧
      bits 14 2 value + 4 * bits 0 3 value = 31 := by
  have hnumeral {digits : List Char} {n : Nat} (h : digits ≠ [] ∧
      digits.length ≤ Text.maxDigits ∧ Text.numeralValue? digits = some n) :
      IsPosition digits n := .inr h
  have htells : Forall₂ Tells ["LBL", "PINT", "PSTR10", "PFLT31", "PINT63"]
      [{}, { ints := 1 }, { texts := 10 }, { floats := 31 }, { ints := 63 }] := by
    refine .cons .label (.cons (.int ⟨⟨['P'], [], ?_, .inl ⟨rfl, rfl⟩⟩, ?_⟩)
      (.cons (.text ⟨⟨['P'], ['1', '0'], ?_, hnumeral ?_⟩, ?_⟩)
      (.cons (.float ⟨⟨['P'], ['3', '1'], ?_, hnumeral ?_⟩, ?_⟩)
      (.cons (.int ⟨⟨['P'], ['6', '3'], ?_, hnumeral ?_⟩, ?_⟩) .nil))))
    all_goals decide +kernel
  exact ⟨htells, counts_of_packed htells (by decide) (by decide) (by decide)⟩

theorem ofKeywords_of_long (hvalue : Text.numeralValue? digits = some n)
    (hlong : Text.maxDigits < digits.length) :
    ofKeywords [String.ofList ("PINT".toList ++ digits)] = .error Cause.longNumber := by
  have hlast : afterLast? ['I', 'N', 'T'] ('P' :: 'I' :: 'N' :: 'T' :: digits) = some digits :=
    afterLast?_append
      (afterLast?_word (Text.not_mem_of_numeralValue? hvalue (not_digit mem_cons_self))) ['P']
  have hrefused : position digits = .error Cause.longNumber := by
    rw [position_of_numeralValue? (ne_nil_of_length_pos (by omega)) hvalue, if_neg (by omega)]
  simp [ofKeywords, add, hlast, hrefused]

/-- Zeros before a digit do not change its value. -/
theorem numeralValue?_zeros (k : Nat) :
    Text.numeralValue? (replicate k '0' ++ ['1']) = some 1 := by
  induction k with
  | zero => rfl
  | succ k ih => exact ih

/-- The number one, with so many zeros in front that it is refused. -/
theorem ofKeywords_zeros :
    Text.numeralValue? (replicate Text.maxDigits '0' ++ ['1']) = some 1 ∧
      ofKeywords [String.ofList ("PINT".toList ++ (replicate Text.maxDigits '0' ++ ['1']))]
        = .error Cause.longNumber :=
  have hvalue := numeralValue?_zeros Text.maxDigits
  ⟨hvalue, ofKeywords_of_long hvalue (by simp)⟩

end ParameterCount

end NovelScript
