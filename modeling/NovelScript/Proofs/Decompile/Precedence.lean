import NovelScript.Decompile.Grouping

/-!
# Brackets tell the tree

With the brackets that operands are given, the tokens of an expression belong to no other one.

`Derives` is the grammar of the engine: all operators with two operands lean to the left, and each
has a level, which is higher the looser the operator binds. Brackets have no trace in the tree. That
a tree is the only one for its tokens is shown by reading them from left to right with a stack
(`step`). The reader builds an operator when the next token binds no tighter, and so never has a
choice. What a part of the tokens does to it depends on the level at which the part is derived
(`Reads`).
-/

namespace NovelScript

open List

namespace Formula

/-! ## Tokens -/

/-- The operators with two operands. -/
inductive Joint where
  | binary (op : BinaryOp)
  | compare (op : CompareOp)
  | logic (op : LogicOp)
  deriving DecidableEq

namespace Joint

/-- The level of an operator, if the engine has it. -/
def level? : Joint → Option Nat
  | binary .mul | binary .div | binary .mod => some 3
  | binary .add | binary .sub => some 4
  | compare .lt | compare .le | compare .gt | compare .ge => some 6
  | compare .eq | compare .ne => some 7
  | binary .bitAnd => some 8
  | binary .bitXor => some 9
  | binary .bitOr => some 10
  | logic .and => some 11
  | logic .or => some 12
  | _ => none

/-- Two operands joined. -/
def join : Joint → Expr → Expr → Expr
  | binary op, l, r => .binary l op r
  | compare op, l, r => .compare l [(op, r)]
  | logic op, l, r => .logic op [l, r]

end Joint

/-- The tokens of expressions. The minus sign is the same before an operand and between two. -/
inductive Token where
  | name (id : String)
  | const (value : Constant)
  | joint (j : Joint)
  | opening
  | closing
  | comma

/-- The sign that is a joint and a sign of its own. -/
def Token.minus : Token := .joint (.binary .sub)

end Formula

open Formula

namespace Expr

mutual

/-- The tokens of an expression. A call of the empty name with one argument is a pair of brackets,
and there are no other brackets than these and those of arguments. -/
def tokens : Expr → List Token
  | .const value => [.const value]
  | .name id => [.name id]
  | .call (.name "") [e] [] => .opening :: (e.tokens ++ [.closing])
  | .call function arguments _ =>
    function.tokens ++ .opening :: ([Token.comma].intercalate (tokensEach arguments) ++ [.closing])
  | .unary .minus e => .minus :: e.tokens
  | .binary l op r => l.tokens ++ .joint (.binary op) :: r.tokens
  | .compare l [(op, r)] => l.tokens ++ .joint (.compare op) :: r.tokens
  | .logic op [l, r] => l.tokens ++ .joint (.logic op) :: r.tokens
  | _ => []

/-- The tokens of each expression. -/
def tokensEach : List Expr → List (List Token)
  | [] => []
  | e :: rest => e.tokens :: tokensEach rest

end

mutual

/-- An expression without its brackets. -/
def unbracketed : Expr → Expr
  | .call (.name "") [e] [] => e.unbracketed
  | .call function arguments keywords =>
    .call function.unbracketed (unbracketedEach arguments) keywords
  | .unary op e => .unary op e.unbracketed
  | .binary l op r => .binary l.unbracketed op r.unbracketed
  | .compare l [(op, r)] => .compare l.unbracketed [(op, r.unbracketed)]
  | .logic op [l, r] => .logic op [l.unbracketed, r.unbracketed]
  | e => e

/-- Expressions without their brackets. -/
def unbracketedEach : List Expr → List Expr
  | [] => []
  | e :: rest => e.unbracketed :: unbracketedEach rest

end

/-- The expressions of the engine. What is called is left as it is, so it must be something that
needs no brackets, such as a name. A call that is itself a pair of brackets is none of them. -/
inductive IsFormula : Expr → Prop
  | name (id : String) : IsFormula (.name id)
  | const (value : Constant) : IsFormula (.const value)
  | call {function : Expr} {arguments : List Expr} (hfunction : IsFormula function)
      (hplain : function.grouped = (0, function))
      (hcall : ¬(function = .name "" ∧ arguments.length = 1))
      (harguments : ∀ e ∈ arguments, IsFormula e) : IsFormula (.call function arguments [])
  | minus {e : Expr} (he : IsFormula e) : IsFormula (.unary .minus e)
  | join {j : Joint} {level : Nat} {l r : Expr} (hj : j.level? = some level) (hl : IsFormula l)
      (hr : IsFormula r) : IsFormula (j.join l r)

end Expr

namespace Formula

variable {level : Nat} {t : Expr}

/-! ## The grammar -/

/-- Tokens make an expression at a level, where no operator outside of brackets binds looser than
the level says. -/
inductive Derives : Nat → List Token → Expr → Prop
  | name (id : String) : Derives 0 [.name id] (.name id)
  | const (value : Constant) : Derives 0 [.const value] (.const value)
  | call {function : Expr} {ts : List Token} {arguments : List (List Token × Expr)}
      (hfunction : Derives 0 ts function) (harguments : ∀ a ∈ arguments, Derives 12 a.1 a.2) :
      Derives 0
        (ts ++ .opening :: ([Token.comma].intercalate (arguments.map Prod.fst) ++ [.closing]))
        (.call function (arguments.map Prod.snd) [])
  | brackets {ts : List Token} {e : Expr} (he : Derives 12 ts e) :
      Derives 0 (.opening :: (ts ++ [.closing])) e
  | minus {ts : List Token} {e : Expr} (he : Derives 2 ts e) :
      Derives 2 (.minus :: ts) (.unary .minus e)
  | join {j : Joint} {level tighter : Nat} {ls rs : List Token} {l r : Expr}
      (hj : j.level? = some level) (htighter : tighter < level) (hl : Derives level ls l)
      (hr : Derives tighter rs r) : Derives level (ls ++ .joint j :: rs) (j.join l r)
  | looser {level looser : Nat} {ts : List Token} {e : Expr} (hle : level ≤ looser)
      (he : Derives level ts e) : Derives looser ts e

/-! ## Reading tokens -/

/-- What is open on the left of an operand. -/
inductive Frame where
  /-- An operator with its left operand. -/
  | operand (left : Expr) (j : Joint) (level : Nat)
  | minus
  | brackets
  /-- A call with the arguments that are complete. -/
  | call (function : Expr) (arguments : List Expr)

/-- Builds the operators on the left that bind no looser than a level. -/
def settle (level : Nat) : List Frame → Expr → List Frame × Expr
  | .operand l j own :: stack, e =>
    if own ≤ level then settle level stack (j.join l e) else (.operand l j own :: stack, e)
  | .minus :: stack, e =>
    if 2 ≤ level then settle level stack (.unary .minus e) else (.minus :: stack, e)
  | stack, e => (stack, e)

/-- Reads a token. There is an operand before it, or else it has to begin one. -/
def step : List Frame × Option Expr → Token → Option (List Frame × Option Expr)
  | (stack, none), .name id => some (stack, some (.name id))
  | (stack, none), .const value => some (stack, some (.const value))
  | (stack, none), .joint (.binary .sub) => some (.minus :: stack, none)
  | (stack, none), .opening => some (.brackets :: stack, none)
  | (.call function arguments :: stack, none), .closing =>
    some (stack, some (.call function arguments []))
  | (stack, some e), .joint j => j.level?.map fun level =>
    (.operand (settle level stack e).2 j level :: (settle level stack e).1, none)
  | (stack, some e), .opening => some (.call e [] :: stack, none)
  | (stack, some e), .comma =>
    match settle 12 stack e with
    | (.call function arguments :: stack, e) =>
      some (.call function (arguments ++ [e]) :: stack, none)
    | _ => none
  | (stack, some e), .closing =>
    match settle 12 stack e with
    | (.brackets :: stack, e) => some (stack, some e)
    | (.call function arguments :: stack, e) =>
      some (stack, some (.call function (arguments ++ [e]) []))
    | _ => none
  | _, _ => none

/-- No frame of a stack is settled at a level. -/
def OpenFor (level : Nat) (stack : List Frame) : Prop :=
  ∀ j : Joint, ∀ own, j.level? = some own → own ≤ level → ∀ e, settle own stack e = (stack, e)

/-- Tokens at a level are read as an expression: some of its operators may not be built yet, but
those that are looser than the level will find it complete. -/
def Reads (level : Nat) (ts : List Token) (t : Expr) : Prop :=
  ∀ stack, OpenFor level stack → ∃ stack' e,
    ts.foldlM step (stack, none) = some (stack', some e) ∧
    (∀ above, level ≤ above → settle above stack' e = settle above stack t) ∧
    (level = 0 → stack' = stack ∧ e = t)

variable {stack : List Frame}

theorem OpenFor.mono {looser : Nat} (h : OpenFor looser stack) (hle : level ≤ looser) :
    OpenFor level stack :=
  fun j own hj hown => h j own hj (Nat.le_trans hown hle)

variable {j : Joint}

theorem Joint.three_le_level (h : j.level? = some level) : 3 ≤ level ∧ level ≤ 12 := by
  unfold level? at h
  split at h <;> cases h <;> decide

variable {ts : List Token}

theorem reads_of_foldlM (h : ∀ stack, ts.foldlM step (stack, none) = some (stack, some t)) :
    Reads level ts t :=
  fun stack _ => ⟨stack, t, h stack, fun _ _ => rfl, fun _ => ⟨rfl, rfl⟩⟩

theorem Reads.looser {looser : Nat} (h : Reads level ts t) (hle : level ≤ looser) :
    Reads looser ts t := by
  intro stack hopen
  obtain ⟨stack', e, hrun, hsettle, hzero⟩ := h stack (hopen.mono hle)
  exact ⟨stack', e, hrun, fun above habove => hsettle above (Nat.le_trans hle habove),
    fun hlooser => hzero (by omega)⟩

/-- What is read is complete at a frame. -/
theorem Reads.complete (h : Reads 12 ts t) {frame : Frame}
    (hframe : ∀ level e, settle level (frame :: stack) e = (frame :: stack, e)) :
    ∃ stack' e, ts.foldlM step (frame :: stack, none) = some (stack', some e) ∧
      settle 12 stack' e = (frame :: stack, t) := by
  obtain ⟨stack', e, hrun, hsettle, -⟩ := h (frame :: stack) fun _ own _ _ => hframe own
  exact ⟨stack', e, hrun, (hsettle 12 (Nat.le_refl _)).trans (hframe 12 t)⟩

/-- What stands in brackets is read as the tightest. -/
theorem reads_brackets (h : Reads 12 ts t) : Reads 0 (.opening :: (ts ++ [.closing])) t := by
  refine reads_of_foldlM fun stack => ?_
  have hframe (level : Nat) (e : Expr) :
      settle level (.brackets :: stack) e = (.brackets :: stack, e) := rfl
  obtain ⟨stack', e, hrun, hsettle⟩ := h.complete hframe
  simp [step, foldlM_append, hrun, hsettle]

variable {arguments : List (List Token × Expr)}

theorem foldlM_arguments (function : Expr) (stack : List Frame)
    (h : ∀ a ∈ arguments, Reads 12 a.1 a.2) (done : List Expr) :
    ([Token.comma].intercalate (arguments.map Prod.fst) ++ [Token.closing]).foldlM step
        (.call function done :: stack, none)
      = some (stack, some (.call function (done ++ arguments.map Prod.snd) [])) := by
  induction arguments generalizing done with
  | nil => simp [List.intercalate, step]
  | cons a rest ih =>
    obtain ⟨ha, hrest⟩ := forall_mem_cons.mp h
    have hframe (level : Nat) (e : Expr) :
        settle level (.call function done :: stack) e = (.call function done :: stack, e) := rfl
    obtain ⟨stack', e, hrun, hsettle⟩ := ha.complete hframe
    cases rest with
    | nil => simp [List.intercalate, step, foldlM_append, hrun, hsettle]
    | cons b rest =>
      have htail := ih hrest (done ++ [a.2])
      have htokens : [Token.comma].intercalate ((a :: b :: rest).map Prod.fst)
          = a.1 ++ .comma :: [Token.comma].intercalate ((b :: rest).map Prod.fst) := by
        simp [List.intercalate]
      rw [htokens, append_assoc, foldlM_append, hrun]
      simp only [Option.bind_eq_bind, Option.bind_some, cons_append, foldlM_cons, step, hsettle]
      rw [htail, append_assoc]
      rfl

/-- A call is read with its arguments. -/
theorem reads_call {function : Expr} (hfunction : Reads 0 ts function)
    (harguments : ∀ a ∈ arguments, Reads 12 a.1 a.2) :
    Reads 0 (ts ++ .opening :: ([Token.comma].intercalate (arguments.map Prod.fst) ++ [.closing]))
      (.call function (arguments.map Prod.snd) []) := by
  intro stack hopen
  obtain ⟨stack', e, hrun, -, hzero⟩ := hfunction stack hopen
  obtain ⟨rfl, rfl⟩ := hzero rfl
  refine ⟨stack', .call e (arguments.map Prod.snd) [], ?_, fun _ _ => rfl, fun _ => ⟨rfl, rfl⟩⟩
  rw [foldlM_append, hrun, Option.bind_eq_bind, Option.bind_some, foldlM_cons]
  exact foldlM_arguments e stack' harguments []

/-- A sign is read before a tight part. -/
theorem reads_minus (h : Reads 2 ts t) : Reads 2 (.minus :: ts) (.unary .minus t) := by
  intro stack _
  -- No operator with two operands binds as tight as the minus sign.
  have hopen : OpenFor 2 (.minus :: stack) := by
    intro j own hj hown
    have := Joint.three_le_level hj
    omega
  obtain ⟨stack', e, hrun, hsettle, -⟩ := h _ hopen
  refine ⟨stack', e, hrun, fun above habove => ?_, fun hzero => absurd hzero (by decide)⟩
  rw [hsettle above habove, settle, if_pos habove]

/-- A joint is read between a part as loose and a tighter one. -/
theorem reads_join {tighter : Nat} {ls rs : List Token} {l r : Expr} (hj : j.level? = some level)
    (htighter : tighter < level) (hl : Reads level ls l) (hr : Reads tighter rs r) :
    Reads level (ls ++ .joint j :: rs) (j.join l r) := by
  intro stack hopen
  -- The operator finds its left operand complete, and waits on the stack for the right one.
  obtain ⟨stack₁, e₁, hrun₁, hsettle₁, -⟩ := hl stack hopen
  have hleft : settle level stack₁ e₁ = (stack, l) := by
    rw [hsettle₁ level (Nat.le_refl _), hopen j level hj (Nat.le_refl _)]
  have hright : OpenFor tighter (.operand l j level :: stack) := by
    intro _ own _ hown e
    rw [settle, if_neg (by omega)]
  obtain ⟨stack₂, e₂, hrun₂, hsettle₂, -⟩ := hr _ hright
  refine ⟨stack₂, e₂, ?_, fun above habove => ?_, fun hzero => ?_⟩
  · simp [foldlM_append, hrun₁, step, hj, hleft, hrun₂]
  · rw [hsettle₂ above (by omega), settle, if_pos habove]
  · have := Joint.three_le_level hj
    omega

/-- **The grammar is followed by the reader.** -/
theorem reads_of_derives (h : Derives level ts t) : Reads level ts t := by
  induction h with
  | name id | const value => exact reads_of_foldlM fun _ => rfl
  | call _ _ ihfunction iharguments => exact reads_call ihfunction iharguments
  | brackets _ ih => exact reads_brackets ih
  | minus _ ih => exact reads_minus ih
  | join hj htighter _ _ ihl ihr => exact reads_join hj htighter ihl ihr
  | looser hle _ ih => exact ih.looser hle

/-- Tokens have one reading. -/
theorem Derives.unique {level' : Nat} {t' : Expr} (h : Derives level ts t)
    (h' : Derives level' ts t') : t = t' := by
  have hopen (level : Nat) : OpenFor level [] := fun _ _ _ _ _ => rfl
  obtain ⟨stack, e, hrun, hsettle, -⟩ := reads_of_derives h [] (hopen level)
  obtain ⟨stack', e', hrun', hsettle', -⟩ := reads_of_derives h' [] (hopen level')
  rw [hrun] at hrun'
  cases hrun'
  have hleft := hsettle (max level level') (Nat.le_max_left _ _)
  have hright := hsettle' (max level level') (Nat.le_max_right _ _)
  rw [hleft] at hright
  exact (Prod.mk.inj hright).2

end Formula

/-! ## Brackets where they are needed -/

/-- How loosely a joint holds. -/
def Formula.Joint.looseness : Joint → Looseness
  | binary op => .ofBinary op
  | compare op => .ofCompare op
  | logic op => .ofLogic op

theorem Formula.Joint.looseness_eq {j : Joint} {level : Nat} (h : j.level? = some level) :
    j.looseness = level := by
  unfold level? at h
  split at h <;> cases h <;> rfl

namespace Expr

variable {function e : Expr} {arguments : List Expr} {g : Looseness × Expr} (es : List Expr)
  (j : Joint) (l r : Expr) (own : Looseness)

theorem grouped_join :
    (j.join l r).grouped
      = (j.looseness, j.join (leftOf j.looseness l.grouped) (rightOf j.looseness r.grouped)) := by
  cases j <;> rfl

theorem groupedAll_eq_map : groupedAll es = es.map fun e => e.grouped.2 := by
  induction es with
  | nil => rfl
  | cons e rest ih => rw [groupedAll, ih, map_cons]

/-! ### Tokens -/

theorem tokens_join : (j.join l r).tokens = l.tokens ++ .joint j :: r.tokens := by
  cases j <;> rfl

/-- Brackets stand around the tokens. -/
theorem tokens_inBrackets (e : Expr) :
    e.inBrackets.tokens = .opening :: (e.tokens ++ [.closing]) := rfl

theorem tokensEach_eq_map : tokensEach es = es.map tokens := by
  induction es with
  | nil => rfl
  | cons e rest ih => rw [tokensEach, ih, map_cons]

theorem tokens_call (h : ¬(function = .name "" ∧ arguments.length = 1)) :
    (call function arguments []).tokens = function.tokens ++
      .opening :: ([Token.comma].intercalate (arguments.map tokens) ++ [.closing]) := by
  rw [tokens, tokensEach_eq_map]
  rintro e rfl rfl -
  exact h ⟨rfl, rfl⟩

/-- A left operand is bracketed where it has to be. -/
theorem derives_leftOf (h : Derives g.1 g.2.tokens e) (hle : g.1 ≤ 12) (own : Looseness) :
    Derives own (leftOf own g).tokens e := by
  obtain ⟨inner, g⟩ := g
  rw [leftOf]
  split
  · rw [tokens_inBrackets]
    exact .looser (Nat.zero_le _) (.brackets (.looser hle h))
  · next htight => exact .looser (Nat.le_of_not_lt htight) h

/-- So is a right one. -/
theorem derives_rightOf (h : Derives g.1 g.2.tokens e) (hle : g.1 ≤ 12) {own : Looseness}
    (hown : 0 < own) : ∃ tighter < own, Derives tighter (rightOf own g).tokens e := by
  obtain ⟨inner, g⟩ := g
  rw [rightOf]
  split
  · rw [tokens_inBrackets]
    exact ⟨0, hown, .brackets (.looser hle h)⟩
  · next htight => exact ⟨inner, Nat.lt_of_not_le htight, h⟩

/-- **With its brackets an expression follows the grammar.** -/
theorem IsFormula.derives (h : e.IsFormula) :
    e.grouped.1 ≤ 12 ∧ Derives e.grouped.1 e.grouped.2.tokens e := by
  induction h with
  | name id => exact ⟨Nat.zero_le _, .name id⟩
  | const value => exact ⟨Nat.zero_le _, .const value⟩
  | @call function arguments _ hplain hcall _ ihfunction iharguments =>
    rw [hplain] at ihfunction
    have harguments : ∀ a ∈ arguments.map fun e => (e.grouped.2.tokens, e), Derives 12 a.1 a.2 :=
      forall_mem_map.mpr fun e he => .looser (iharguments e he).1 (iharguments e he).2
    have hderives := Derives.call ihfunction.2 harguments
    have hsame : (arguments.map fun e => (e.grouped.2.tokens, e)).map Prod.snd = arguments := by
      rw [map_map]
      exact map_id arguments
    rw [hsame, map_map] at hderives
    refine ⟨Nat.zero_le _, ?_⟩
    show Derives 0 (Expr.call function (groupedAll arguments) []).tokens _
    rw [groupedAll_eq_map, tokens_call (by rwa [length_map]), map_map]
    exact hderives
  | minus _ ih =>
    obtain ⟨tighter, hlt, htighter⟩ := derives_rightOf ih.2 ih.1 (show 0 < Looseness.sign by decide)
    exact ⟨show Looseness.sign ≤ 12 by decide, .minus (.looser (Nat.le_of_lt hlt) htighter)⟩
  | @join j level l r hj _ _ ihl ihr =>
    have hlevel := Joint.three_le_level hj
    rw [grouped_join, Joint.looseness_eq hj, tokens_join]
    obtain ⟨tighter, hlt, htighter⟩ := derives_rightOf ihr.2 ihr.1 (show 0 < level by omega)
    exact ⟨hlevel.2, .join hj hlt (derives_leftOf ihl.2 ihl.1 level) htighter⟩

/-! ### Without the brackets -/

theorem unbracketed_join : (j.join l r).unbracketed = j.join l.unbracketed r.unbracketed := by
  cases j <;> rfl

theorem unbracketed_inBrackets (e : Expr) : e.inBrackets.unbracketed = e.unbracketed := rfl

theorem unbracketedEach_eq_map : unbracketedEach es = es.map unbracketed := by
  induction es with
  | nil => rfl
  | cons e rest ih => rw [unbracketedEach, ih, map_cons]

theorem unbracketed_call (h : ¬(function = .name "" ∧ arguments.length = 1)) :
    (call function arguments []).unbracketed
      = call function.unbracketed (arguments.map unbracketed) [] := by
  rw [unbracketed, unbracketedEach_eq_map]
  rintro e rfl rfl -
  exact h ⟨rfl, rfl⟩

theorem unbracketed_leftOf (g : Looseness × Expr) :
    (leftOf own g).unbracketed = g.2.unbracketed := by
  obtain ⟨inner, g⟩ := g
  rw [leftOf]
  split
  · exact unbracketed_inBrackets g
  · rfl

theorem unbracketed_rightOf (g : Looseness × Expr) :
    (rightOf own g).unbracketed = g.2.unbracketed := by
  obtain ⟨inner, g⟩ := g
  rw [rightOf]
  split
  · exact unbracketed_inBrackets g
  · rfl

/-- **An expression comes back when its brackets are taken away.** -/
theorem IsFormula.unbracketed_grouped (h : e.IsFormula) : e.grouped.2.unbracketed = e := by
  induction h with
  | name id | const value => rfl
  | @call function arguments _ hplain hcall _ ihfunction iharguments =>
    rw [hplain] at ihfunction
    have hsame : arguments.map (unbracketed ∘ fun e => e.grouped.2) = arguments :=
      (map_congr_left iharguments).trans (map_id' arguments)
    show (Expr.call function (groupedAll arguments) []).unbracketed = _
    rw [groupedAll_eq_map, unbracketed_call (by rwa [length_map]), map_map, hsame,
      ihfunction]
  | @minus e _ ih =>
    show Expr.unary .minus (rightOf Looseness.sign e.grouped).unbracketed = _
    rw [unbracketed_rightOf, ih]
  | join hj _ _ ihl ihr =>
    rw [grouped_join, unbracketed_join, unbracketed_leftOf, unbracketed_rightOf, ihl, ihr]

/-- **Brackets tell the tree.** The expression comes back when the brackets are taken away, it is
what the grammar makes of the tokens, and no other expression has the same tokens. -/
theorem derives_grouped_iff {e : Expr} (h : e.IsFormula) :
    e.grouped.2.unbracketed = e ∧
    (∀ t, Derives 12 e.grouped.2.tokens t ↔ t = e) ∧
    ∀ e', e'.IsFormula → e'.grouped.2.tokens = e.grouped.2.tokens → e' = e := by
  obtain ⟨hle, hderives⟩ := h.derives
  refine ⟨h.unbracketed_grouped, fun t => ⟨fun ht => ht.unique hderives, ?_⟩,
    fun e' h' htokens => ?_⟩
  · rintro rfl
    exact .looser hle hderives
  · obtain ⟨-, hderives'⟩ := h'.derives
    rw [htokens] at hderives'
    exact hderives'.unique hderives

/-- A product of a twofold minus and a difference, in which there are a comparison and a call. -/
def sampleFormula : Expr :=
  .binary (.unary .minus (.unary .minus (.name "a"))) .mul
    (.binary (.name "b") .sub (.compare (.name "c")
        [(.lt, .call (.name "f") [.logic .or [.name "", .const (.int (-1))], .name "x"] [])]))

theorem derives_grouped_iff_sampleFormula :
    sampleFormula.grouped.2.tokens =
      [.minus, .opening, .minus, .name "a", .closing, .joint (.binary .mul), .opening, .name "b",
       .minus, .opening, .name "c", .joint (.compare .lt), .name "f", .opening, .name "",
       .joint (.logic .or), .const (.int (-1)), .comma, .name "x", .closing, .closing, .closing] ∧
    sampleFormula.grouped.2.unbracketed = sampleFormula ∧
    (∀ t, Derives 12 sampleFormula.grouped.2.tokens t ↔ t = sampleFormula) ∧
    ∀ e', e'.IsFormula → e'.grouped.2.tokens = sampleFormula.grouped.2.tokens →
      e' = sampleFormula := by
  have hor : IsFormula (.logic .or [.name "", .const (.int (-1))]) :=
    .join (j := .logic .or) rfl (.name _) (.const _)
  have hcall : IsFormula
      (.call (.name "f") [.logic .or [.name "", .const (.int (-1))], .name "x"] []) :=
    .call (.name _) rfl (by simp)
      (List.forall_mem_cons.mpr ⟨hor, List.forall_mem_singleton.mpr (.name "x")⟩)
  have hless := IsFormula.join (j := .compare .lt) rfl (.name "c") hcall
  exact ⟨rfl, derives_grouped_iff (.join (j := .binary .mul) rfl (.minus (.minus (.name "a")))
    (.join (j := .binary .sub) rfl (.name "b") hless))⟩

end Expr

end NovelScript
