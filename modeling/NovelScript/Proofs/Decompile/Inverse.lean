import NovelScript.Proofs.Decompile.Expression

/-!
# Expressions that are compiled and decompiled in turn

The instructions of an expression are decompiled to the expression in its restored form, before any
script is linked (`decompileExpr_compile`).

The other way round, instructions may come from anywhere. Operators of two operands put up with a
stack that is too short, so a decompiled expression may have missing operands; they are compiled to
nothing at all. What makes this come out right is where they can stand. A missing operand is written
only when the stack is empty, so it ends up in the lowest expression of the stack, to the left of
everything else: `Lowest` describes these expressions, `Whole` those without missing operands, and
`Stacked` says that a stack has one of the first kind at its bottom and all others of the second.
Every instruction keeps this, and when a lowest expression is compiled, each operator finds the
stack as short as it was (`decompileExpr_recompile`).
-/

namespace NovelScript

open List

variable {v : Vocabulary} {n n' : Names} {r : ReadingContext}
variable {code : List Instr} {o : Operator} {left right : Expr} {coded : Coded}
variable {s s' : Stack} {e : Expr} (name : String)

/-! ## Instructions that are not linked -/

/-- Numbers as they are before linking. -/
def unlinkedNumber (s : Nat) : Nat := firstUserNumber + s

theorem linkedNumber_unlinked (number : Int) : linkedNumber unlinkedNumber number = number := by
  unfold linkedNumber unlinkedNumber
  split
  · rfl
  · omega

theorem relocate_unlinked (code : List Instr) :
    code.map (Instr.relocate unlinkedNumber) = code := by
  refine map_id'' (fun i => ?_) code
  cases i with
  | access kind mark number =>
    exact congrArg (Instr.access kind mark) (linkedNumber_unlinked number)
  | _ => rfl

theorem runs_unlinked :
    Runs r unlinkedNumber code s s' ↔ code.foldlM (Stack.step r Dialect.blocks) s = .ok s' := by
  rw [Runs, relocate_unlinked]

/-- Code that leaves one expression shows it. -/
theorem decompileExpr_of_runs (h : Runs r unlinkedNumber code [] [some e]) :
    decompileExpr r Dialect.blocks code = .ok e := by
  rw [decompileExpr, runs_unlinked.mp h]
  rfl

/-- **What is compiled is decompiled.** The instructions of a plain expression put the restored
expression on any stack and leave what is below it alone, so they never take an operand that is not
their own; on the empty stack there is nothing but the expression. The table of the decompiler need
only know the variables that the expression names. -/
theorem decompileExpr_compile {e : Expr} {coded : Coded} {ρ : String → String}
    (h : e.compile v n = .ok (coded, n')) (hplain : e.isPlain r.version = true)
    (htable : ∀ name ∈ e.mentions, ∀ type number, n'.find? v name = some (type, number) →
      variableAt r.names r.locals number = .ok (ρ name, type)) :
    (∀ s : Stack, coded.code.foldlM (Stack.step r Dialect.blocks) s =
      .ok (some (e.restored ρ) :: s)) ∧
    decompileExpr r Dialect.blocks coded.code = .ok (e.restored ρ) := by
  have hshown : n'.ShowsAll v unlinkedNumber ρ r e.mentions := by
    intro name hname type number hfind
    rw [linkedNumber_unlinked]
    exact ⟨type, htable name hname type number hfind, rfl⟩
  have hruns := (compiled_of_compile h).runs hplain hshown
  exact ⟨fun s => runs_unlinked.mp (hruns s), decompileExpr_of_runs (hruns [])⟩

/-- A vocabulary with a variable of the system and one that is declared outside. -/
def chainVocabulary : Vocabulary where
  commands := []
  system := [("count", .int, 5)]
  globals := [("gInt1000", .int)]

/-- What is known where the sample is read. -/
def chainReading : ReadingContext where
  version := 480
  names := []
  locals := [(5, "__Sys5", .int), (1000, "gInt1000", .int)]

/-- A chain of comparisons with an element, a conversion and signs, and more operands. -/
def chainExpr : Expr :=
  .logic .and
    [.compare (.unary .minus (.int 5)) [(.lt, .call (.attribute (.name "gInt1000") "N")
        [.const (.bool true), .attribute (.name "count") "N"] []),
       (.ge, .unary .plus (.call (.name "int") [.text (.ofString "7")] []))],
     .attribute (.name "count") "AN", .int 1]

/-- The sample as it is shown. -/
def chainRestored : Expr :=
  .logic .and
    [.logic .and [.compare (.compare (.int (-5)) [(.lt, .call (.attribute (.name "gInt1000") "N")
            [.int 1, .attribute (.name "__Sys5") "N"] [])])
        [(.ge, .call (.name "int") [.text (.ofString "7")] [])],
       .attribute (.name "__Sys5") "AN"],
     .int 1]

/-- Names as they are shown. -/
def chainShown (name : String) : String := if name = "count" then "__Sys5" else name

theorem decompileExpr_compile_chainExpr :
    ∃ coded n', chainExpr.compile chainVocabulary {} = .ok (coded, n') ∧
      chainExpr.isPlain chainReading.version = true ∧
      decompileExpr chainReading Dialect.blocks coded.code = .ok chainRestored := by
  refine ⟨_, _, rfl, rfl, (decompileExpr_compile (v := chainVocabulary) (n := {}) (e := chainExpr)
    (ρ := chainShown) rfl rfl ?_).2⟩
  intro name hname type number hfind
  have hname : name = "gInt1000" ∨ name = "count" := by
    simpa [chainExpr, Expr.mentions, mentionsOf, comparisonMentions, keywordMentions] using hname
  rcases hname with rfl | rfl
  · cases show some (ValueType.int, (1000 : Int)) = some (type, number) from hfind
    rfl
  · cases show some (ValueType.int, (5 : Int)) = some (type, number) from hfind
    rfl

/-! ## Folded signs -/

mutual

/-- An expression with every minus that stands directly before a whole number made part of it. -/
def Expr.signsFolded : Expr → Expr
  | .unary .minus (.const (.int n)) => .int (-n)
  | .unary op operand => .unary op operand.signsFolded
  | .binary left op right => .binary left.signsFolded op right.signsFolded
  | .logic op operands => .logic op (signsFoldedIn operands)
  | .compare left rest => .compare left.signsFolded (signsFoldedInComparisons rest)
  | .call function arguments keywords =>
    .call function.signsFolded (signsFoldedIn arguments) keywords
  | e => e

/-- Expressions with every such minus made part of its number. -/
def signsFoldedIn : List Expr → List Expr
  | [] => []
  | e :: rest => e.signsFolded :: signsFoldedIn rest

/-- Comparisons with every such minus made part of its number. -/
def signsFoldedInComparisons : List (CompareOp × Expr) → List (CompareOp × Expr)
  | [] => []
  | (op, e) :: rest => (op, e.signsFolded) :: signsFoldedInComparisons rest

end

theorem signsFolded_minus (h : negated? .minus e = none) :
    (Expr.unary .minus e).signsFolded = .unary .minus e.signsFolded := by
  rw [Expr.signsFolded]
  rintro k - rfl
  cases h

/-! ## What instructions make -/

/-- Whether an operator joins two operands. -/
def Operator.joins : Operator → Bool
  | .indexEnd | .nothing | .toInt | .toText | .neg => false
  | _ => true

/-- An expression is made of references, and has no missing operand. -/
inductive Whole (isReference : Expr → Prop) : Expr → Prop
  | int (n : Int) : Whole isReference (.int n)
  | float (x : Binary64) : Whole isReference (.const (.float x))
  | text (w : Wording) : Whole isReference (.text w)
  | value {e : Expr} (h : isReference e) : Whole isReference e
  | indexed {base : Expr} {indexes : List Expr} (hbase : Whole isReference base)
      (hindexes : ∀ e ∈ indexes, Whole isReference e) : Whole isReference (.call base indexes [])
  | toInt {e : Expr} (h : Whole isReference e) : Whole isReference (.call (.name "int") [e] [])
  | toText {e : Expr} (h : Whole isReference e) : Whole isReference (.call (.name "str") [e] [])
  | minus {e : Expr} (h : Whole isReference e) : Whole isReference (.unary .minus e)
  | joined {o : Operator} {left right : Expr} (ho : o.joins = true)
      (hleft : Whole isReference left) (hright : Whole isReference right) :
      Whole isReference (joined o left right)

/-- An operand that is not there. -/
abbrev Expr.missing : Expr := .const .none

/-- An expression can be the lowest one of a stack: operands may be missing, the left one or both of
an operator that has nothing below it. -/
inductive Lowest (isReference : Expr → Prop) : Expr → Prop
  | whole {e : Expr} (h : Whole isReference e) : Lowest isReference e
  | bothMissing {o : Operator} (ho : o.joins = true) :
      Lowest isReference (joined o .missing .missing)
  | leftMissing {o : Operator} {right : Expr} (ho : o.joins = true)
      (hright : Lowest isReference right) : Lowest isReference (joined o .missing right)
  | joined {o : Operator} {left right : Expr} (ho : o.joins = true)
      (hleft : Lowest isReference left) (hright : Whole isReference right) :
      Lowest isReference (joined o left right)
  | toInt {e : Expr} (h : Lowest isReference e) : Lowest isReference (.call (.name "int") [e] [])
  | toText {e : Expr} (h : Lowest isReference e) : Lowest isReference (.call (.name "str") [e] [])
  | minus {e : Expr} (h : Lowest isReference e) : Lowest isReference (.unary .minus e)

/-- Only the lowest expression of a stack has missing operands. -/
inductive Stacked (isReference : Expr → Prop) : Stack → Prop
  | nil : Stacked isReference []
  | lowest {e : Expr} (h : Lowest isReference e) : Stacked isReference [some e]
  | above {e : Expr} {s : Stack} (h : Whole isReference e) (hs : Stacked isReference s) :
      Stacked isReference (some e :: s)
  | marker {s : Stack} (hs : Stacked isReference s) : Stacked isReference (none :: s)

/-! ## Steps on the stack -/

namespace Stack

variable {s rest : Stack} {e : Expr}

theorem pop_eq_ok (h : s.pop = .ok (e, rest)) : s = some e :: rest := by
  unfold pop at h
  split at h <;> cases h
  rfl

theorem popOr_eq_ok {missing : Expr} (h : s.popOr missing = .ok (e, rest)) :
    s = [] ∧ e = missing ∧ rest = [] ∨ s = some e :: rest := by
  unfold popOr at h
  split at h <;> cases h
  · exact .inl ⟨rfl, rfl, rfl⟩
  · exact .inr rfl

/-- An operator joins what it finds, and nothing where it finds none. -/
theorem apply_joins {d : Dialect} {o : Operator} (ho : o.joins = true) (s : Stack) :
    s.apply d o = (do
      let (r, rest) ← s.popOr d.missing
      let (l, rest) ← rest.popOr d.missing
      return some (joined o l r) :: rest) := by
  cases o <;> first | rfl | cases ho

end Stack

namespace Stacked

variable {isReference : Expr → Prop} {s s' rest : Stack} {e : Expr}
variable {o : Operator}

section

variable (h : Stacked isReference (some e :: rest))
include h

theorem tail : Stacked isReference rest := by
  cases h with
  | lowest => exact .nil
  | above _ hs => exact hs

theorem head : Lowest isReference e := by
  cases h with
  | lowest h => exact h
  | above h _ => exact .whole h

theorem whole (hrest : rest ≠ []) : Whole isReference e := by
  cases h with
  | lowest => exact absurd rfl hrest
  | above h _ => exact h

theorem replace {e' : Expr} (hwhole : Whole isReference e → Whole isReference e')
    (hlowest : Lowest isReference e → Lowest isReference e') :
    Stacked isReference (some e' :: rest) := by
  cases h with
  | lowest h => exact .lowest (hlowest h)
  | above h hs => exact .above (hwhole h) hs

end

theorem popIndexes {taken taken' : List Expr} (h : Stacked isReference s)
    (htaken : ∀ e ∈ taken, Whole isReference e) (hpop : s.popIndexes taken = .ok (taken', rest)) :
    (∀ e ∈ taken', Whole isReference e) ∧ Stacked isReference rest := by
  induction s generalizing taken with
  | nil => cases hpop
  | cons cell s ih =>
    cases cell with
    | none =>
      cases hpop
      cases h with
      | marker hs => exact ⟨htaken, hs⟩
    | some e =>
      have hs : s ≠ [] := by
        rintro rfl
        cases hpop
      exact ih h.tail (forall_mem_cons.mpr ⟨h.whole hs, htaken⟩) hpop

theorem apply_indexEnd (h : Stacked isReference s)
    (happly : s.apply Dialect.blocks .indexEnd = .ok s') : Stacked isReference s' := by
  obtain ⟨⟨taken, rest⟩, hpop, happly⟩ := of_bind happly
  obtain ⟨htaken, hrest⟩ := h.popIndexes (by simp) hpop
  dsimp only at happly
  split at happly
  · next base first others =>
    cases happly
    obtain ⟨hbase, hindexes⟩ := forall_mem_cons.mp htaken
    exact .above (.indexed hbase hindexes) hrest
  · cases happly

theorem apply_joins (ho : o.joins = true) (h : Stacked isReference s)
    (happly : s.apply Dialect.blocks o = .ok s') : Stacked isReference s' := by
  rw [Stack.apply_joins ho] at happly
  obtain ⟨⟨right, below⟩, hright, happly⟩ := of_bind happly
  obtain ⟨⟨left, rest⟩, hleft, happly⟩ := of_bind happly
  cases happly
  rcases Stack.popOr_eq_ok hright with ⟨rfl, rfl, rfl⟩ | rfl
  · cases hleft
    exact .lowest (.bothMissing ho)
  · rcases Stack.popOr_eq_ok hleft with ⟨rfl, rfl, rfl⟩ | rfl
    · exact .lowest (.leftMissing ho h.head)
    · have hwhole := h.whole (cons_ne_nil _ _)
      exact h.tail.replace (fun hl => .joined ho hl hwhole) fun hl => .joined ho hl hwhole

theorem apply (h : Stacked isReference s) (happly : s.apply Dialect.blocks o = .ok s') :
    Stacked isReference s' := by
  by_cases ho : o.joins = true
  · exact h.apply_joins ho happly
  cases o with
  | indexEnd => exact h.apply_indexEnd happly
  | nothing =>
    cases happly
    exact h
  | toInt =>
    obtain ⟨⟨e, rest⟩, hpop, happly⟩ := of_bind happly
    cases happly
    rw [Stack.pop_eq_ok hpop] at h
    exact h.replace .toInt .toInt
  | toText =>
    obtain ⟨⟨e, rest⟩, hpop, happly⟩ := of_bind happly
    cases happly
    rw [Stack.pop_eq_ok hpop] at h
    exact h.replace .toText .toText
  | neg =>
    obtain ⟨⟨e, rest⟩, hpop, happly⟩ := of_bind happly
    cases happly
    rw [Stack.pop_eq_ok hpop] at h
    exact h.replace .minus .minus
  | _ => exact absurd rfl ho

end Stacked

/-- An expression is the reference that an access in the instructions is decompiled to. -/
def IsReference (r : ReadingContext) (code : List Instr) (e : Expr) : Prop :=
  ∃ kind mark number name type, .access kind mark number ∈ code ∧
    variableAt r.names r.locals number = .ok (name, type) ∧
    e = .attribute (.name name) (Usage.ofMark r.version mark).suffix

theorem isReference_of_reference {kind : Access} {mark : Mark} {number : Int}
    (hmem : .access kind mark number ∈ code) (h : r.reference Dialect.blocks mark number = .ok e) :
    IsReference r code e := by
  obtain ⟨⟨name, type⟩, hvariable, h⟩ := of_bind h
  obtain ⟨_, -, h⟩ := of_bind h
  cases h
  exact ⟨kind, mark, number, name, type, hmem, hvariable, rfl⟩

/-- **Every instruction keeps missing operands at the bottom of the stack.** -/
theorem Stacked.step {i : Instr} (hmem : i ∈ code) (h : Stacked (IsReference r code) s)
    (hstep : s.step r Dialect.blocks i = .ok s') : Stacked (IsReference r code) s' := by
  cases i with
  | op o => exact h.apply hstep
  | raw bytes => cases hstep
  | int width value =>
    cases hstep
    exact .above (.int value) h
  | float x =>
    cases hstep
    exact .above (.float x) h
  | text literal =>
    obtain ⟨e, he, hstep⟩ := of_bind hstep
    cases hstep
    obtain ⟨w, -, he⟩ := of_bind he
    cases he
    exact .above (.text w) h
  | access kind mark number =>
    cases kind with
    | value =>
      obtain ⟨e, he, hstep⟩ := of_bind hstep
      cases hstep
      exact .above (.value (isReference_of_reference hmem he)) h
    | array =>
      obtain ⟨e, he, hstep⟩ := of_bind hstep
      cases hstep
      exact .above (.indexed (.value (isReference_of_reference hmem he)) (by simp)) h
    | element =>
      obtain ⟨e, he, hstep⟩ := of_bind hstep
      cases hstep
      exact .above (.value (isReference_of_reference hmem he)) (.marker h)

/-- Whatever code pushes stays well stacked. -/
theorem Stacked.run {rest : List Instr} (hrest : ∀ i ∈ rest, i ∈ code)
    (h : Stacked (IsReference r code) s)
    (hrun : rest.foldlM (Stack.step r Dialect.blocks) s = .ok s') :
    Stacked (IsReference r code) s' := by
  induction rest generalizing s with
  | nil =>
    cases hrun
    exact h
  | cons i rest ih =>
    obtain ⟨s₁, hstep, hrun⟩ := of_bind hrun
    obtain ⟨hi, hrest⟩ := forall_mem_cons.mp hrest
    exact ih hrest (h.step hi hstep) hrun

/-- What instructions are decompiled to has missing operands only where the lowest expression of a
stack has. -/
theorem lowest_of_decompileExpr (h : decompileExpr r Dialect.blocks code = .ok e) :
    Lowest (IsReference r code) e := by
  obtain ⟨s, hrun, h⟩ := of_bind h
  have hs := Stacked.nil.run (fun _ hi => hi) hrun
  split at h
  · cases h
    exact hs.head
  · cases h

/-! ## Compiled again -/

/-- Names stand for what the decompiler has shown under them, as far as they are known. -/
def Names.LeadBack (n : Names) (v : Vocabulary) (r : ReadingContext) (code : List Instr) : Prop :=
  ∀ kind mark number, .access kind mark number ∈ code → ∀ name type,
    variableAt r.names r.locals number = .ok (name, type) →
      ∀ found, n.find? v name = some found → found = (type, number)

theorem Names.LeadBack.mono (h : n'.LeadBack v r code) (hn : n.Extends v n') :
    n.LeadBack v r code :=
  fun kind mark number hmem name type hvariable found hfind =>
    h kind mark number hmem name type hvariable found (hn.found hfind)

theorem suffixFits_ofMark (version : Int) (mark : Mark) :
    suffixFits version (Usage.ofMark version mark).suffix = true := by
  cases mark with
  | textAddress =>
    by_cases h : 300 ≤ version
    · simp [Usage.ofMark, h, Usage.suffix, suffixFits]
    · simp [Usage.ofMark, h, Usage.suffix, suffixFits]; omega
  | _ => rfl

/-- What is needed to run the instructions of an expression that has no missing operand. -/
structure Rerun (v : Vocabulary) (n : Names) (r : ReadingContext) (e : Expr) : Prop where
  plain : e.isPlain r.version = true
  shown : n.ShowsAll v unlinkedNumber id r e.mentions
  restored : e.restored id = e.signsFolded

/-- A reference runs again. -/
theorem rerun_reference (hn : n.LeadBack v r code) (h : IsReference r code e) : Rerun v n r e := by
  obtain ⟨kind, mark, number, name, type, hmem, hvariable, rfl⟩ := h
  refine ⟨suffixFits_ofMark _ _, ?_, by simp [Expr.restored, Expr.signsFolded]⟩
  intro name' hname' type' number' hfind
  rw [Expr.mentions, mem_singleton] at hname'
  subst hname'
  obtain ⟨rfl, rfl⟩ := Prod.mk.inj (hn kind mark number hmem name' type hvariable _ hfind)
  rw [linkedNumber_unlinked]
  exact ⟨type', hvariable, rfl⟩

/-- So does a constant. -/
theorem rerun_constant {c : Constant} (hnone : c ≠ .none) (hc : c.restored = c) :
    Rerun v n r (.const c) where
  plain := by cases c <;> first | rfl | exact absurd rfl hnone
  shown := by simp [Names.ShowsAll, Expr.mentions]
  restored := by rw [Expr.restored, Expr.signsFolded, hc] <;> simp

theorem rerun_all {es : List Expr} (h : ∀ e ∈ es, Rerun v n r e) :
    allPlain r.version es = true ∧ n.ShowsAll v unlinkedNumber id r (mentionsOf es) ∧
      restoredAll id es = signsFoldedIn es := by
  induction es with
  | nil => exact ⟨rfl, by simp [Names.ShowsAll, mentionsOf], rfl⟩
  | cons e es ih =>
    obtain ⟨he, hes⟩ := forall_mem_cons.mp h
    obtain ⟨hplain, hshown, hrestored⟩ := ih hes
    refine ⟨?_, ?_, ?_⟩
    · rw [allPlain, he.plain, hplain]
      rfl
    · rw [mentionsOf, Names.showsAll_append]
      exact ⟨he.shown, hshown⟩
    · rw [restoredAll, signsFoldedIn, he.restored, hrestored]

/-- So does a call. -/
theorem rerun_call {function : Expr} {arguments : List Expr} (hfunction : Rerun v n r function)
    (harguments : ∀ e ∈ arguments, Rerun v n r e) : Rerun v n r (.call function arguments []) := by
  obtain ⟨hplain, hshown, hrestored⟩ := rerun_all harguments
  refine ⟨?_, ?_, ?_⟩
  · rw [Expr.isPlain, hfunction.plain, hplain]
    rfl
  · rw [Expr.mentions, keywordMentions, append_nil, Names.showsAll_append]
    exact ⟨hfunction.shown, hshown⟩
  · rw [Expr.restored, Expr.signsFolded, hfunction.restored, hrestored, restoredKeywords]

theorem rerun_name : Rerun v n r (.name name) where
  plain := rfl
  shown := by simp [Names.ShowsAll, Expr.mentions]
  restored := by rw [Expr.restored, Expr.signsFolded] <;> simp

/-- So does a sign. -/
theorem rerun_minus (h : Rerun v n r e) (hsign : (∃ k, e = .int k) ∨ negated? .minus e = none) :
    Rerun v n r (.unary .minus e) where
  plain := by rw [Expr.isPlain, h.plain]
  shown := by
    rw [Expr.mentions]
    exact h.shown
  restored := by
    rcases hsign with ⟨k, rfl⟩ | hnone
    · rw [Expr.restored, Expr.signsFolded]
      rfl
    · rw [signsFolded_minus hnone, ← h.restored, Expr.restored]
      unfold restoredSign
      rw [hnone]

/-- What is joined of parts that run again runs again. -/
theorem rerun_joined (hleft : Rerun v n r left) (hright : Rerun v n r right) :
    Rerun v n r (joined o left right) := by
  refine ⟨?_, ?_, ?_⟩
  · cases o <;> simp [joined, Expr.isPlain, allPlain, comparisonsPlain, hleft.plain, hright.plain]
  · have hboth := Names.showsAll_append.mpr ⟨hleft.shown, hright.shown⟩
    cases o <;> simpa [joined, Expr.mentions, mentionsOf, comparisonMentions] using hboth
  · cases o <;> simp [joined, Expr.restored, restoredAll, restoredComparisons, Expr.signsFolded,
      signsFoldedIn, signsFoldedInComparisons, hleft.restored, hright.restored]

theorem negated?_joined (o : Operator) (left right : Expr) :
    negated? .minus (joined o left right) = none := by
  cases o <;> rfl

theorem Whole.negated? (h : Whole (IsReference r code) e) :
    (∃ k, e = .int k) ∨ negated? .minus e = none := by
  cases h with
  | int k => exact .inl ⟨k, rfl⟩
  | value h =>
    obtain ⟨_, _, _, _, _, _, _, rfl⟩ := h
    exact .inr rfl
  | joined => exact .inr (negated?_joined _ _ _)
  | _ => exact .inr rfl

/-- A whole expression runs again. -/
theorem Whole.rerun (hn : n.LeadBack v r code) (h : Whole (IsReference r code) e) :
    Rerun v n r e := by
  induction h with
  | int k | float x | text w => exact rerun_constant (by simp) rfl
  | value h => exact rerun_reference hn h
  | indexed _ _ hbase hindexes => exact rerun_call hbase hindexes
  | toInt _ ih | toText _ ih => exact rerun_call (rerun_name _) (by simpa using ih)
  | minus h ih => exact rerun_minus ih h.negated?
  | joined _ _ _ hleft hright => exact rerun_joined hleft hright

/-- Its code pushes it. -/
theorem Whole.runs (hn : n'.LeadBack v r code) (h : Whole (IsReference r code) e)
    (hcompiled : Compiled v n e coded n') (s : Stack) :
    Runs r unlinkedNumber coded.code s (some e.signsFolded :: s) := by
  have hrerun := h.rerun hn
  rw [← hrerun.restored]
  exact hcompiled.runs hrerun.plain hrerun.shown s

/-! ## Operands that are missing -/

theorem Compiled.missing (h : Compiled v n .missing coded n') : coded.code = [] ∧ n' = n := by
  cases h with
  | const h =>
    cases h
    exact ⟨rfl, rfl⟩

theorem compiled_binary {op : BinaryOp} (ho : op.operator? = some o)
    (h : Compiled v n (.binary left op right) coded n') :
    ∃ (l r : Coded) (n₁ : Names), Compiled v n left l n₁ ∧ Compiled v n₁ right r n' ∧
      coded.code = l.code ++ r.code ++ [.op o] := by
  cases h with
  | binary hleft hright hcoded =>
    obtain ⟨o', ho', hcode⟩ := compileBinary_eq_ok hcoded
    obtain rfl := Option.some.inj (ho.symm.trans ho')
    exact ⟨_, _, _, hleft, hright, hcode⟩

theorem compiled_logic {op : LogicOp} (h : Compiled v n (.logic op [left, right]) coded n') :
    ∃ (l r : Coded) (n₁ : Names), Compiled v n left l n₁ ∧ Compiled v n₁ right r n' ∧
      coded.code = l.code ++ r.code ++ [.op op.operator] := by
  cases h with
  | logic hleft _ hrest =>
    cases hrest with
    | cons hright _ hnil =>
      cases hnil
      exact ⟨_, _, _, hleft, hright, by simp⟩

theorem compiled_compare {op : CompareOp} (ho : op.operator? = some o)
    (h : Compiled v n (.compare left [(op, right)]) coded n') :
    ∃ (l r : Coded) (n₁ : Names), Compiled v n left l n₁ ∧ Compiled v n₁ right r n' ∧
      coded.code = l.code ++ r.code ++ [.op o] := by
  cases h with
  | compare hleft hrest =>
    cases hrest with
    | cons hright ho' hnil =>
      cases hnil
      obtain rfl := Option.some.inj (ho.symm.trans ho')
      exact ⟨_, _, _, hleft, hright, by simp⟩

/-- What is joined is compiled part by part. -/
theorem compiled_joined (ho : o.joins = true) (h : Compiled v n (joined o left right) coded n') :
    ∃ (l r : Coded) (n₁ : Names), Compiled v n left l n₁ ∧ Compiled v n₁ right r n' ∧
      coded.code = l.code ++ r.code ++ [.op o] := by
  cases o with
  | mul | div | mod | add | sub | bitAnd | bitOr | bitXor => exact compiled_binary rfl h
  | logicAnd | logicOr => exact compiled_logic h
  | lt | le | gt | ge | eq | ne => exact compiled_compare rfl h
  | indexEnd | nothing | toInt | toText | neg => cases ho

theorem signsFolded_joined (o : Operator) (left right : Expr) :
    (joined o left right).signsFolded = joined o left.signsFolded right.signsFolded := by
  cases o <;> simp [joined, Expr.signsFolded, signsFoldedIn, signsFoldedInComparisons]

theorem signsFolded_conversion (e : Expr) :
    (Expr.call (.name name) [e] []).signsFolded = .call (.name name) [e.signsFolded] [] := by
  simp [Expr.signsFolded, signsFoldedIn]

theorem apply_joined (ho : o.joins = true) (left right : Expr) :
    Stack.apply Dialect.blocks [] o = .ok [some (joined o .missing .missing)] ∧
    Stack.apply Dialect.blocks [some right] o = .ok [some (joined o .missing right)] ∧
    ∀ s, Stack.apply Dialect.blocks (some right :: some left :: s) o =
      .ok (some (joined o left right) :: s) := by
  simp only [Stack.apply_joins ho]
  exact ⟨rfl, rfl, fun _ => rfl⟩

theorem Lowest.negated? (h : Lowest (IsReference r code) e) :
    (∃ k, e = .int k) ∨ negated? .minus e = none := by
  cases h with
  | whole h => exact h.negated?
  | bothMissing | leftMissing | joined => exact .inr (negated?_joined _ _ _)
  | _ => exact .inr rfl

/-- **Missing operands are missing again.** The instructions of a lowest expression rebuild it on
the empty stack: what is to the left of a missing operand is nothing, so its operator finds the
stack too short once more. -/
theorem Lowest.runs (h : Lowest (IsReference r code) e) (hcompiled : Compiled v n e coded n')
    (hn : n'.LeadBack v r code) : Runs r unlinkedNumber coded.code [] [some e.signsFolded] := by
  induction h generalizing n n' coded with
  | whole h => exact h.runs hn hcompiled []
  | bothMissing ho =>
    obtain ⟨l, r, n₁, hleft, hright, hcode⟩ := compiled_joined ho hcompiled
    rw [hcode, hleft.missing.1, hright.missing.1, signsFolded_joined]
    exact runs_op (apply_joined ho .missing .missing).1
  -- A missing operand has no code, so the operator finds the bottom of the stack.
  | leftMissing ho _ ih =>
    obtain ⟨l, r, n₁, hleft, hright, hcode⟩ := compiled_joined ho hcompiled
    rw [hcode, hleft.missing.1, signsFolded_joined]
    exact (ih hright hn).append (runs_op (apply_joined ho .missing _).2.1)
  | joined ho _ hwhole ih =>
    obtain ⟨l, r, n₁, hleft, hright, hcode⟩ := compiled_joined ho hcompiled
    rw [hcode, signsFolded_joined]
    exact ((ih hleft (hn.mono hright.extends)).append (hwhole.runs hn hright _)).append
      (runs_op ((apply_joined ho _ _).2.2 []))
  | toInt _ ih =>
    cases hcompiled with
    | conversion hargument hcoded =>
      rcases compileConversion_eq_ok hcoded with ⟨hname, -⟩ | ⟨-, rfl⟩
      · exact absurd hname (by decide)
      · rw [signsFolded_conversion]
        exact (ih hargument hn).append (runs_op rfl)
  | toText _ ih =>
    cases hcompiled with
    | conversion hargument hcoded =>
      rcases compileConversion_eq_ok hcoded with ⟨-, rfl⟩ | ⟨hname, -⟩
      · rw [signsFolded_conversion]
        exact (ih hargument hn).append (runs_op rfl)
      · exact absurd hname (by decide)
  | minus h ih =>
    cases hcompiled with
    | negated hvalue =>
      rcases h.negated? with ⟨k, rfl⟩ | hnone
      · cases hvalue
        rw [Expr.signsFolded]
        exact runs_singleton rfl
      · rw [hnone] at hvalue
        cases hvalue
    | unary hnone hoperand hcoded =>
      rcases compileUnary_eq_ok hcoded with ⟨hop, -⟩ | ⟨-, rfl⟩
      · cases hop
      · rw [signsFolded_minus hnone]
        exact (ih hoperand hn).append (runs_op rfl)

/-- **What is decompiled is compiled to instructions for the same.** -/
theorem decompileExpr_recompile {code : List Instr} {e : Expr} {coded : Coded}
    (hcode : decompileExpr r Dialect.blocks code = .ok e)
    (hcompile : e.compile v n = .ok (coded, n'))
    (hnames : ∀ kind mark number, .access kind mark number ∈ code → ∀ name type,
      variableAt r.names r.locals number = .ok (name, type) →
        n'.find? v name = some (type, number)) :
    decompileExpr r Dialect.blocks coded.code = .ok e.signsFolded := by
  have hn : n'.LeadBack v r code := by
    intro kind mark number hmem name type hvariable found hfind
    rw [hnames kind mark number hmem name type hvariable] at hfind
    exact (Option.some.inj hfind).symm
  have hlowest := lowest_of_decompileExpr hcode
  exact decompileExpr_of_runs (hlowest.runs (compiled_of_compile hcompile) hn)

/-- An operator without its left operand, beside an element and an index list with an operator that
does nothing. -/
def shortCode : List Instr :=
  [.op .nothing, .int .w8 3, .op .neg, .op .bitAnd, .access .element .number 1000, .int .w64 1,
   .op .nothing, .int .w8 2, .op .neg, .op .neg, .op .indexEnd, .op .nothing, .op .ne]

/-- An expression with missing operands. -/
def shortExpr : Expr :=
  .compare (.binary .missing .bitAnd (.unary .minus (.int 3)))
    [(.ne, .call (.attribute (.name "gInt1000") "N")
      [.int 1, .unary .minus (.unary .minus (.int 2))] [])]

theorem decompileExpr_recompile_shortCode :
    decompileExpr chainReading Dialect.blocks shortCode = .ok shortExpr ∧
    ∃ coded n', shortExpr.compile chainVocabulary {} = .ok (coded, n') ∧
      decompileExpr chainReading Dialect.blocks coded.code =
        .ok (.compare (.binary .missing .bitAnd (.int (-3)))
          [(.ne, .call (.attribute (.name "gInt1000") "N")
            [.int 1, .unary .minus (.int (-2))] [])]) := by
  have hcode : decompileExpr chainReading Dialect.blocks shortCode = .ok shortExpr := rfl
  refine ⟨hcode, _, _, rfl, decompileExpr_recompile (v := chainVocabulary) (n := {}) hcode rfl ?_⟩
  intro kind mark number hmem name type hvariable
  obtain ⟨rfl, rfl, rfl⟩ : kind = .element ∧ mark = .number ∧ number = 1000 := by
    simpa [shortCode] using hmem
  cases show Except.ok ("gInt1000", ValueType.int) = Except.ok (name, type) from hvariable
  rfl

end NovelScript
