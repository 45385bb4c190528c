import NovelScript.Decompile.Expression
import NovelScript.Proofs.Compile.Expression
import NovelScript.Proofs.Instruction.Literal
import NovelScript.Proofs.Link.Renumbering

/-!
# Decompiled expressions

What an expression becomes when it is compiled, linked and decompiled is given by `Expr.restored`:
variables get the names of the decompiler, truth values are numbers, chains of connectives and
comparisons are nested from the left, and signs that say nothing are gone. Everything else is there
again.

The proof runs the instructions of an expression on the stack of the decompiler: whatever is on the
stack, they put the restored expression on top of it (`Compiled.runs`).
-/

namespace NovelScript

open List Names

variable {v : Vocabulary} {n n' : Names} {numbers : Nat → Nat} {ρ : String → String}
  {r : ReadingContext}
variable {names : List String} {code : List Instr} {s s' : Stack} {o : Operator} {suffix : String}
  {coded : Coded}

/-! ## Restored expressions -/

/-- A constant as it is shown. -/
def Constant.restored : Constant → Constant
  | .bool b => .int (if b then 1 else 0)
  | .text w _ => .text w
  | c => c

/-- A sign before an operand, as it is shown. -/
def restoredSign (op : UnaryOp) (operand restored : Expr) : Expr :=
  match negated? op operand, op with
  | some value, _ => .int value
  | none, .plus => restored
  | none, _ => .unary op restored

mutual

/-- An expression as it is decompiled, with other names for its variables. -/
def Expr.restored (ρ : String → String) : Expr → Expr
  | .const c => .const c.restored
  | .attribute (.name x) suffix => .attribute (.name (ρ x)) suffix
  | .call function arguments keywords =>
    .call (function.restored ρ) (restoredAll ρ arguments) (restoredKeywords ρ keywords)
  | .subscript base index => .subscript base (index.restored ρ)
  | .logic op (first :: rest) =>
    (restoredAll ρ rest).foldl (fun l r => .logic op [l, r]) (first.restored ρ)
  | .compare left rest =>
    (restoredComparisons ρ rest).foldl (fun l c => .compare l [c]) (left.restored ρ)
  | .binary left op right => .binary (left.restored ρ) op (right.restored ρ)
  | .unary op operand => restoredSign op operand (operand.restored ρ)
  | .yield (some value) => .yield (some (value.restored ρ))
  | e => e

/-- Expressions as they are shown. -/
def restoredAll (ρ : String → String) : List Expr → List Expr
  | [] => []
  | e :: rest => e.restored ρ :: restoredAll ρ rest

/-- Keywords as they are shown. -/
def restoredKeywords (ρ : String → String) :
    List (Option String × Expr) → List (Option String × Expr)
  | [] => []
  | (k, e) :: rest => (k, e.restored ρ) :: restoredKeywords ρ rest

/-- Comparisons as they are shown. -/
def restoredComparisons (ρ : String → String) : List (CompareOp × Expr) → List (CompareOp × Expr)
  | [] => []
  | (op, e) :: rest => (op, e.restored ρ) :: restoredComparisons ρ rest

end

/-! ## Plain expressions -/

/-- Whether a suffix means in a version what it says: a number as text is there before version 300
and the address of a text from then on. -/
def suffixFits (version : Int) (suffix : String) : Bool :=
  if suffix == "SN" then version < 300
  else if suffix == "AS" then 300 ≤ version
  else true

mutual

/-- Whether an expression has no missing values, no keywords and only suffixes that fit the
version. -/
def Expr.isPlain (version : Int) : Expr → Bool
  | .const .none => false
  | .attribute _ suffix => suffixFits version suffix
  | .call function arguments keywords =>
    function.isPlain version && allPlain version arguments && keywords.isEmpty
  | .logic _ operands => allPlain version operands
  | .compare left rest => left.isPlain version && comparisonsPlain version rest
  | .binary left _ right => left.isPlain version && right.isPlain version
  | .unary _ operand => operand.isPlain version
  | _ => true

/-- All expressions are plain. -/
def allPlain (version : Int) : List Expr → Bool
  | [] => true
  | e :: rest => e.isPlain version && allPlain version rest

/-- All compared expressions are plain. -/
def comparisonsPlain (version : Int) : List (CompareOp × Expr) → Bool
  | [] => true
  | (_, e) :: rest => e.isPlain version && comparisonsPlain version rest

end

/-! ## Variables that are named -/

mutual

/-- The variables that an expression names. A variable stands before its suffix; a name that stands
alone is that of a command or a function. -/
def Expr.mentions : Expr → List String
  | .attribute (.name x) _ => [x]
  | .attribute base _ => base.mentions
  | .call function arguments keywords =>
    function.mentions ++ mentionsOf arguments ++ keywordMentions keywords
  | .subscript base index => base.mentions ++ index.mentions
  | .unary _ operand => operand.mentions
  | .binary left _ right => left.mentions ++ right.mentions
  | .compare left rest => left.mentions ++ comparisonMentions rest
  | .logic _ operands => mentionsOf operands
  | .conditional test body elseBody => test.mentions ++ body.mentions ++ elseBody.mentions
  | .lambda body => body.mentions
  | .tuple items | .list items | .set items => mentionsOf items
  | .mapping items => pairMentions items
  | .yield (some value) => value.mentions
  | .yield none | .const _ | .name _ => []

/-- The names in expressions. -/
def mentionsOf : List Expr → List String
  | [] => []
  | e :: rest => e.mentions ++ mentionsOf rest

/-- The names in keywords. -/
def keywordMentions : List (Option String × Expr) → List String
  | [] => []
  | (_, e) :: rest => e.mentions ++ keywordMentions rest

/-- The names in comparisons. -/
def comparisonMentions : List (CompareOp × Expr) → List String
  | [] => []
  | (_, e) :: rest => e.mentions ++ comparisonMentions rest

/-- The names in pairs. -/
def pairMentions : List (Expr × Expr) → List String
  | [] => []
  | (key, value) :: rest => key.mentions ++ value.mentions ++ pairMentions rest

end

/-! ## Names that the decompiler shows -/

/-- The number that stands for a variable in a linked script. -/
def linkedNumber (numbers : Nat → Nat) (number : Int) : Int :=
  if number < firstUserNumber then number else numbers (number - firstUserNumber).toNat

/-- The decompiler finds a variable by its linked number, of the same type as far as texts and
numbers go, and shows it under its other name. -/
def Names.ShownBy (n : Names) (v : Vocabulary) (numbers : Nat → Nat) (ρ : String → String)
    (r : ReadingContext) : Prop :=
  ∀ name type number, n.find? v name = some (type, number) →
    ∃ type', variableAt r.names r.locals (linkedNumber numbers number) = .ok (ρ name, type') ∧
      (type' == .text) = (type == .text)

/-- What is shown of later names is shown of earlier ones. -/
theorem Names.ShownBy.mono (h : n'.ShownBy v numbers ρ r) (hn : n.Extends v n') :
    n.ShownBy v numbers ρ r :=
  fun name type number hfind => h name type number (hn.found hfind)

/-- The decompiler finds some of the variables by their linked numbers, and shows them under their
other names. -/
def Names.ShowsAll (n : Names) (v : Vocabulary) (numbers : Nat → Nat) (ρ : String → String)
    (r : ReadingContext) (names : List String) : Prop :=
  ∀ name ∈ names, ∀ type number, n.find? v name = some (type, number) →
    ∃ type', variableAt r.names r.locals (linkedNumber numbers number) = .ok (ρ name, type') ∧
      (type' == .text) = (type == .text)

theorem Names.ShownBy.showsAll (h : n.ShownBy v numbers ρ r) (names : List String) :
    n.ShowsAll v numbers ρ r names :=
  fun name _ => h name

theorem Names.ShowsAll.mono (h : n'.ShowsAll v numbers ρ r names) (hn : n.Extends v n') :
    n.ShowsAll v numbers ρ r names :=
  fun name hname type number hfind => h name hname type number (hn.found hfind)

theorem Names.showsAll_append {names' : List String} :
    n.ShowsAll v numbers ρ r (names ++ names') ↔
      n.ShowsAll v numbers ρ r names ∧ n.ShowsAll v numbers ρ r names' :=
  forall_mem_append

/-! ## Runs on the stack -/

/-- Code that is linked takes one stack to another. -/
def Runs (r : ReadingContext) (numbers : Nat → Nat) (code : List Instr) (s s' : Stack) : Prop :=
  (code.map (Instr.relocate numbers)).foldlM (Stack.step r Dialect.blocks) s = .ok s'

/-- Code runs piece by piece. -/
theorem Runs.append {code' : List Instr} {s₁ : Stack} (h : Runs r numbers code s s₁)
    (h' : Runs r numbers code' s₁ s') : Runs r numbers (code ++ code') s s' := by
  unfold Runs at *
  rw [map_append, foldlM_append, h]
  exact h'

theorem runs_nil (s : Stack) : Runs r numbers [] s s := rfl

theorem runs_singleton {i : Instr}
    (h : Stack.step r Dialect.blocks s (i.relocate numbers) = .ok s') :
    Runs r numbers [i] s s' := by
  unfold Runs
  rw [map_singleton, foldlM_cons, h]
  rfl

theorem runs_op (h : s.apply Dialect.blocks o = .ok s') : Runs r numbers [.op o] s s' :=
  runs_singleton h

theorem runs_nothing (h : Runs r numbers code s s') : Runs r numbers (.op .nothing :: code) s s' :=
  (runs_op (o := .nothing) rfl).append h

theorem popIndexes_append (es taken : List Expr) (s : Stack) :
    Stack.popIndexes taken (es.map some ++ s) = s.popIndexes (es.reverse ++ taken) := by
  induction es generalizing taken with
  | nil => rfl
  | cons e es ih =>
    rw [map_cons, cons_append, Stack.popIndexes, ih, reverse_cons, append_assoc, singleton_append]

/-- The end of an index takes all indexes and what they belong to. -/
theorem apply_indexEnd (base first : Expr) (rest : List Expr) (s : Stack) :
    Stack.apply Dialect.blocks ((first :: rest).reverse.map some ++ some base :: none :: s)
      .indexEnd = .ok (some (.call base (first :: rest) []) :: s) := by
  rw [Stack.apply, popIndexes_append, reverse_reverse, append_nil]
  rfl

theorem apply_binary {op : BinaryOp} (h : op.operator? = some o) (left right : Expr) (s : Stack) :
    Stack.apply Dialect.blocks (some right :: some left :: s) o =
      .ok (some (.binary left op right) :: s) := by
  cases op <;> cases h <;> rfl

theorem apply_logic (op : LogicOp) (left right : Expr) (s : Stack) :
    Stack.apply Dialect.blocks (some right :: some left :: s) op.operator =
      .ok (some (.logic op [left, right]) :: s) := by
  cases op <;> rfl

theorem apply_compare {op : CompareOp} (h : op.operator? = some o) (left right : Expr) (s : Stack) :
    Stack.apply Dialect.blocks (some right :: some left :: s) o =
      .ok (some (.compare left [(op, right)]) :: s) := by
  cases op <;> cases h <;> rfl

/-! ## References -/

/-- The suffix is found by the mark. -/
theorem suffix_ofMark {version : Int} {s : Suffix} (h : Suffix.ofName? suffix = some s)
    (hfits : suffixFits version suffix = true) :
    (Usage.ofMark version s.mark).suffix = suffix ∧
      (Usage.ofMark version s.mark).usesText = !s.isNumber := by
  unfold Suffix.ofName? at h
  split at h <;> cases h
  · exact ⟨rfl, rfl⟩
  · exact ⟨rfl, rfl⟩
  · exact ⟨rfl, rfl⟩
  · have hsplit : 300 ≤ version := by simpa [suffixFits] using hfits
    rw [Usage.ofMark, if_pos hsplit]
    exact ⟨rfl, rfl⟩
  · have hsplit : ¬300 ≤ version := by simpa [suffixFits] using hfits
    rw [Usage.ofMark, if_neg hsplit]
    exact ⟨rfl, rfl⟩

/-- What an access leaves on a stack. -/
def accessed (kind : Access) (reference : Expr) (s : Stack) : Stack :=
  match kind with
  | .value => some reference :: s
  | .array => some (.call reference [] []) :: s
  | .element => some reference :: none :: s

/-- A reference pushes the name that it is shown by. -/
theorem Referenced.runs {kind : Access} {base : Expr} {name : String} {number : Int}
    (h : Referenced v kind n base suffix name number coded n')
    (hfits : suffixFits r.version suffix = true)
    (hshown : n'.ShowsAll v numbers ρ r (Expr.attribute base suffix).mentions) (s : Stack) :
    Runs r numbers coded.code s (accessed kind ((Expr.attribute base suffix).restored ρ) s) := by
  obtain ⟨rfl, type, use, hresolve, huse, hmatch, rfl⟩ := h
  obtain ⟨type', hvariable, htype⟩ :=
    hshown name mem_cons_self _ _ (resolve_eq_ok hresolve).2
  obtain ⟨hsuffix, htext⟩ := suffix_ofMark huse hfits
  have husage : ((Usage.ofMark r.version use.mark).usesText == (type' == .text)) = true := by
    rw [htext, htype, ← eq_of_beq hmatch]
    simp [bne]
  have hreference : r.reference Dialect.blocks use.mark (linkedNumber numbers number) =
      .ok (.attribute (.name (ρ name)) suffix) := by
    unfold ReadingContext.reference
    rw [hvariable, ok_bind]
    simp only [require, husage, if_true, ok_bind, pure_eq_ok]
    rw [← hsuffix]
    rfl
  rw [Expr.restored]
  refine runs_singleton ?_
  show Stack.step r _ s (.access kind use.mark (linkedNumber numbers number)) = _
  cases kind <;> (rw [Stack.step, hreference]; rfl)

/-! ## Expressions -/

/-- A constant is pushed as it is shown. -/
theorem runs_constant {c : Constant} (h : c.compile = .ok coded)
    (hplain : (Expr.const c).isPlain r.version = true) (s : Stack) :
    Runs r numbers coded.code s (some (.const c.restored) :: s) := by
  cases c with
  | none => cases hplain
  | text w marked =>
    obtain ⟨literal, hquote, h⟩ := of_bind h
    cases h
    refine runs_singleton ?_
    show (contentOf literal >>= fun e => pure (some e :: s)) = _
    rw [contentOf, Literal.unquote_of_quote hquote]
    rfl
  | _ => cases h <;> exact runs_singleton rfl

mutual

/-- **The instructions of an expression put the restored expression on the stack.** -/
theorem Compiled.runs {e : Expr} {coded : Coded} :
    ∀ {n n' : Names}, Compiled v n e coded n' → e.isPlain r.version = true →
      n'.ShowsAll v numbers ρ r e.mentions →
      ∀ s, Runs r numbers coded.code s (some (e.restored ρ) :: s)
  | _, _, .const h, hplain, _ => by
    rw [Expr.restored]
    exact runs_constant h hplain
  | _, _, .value h, hplain, hshown => h.runs hplain hshown
  | _, _, .array h, hplain, hshown => by
    rw [Expr.isPlain, Bool.and_eq_true, Bool.and_eq_true, List.isEmpty_iff] at hplain
    obtain ⟨⟨hbase, -⟩, rfl⟩ := hplain
    rw [Expr.mentions, showsAll_append, showsAll_append] at hshown
    rw [Expr.restored, restoredAll]
    exact h.runs hbase hshown.1.1
  | _, _, .element h hfirst _ hrest, hplain, hshown => by
    simp only [Expr.isPlain, allPlain, Bool.and_eq_true, List.isEmpty_iff] at hplain
    obtain ⟨⟨hbase, hplainFirst, hplainRest⟩, rfl⟩ := hplain
    simp only [Expr.mentions, mentionsOf, showsAll_append] at hshown
    obtain ⟨⟨hshownBase, hshownFirst, hshownRest⟩, -⟩ := hshown
    have hnext := hfirst.extends.trans hrest.extends
    intro s
    rw [closeIndexes_cons, Expr.restored, restoredAll, restoredKeywords]
    -- the array stands above the marker of its index list, and the indexes above the array
    refine (h.runs hbase (hshownBase.mono hnext) s).append
      (((hfirst.runs hplainFirst (hshownFirst.mono hrest.extends) _).append
        (hrest.runs hplainRest hshownRest _)).append (runs_op ?_))
    rw [← apply_indexEnd, reverse_cons, map_append, append_assoc]
    rfl
  | _, _, .conversion h hcoded, hplain, hshown => by
    simp only [Expr.isPlain, allPlain, Bool.and_eq_true, List.isEmpty_iff] at hplain
    obtain ⟨⟨-, hplain, -⟩, rfl⟩ := hplain
    simp only [Expr.mentions, mentionsOf, showsAll_append] at hshown
    obtain ⟨⟨-, hshown, -⟩, -⟩ := hshown
    intro s
    rcases compileConversion_eq_ok hcoded with ⟨rfl, rfl⟩ | ⟨rfl, rfl⟩
    · exact (h.runs hplain hshown s).append (runs_op rfl)
    · exact (h.runs hplain hshown s).append (runs_op rfl)
  | _, _, .logic hfirst _ hrest, hplain, hshown => by
    simp only [Expr.isPlain, allPlain, Bool.and_eq_true] at hplain
    simp only [Expr.mentions, mentionsOf, showsAll_append] at hshown
    intro s
    rw [Expr.restored]
    exact (hfirst.runs hplain.1 (hshown.1.mono hrest.extends) s).append
      (hrest.runs rfl hplain.2 hshown.2 _ s)
  | _, _, .compare hleft hrest, hplain, hshown => by
    rw [Expr.isPlain, Bool.and_eq_true] at hplain
    rw [Expr.mentions, showsAll_append] at hshown
    intro s
    rw [Expr.restored]
    exact (hleft.runs hplain.1 (hshown.1.mono hrest.extends) s).append
      (hrest.runs hplain.2 hshown.2 _ s)
  | _, _, .binary hleft hright hcoded, hplain, hshown => by
    rw [Expr.isPlain, Bool.and_eq_true] at hplain
    rw [Expr.mentions, showsAll_append] at hshown
    obtain ⟨o, ho, hcode⟩ := compileBinary_eq_ok hcoded
    intro s
    rw [hcode, Expr.restored]
    exact ((hleft.runs hplain.1 (hshown.1.mono hright.extends) s).append
      (hright.runs hplain.2 hshown.2 _)).append (runs_op (apply_binary ho _ _ s))
  | _, _, .negated h, _, _ => by
    intro s
    rw [Expr.restored]
    unfold restoredSign
    rw [h]
    exact runs_singleton rfl
  | _, _, .unary hnone h hcoded, hplain, hshown => by
    rw [Expr.isPlain] at hplain
    rw [Expr.mentions] at hshown
    intro s
    rw [Expr.restored]
    unfold restoredSign
    rw [hnone]
    rcases compileUnary_eq_ok hcoded with ⟨rfl, rfl⟩ | ⟨rfl, rfl⟩
    · exact h.runs hplain hshown s
    · exact (h.runs hplain hshown s).append (runs_op rfl)

theorem CompiledIndexes.runs {rest : List Expr} {is : List (List Instr)} :
    ∀ {n n' : Names}, CompiledIndexes v n rest is n' → allPlain r.version rest = true →
      n'.ShowsAll v numbers ρ r (mentionsOf rest) →
      ∀ s, Runs r numbers (is.flatMap fun code => .op .nothing :: code) s
        ((restoredAll ρ rest).reverse.map some ++ s)
  | _, _, .nil, _, _ => runs_nil
  | _, _, .cons h _ hrest, hplain, hshown => by
    rw [allPlain, Bool.and_eq_true] at hplain
    rw [mentionsOf, showsAll_append] at hshown
    intro s
    rw [flatMap_cons, restoredAll, reverse_cons, map_append, append_assoc]
    exact (runs_nothing (h.runs hplain.1 (hshown.1.mono hrest.extends) s)).append
      (hrest.runs hplain.2 hshown.2 _)

theorem CompiledOperands.runs {o : Operator} {op : LogicOp} {rest : List Expr} {code : List Instr} :
    ∀ {n n' : Names}, CompiledOperands v o n rest code n' → o = op.operator →
      allPlain r.version rest = true → n'.ShowsAll v numbers ρ r (mentionsOf rest) →
      ∀ (left : Expr) (s : Stack), Runs r numbers code (some left :: s)
        (some ((restoredAll ρ rest).foldl (fun l r => .logic op [l, r]) left) :: s)
  | _, _, .nil, _, _, _ => fun _ _ => runs_nil _
  | _, _, .cons h _ hrest, ho, hplain, hshown => by
    rw [allPlain, Bool.and_eq_true] at hplain
    rw [mentionsOf, showsAll_append] at hshown
    intro left s
    rw [restoredAll, foldl_cons]
    refine ((h.runs hplain.1 (hshown.1.mono hrest.extends) _).append (runs_op ?_)).append
      (hrest.runs ho hplain.2 hshown.2 _ s)
    rw [ho]
    exact apply_logic op left _ s

theorem CompiledComparisons.runs {rest : List (CompareOp × Expr)} {code : List Instr} :
    ∀ {n n' : Names}, CompiledComparisons v n rest code n' →
      comparisonsPlain r.version rest = true →
      n'.ShowsAll v numbers ρ r (comparisonMentions rest) →
      ∀ (left : Expr) (s : Stack), Runs r numbers code (some left :: s)
        (some ((restoredComparisons ρ rest).foldl (fun l c => .compare l [c]) left) :: s)
  | _, _, .nil, _, _ => fun _ _ => runs_nil _
  | _, _, .cons h ho hrest, hplain, hshown => by
    rw [comparisonsPlain, Bool.and_eq_true] at hplain
    rw [comparisonMentions, showsAll_append] at hshown
    intro left s
    rw [restoredComparisons, foldl_cons]
    exact ((h.runs hplain.1 (hshown.1.mono hrest.extends) _).append
      (runs_op (apply_compare ho left _ s))).append (hrest.runs hplain.2 hshown.2 _ s)

end

/-- A plain expression is shown as restored. -/
theorem Compiled.decompileExpr_eq {e : Expr} (h : Compiled v n e coded n')
    (hplain : e.isPlain r.version = true) (hshown : n'.ShownBy v numbers ρ r) :
    decompileExpr r Dialect.blocks (coded.code.map (Instr.relocate numbers)) =
      .ok (e.restored ρ) := by
  have hruns := h.runs hplain (hshown.showsAll _) []
  rw [decompileExpr, hruns]
  rfl

end NovelScript
