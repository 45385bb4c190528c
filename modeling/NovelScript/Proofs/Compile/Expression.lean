import NovelScript.Compile.Expression
import NovelScript.Proofs.Compile.Names

/-!
# How expressions are compiled

`Compiled` is the compiler of expressions as a relation, with one rule for each way in which it
succeeds (`compiled_of_compile`). What holds of all compiled expressions is proved by going through
the rules. The first such facts are here: compiling only adds names that are declared outside
(`Compiled.extends`), and the instructions name no variable that is not known by then
(`Compiled.known`).
-/

namespace NovelScript

open List

variable {v : Vocabulary} {n n' : Names}
variable {kind : Access} {base whole : Expr} {suffix name : String} {coded : Coded} {number : Int}
  {code : List Instr}

/-! ## References -/

/-- A reference to a variable is compiled. -/
structure Referenced (v : Vocabulary) (kind : Access) (n : Names) (base : Expr) (suffix : String)
    (name : String) (number : Int) (coded : Coded) (n' : Names) : Prop where
  base : base = .name name
  compiled : ∃ type s, n.resolve v name = .ok ((type, number), n') ∧
    Suffix.ofName? suffix = some s ∧ ((type != .text) == s.isNumber) = true ∧
    coded = ⟨s.result.getD type, [.access kind s.mark number]⟩

/-- A reference is compiled to an access by number. -/
theorem referenced_of_compile (h : compileReference v kind base suffix n = .ok (coded, n')) :
    ∃ name number, Referenced v kind n base suffix name number coded n' := by
  unfold compileReference at h
  split at h
  · next name =>
    obtain ⟨⟨type, number⟩, n₁, hresolve, h⟩ := of_stateBind h
    obtain ⟨s, hs, h⟩ := stateLift_bind.mp h
    obtain ⟨hmatch, h⟩ := stateRequire_bind.mp h
    obtain ⟨rfl, rfl⟩ := statePure_eq_ok.mp h
    rw [orFault_eq_ok] at hs
    exact ⟨name, number, rfl, type, s, hresolve, hs, hmatch, rfl⟩
  · exact absurd h stateThrow_ne_ok

theorem Referenced.extends (h : Referenced v kind n base suffix name number coded n') :
    n.Extends v n' := by
  obtain ⟨type, s, hresolve, -⟩ := h.compiled
  exact (Names.resolve_eq_ok hresolve).1

/-! ## Expressions -/

mutual

/-- An expression is compiled: with the names before and after it. -/
inductive Compiled (v : Vocabulary) : Names → Expr → Coded → Names → Prop
  | const {n : Names} {c : Constant} {coded : Coded} (h : c.compile = .ok coded) :
      Compiled v n (.const c) coded n
  | value {n n' : Names} {base : Expr} {suffix name : String} {number : Int} {coded : Coded}
      (h : Referenced v .value n base suffix name number coded n') :
      Compiled v n (.attribute base suffix) coded n'
  | array {n n' : Names} {base : Expr} {suffix name : String} {number : Int} {coded : Coded}
      {keywords : List (Option String × Expr)}
      (h : Referenced v .array n base suffix name number coded n') :
      Compiled v n (.call (.attribute base suffix) [] keywords) coded n'
  | element {n n₁ n₂ n' : Names} {base first : Expr} {suffix name : String} {number : Int}
      {coded i : Coded} {rest : List Expr} {is : List (List Instr)}
      {keywords : List (Option String × Expr)}
      (h : Referenced v .element n base suffix name number coded n₁)
      (hfirst : Compiled v n₁ first i n₂) (hint : i.type = .int)
      (hrest : CompiledIndexes v n₂ rest is n') :
      Compiled v n (.call (.attribute base suffix) (first :: rest) keywords)
        ⟨coded.type, coded.code ++ closeIndexes (i.code :: is)⟩ n'
  | conversion {n n' : Names} {function : String} {argument : Expr} {e coded : Coded}
      {keywords : List (Option String × Expr)} (h : Compiled v n argument e n')
      (hcoded : compileConversion function (.call (.name function) [argument] keywords) e =
        .ok coded) :
      Compiled v n (.call (.name function) [argument] keywords) coded n'
  | logic {n n₁ n' : Names} {op : LogicOp} {first : Expr} {rest : List Expr} {e : Coded}
      {code : List Instr} (hfirst : Compiled v n first e n₁) (hint : e.type = .int)
      (hrest : CompiledOperands v op.operator n₁ rest code n') :
      Compiled v n (.logic op (first :: rest)) ⟨.int, e.code ++ code⟩ n'
  | compare {n n₁ n' : Names} {left : Expr} {rest : List (CompareOp × Expr)} {e : Coded}
      {code : List Instr} (hleft : Compiled v n left e n₁)
      (hrest : CompiledComparisons v n₁ rest code n') :
      Compiled v n (.compare left rest) ⟨.int, e.code ++ code⟩ n'
  | binary {n n₁ n' : Names} {left right : Expr} {op : BinaryOp} {l r coded : Coded}
      (hleft : Compiled v n left l n₁) (hright : Compiled v n₁ right r n')
      (hcoded : compileBinary op (.binary left op right) l r = .ok coded) :
      Compiled v n (.binary left op right) coded n'
  | negated {n : Names} {op : UnaryOp} {operand : Expr} {value : Int}
      (h : negated? op operand = some value) :
      Compiled v n (.unary op operand) ⟨.int, [.ofInt value]⟩ n
  | unary {n n' : Names} {op : UnaryOp} {operand : Expr} {e coded : Coded}
      (hnone : negated? op operand = none) (h : Compiled v n operand e n')
      (hcoded : compileUnary op (.unary op operand) e = .ok coded) :
      Compiled v n (.unary op operand) coded n'

/-- Indexes are compiled. -/
inductive CompiledIndexes (v : Vocabulary) : Names → List Expr → List (List Instr) → Names → Prop
  | nil {n : Names} : CompiledIndexes v n [] [] n
  | cons {n n₁ n' : Names} {e : Expr} {rest : List Expr} {i : Coded} {is : List (List Instr)}
      (h : Compiled v n e i n₁) (hint : i.type = .int) (hrest : CompiledIndexes v n₁ rest is n') :
      CompiledIndexes v n (e :: rest) (i.code :: is) n'

/-- Further operands of a connective are compiled. -/
inductive CompiledOperands (v : Vocabulary) :
    Operator → Names → List Expr → List Instr → Names → Prop
  | nil {op : Operator} {n : Names} : CompiledOperands v op n [] [] n
  | cons {op : Operator} {n n₁ n' : Names} {e : Expr} {rest : List Expr} {r : Coded}
      {code : List Instr}
      (h : Compiled v n e r n₁) (hint : r.type = .int)
      (hrest : CompiledOperands v op n₁ rest code n') :
      CompiledOperands v op n (e :: rest) (r.code ++ [.op op] ++ code) n'

/-- Comparisons are compiled. -/
inductive CompiledComparisons (v : Vocabulary) :
    Names → List (CompareOp × Expr) → List Instr → Names → Prop
  | nil {n : Names} : CompiledComparisons v n [] [] n
  | cons {n n₁ n' : Names} {op : CompareOp} {o : Operator} {e : Expr}
      {rest : List (CompareOp × Expr)} {r : Coded} {code : List Instr}
      (h : Compiled v n e r n₁) (ho : op.operator? = some o)
      (hrest : CompiledComparisons v n₁ rest code n') :
      CompiledComparisons v n ((op, e) :: rest) (r.code ++ [.op o] ++ code) n'

end

/-- Compiling expressions follows the rules, for all kinds of lists in them at once. -/
theorem compiled_all :
    (∀ e n coded n', Expr.compile v e n = .ok (coded, n') → Compiled v n e coded n') ∧
    (∀ rest n code n', compileComparisons v rest n = .ok (code, n') →
      CompiledComparisons v n rest code n') ∧
    (∀ op rest n code n', compileOperands v op rest n = .ok (code, n') →
      CompiledOperands v op n rest code n') ∧
    (∀ rest n is n', compileIndexes v rest n = .ok (is, n') → CompiledIndexes v n rest is n') := by
  -- The recursion of the compiler itself, so each case is one rule.
  refine Expr.compile.mutual_induct _ _ _ _ ?const ?value ?array ?element ?conversion ?arity ?logic
    ?compare ?binary ?negated ?unary ?other ?operandsNil ?operandsCons ?indexesNil ?indexesCons
    ?comparisonsNil ?comparisonsCons
  case const =>
    intro c n coded n' h
    obtain ⟨hcoded, rfl⟩ := stateLift_eq_ok.mp h
    exact .const hcoded
  case value =>
    intro base suffix n coded n' h
    obtain ⟨name, number, h⟩ := referenced_of_compile h
    exact .value h
  case array =>
    intro base suffix keywords n coded n' h
    obtain ⟨name, number, h⟩ := referenced_of_compile h
    exact .array h
  case element =>
    intro base suffix first rest keywords ihfirst ihrest n coded n' h
    obtain ⟨e, n₁, he, h⟩ := of_stateBind h
    obtain ⟨i, n₂, hi, h⟩ := of_stateBind h
    obtain ⟨hint, h⟩ := stateRequire_bind.mp h
    obtain ⟨is, n₃, his, h⟩ := of_stateBind h
    obtain ⟨rfl, rfl⟩ := statePure_eq_ok.mp h
    obtain ⟨name, number, he⟩ := referenced_of_compile he
    exact .element he (ihfirst _ _ _ hi) (eq_of_beq hint) (ihrest _ _ _ his)
  case conversion =>
    intro function argument keywords ih n coded n' h
    obtain ⟨e, n₁, he, h⟩ := of_stateBind h
    obtain ⟨hcoded, rfl⟩ := stateLift_eq_ok.mp h
    exact .conversion (ih _ _ _ he) hcoded
  case arity =>
    intro function arguments keywords hne n coded n' h
    rw [Expr.compile] at h
    · exact absurd h stateThrow_ne_ok
    · exact hne
  case logic =>
    intro op first rest ihfirst ihrest n coded n' h
    obtain ⟨e, n₁, he, h⟩ := of_stateBind h
    obtain ⟨hint, h⟩ := stateRequire_bind.mp h
    obtain ⟨code, n₂, hcode, h⟩ := of_stateBind h
    obtain ⟨rfl, rfl⟩ := statePure_eq_ok.mp h
    exact .logic (ihfirst _ _ _ he) (eq_of_beq hint) (ihrest _ _ _ hcode)
  case compare =>
    intro left rest ihleft ihrest n coded n' h
    obtain ⟨e, n₁, he, h⟩ := of_stateBind h
    obtain ⟨code, n₂, hcode, h⟩ := of_stateBind h
    obtain ⟨rfl, rfl⟩ := statePure_eq_ok.mp h
    exact .compare (ihleft _ _ _ he) (ihrest _ _ _ hcode)
  case binary =>
    intro left op right ihleft ihright n coded n' h
    obtain ⟨l, n₁, hl, h⟩ := of_stateBind h
    obtain ⟨r, n₂, hr, h⟩ := of_stateBind h
    obtain ⟨hcoded, rfl⟩ := stateLift_eq_ok.mp h
    exact .binary (ihleft _ _ _ hl) (ihright _ _ _ hr) hcoded
  case negated =>
    intro op operand value hvalue n coded n' h
    rw [Expr.compile, hvalue] at h
    obtain ⟨rfl, rfl⟩ := statePure_eq_ok.mp h
    exact .negated hvalue
  case unary =>
    intro op operand hnone ih n coded n' h
    rw [Expr.compile, hnone] at h
    obtain ⟨e, n₁, he, h⟩ := of_stateBind h
    obtain ⟨hcoded, rfl⟩ := stateLift_eq_ok.mp h
    exact .unary hnone (ih _ _ _ he) hcoded
  -- Whatever has no rule is refused.
  case other =>
    intros
    next h =>
    rw [Expr.compile] at h
    · exact absurd h stateThrow_ne_ok
    all_goals assumption
  case operandsNil =>
    intro op n code n' h
    obtain ⟨rfl, rfl⟩ := statePure_eq_ok.mp h
    exact .nil
  case operandsCons =>
    intro op e rest ihe ihrest n code n' h
    obtain ⟨r, n₁, hr, h⟩ := of_stateBind h
    obtain ⟨hint, h⟩ := stateRequire_bind.mp h
    obtain ⟨code, n₂, hcode, h⟩ := of_stateBind h
    obtain ⟨rfl, rfl⟩ := statePure_eq_ok.mp h
    exact .cons (ihe _ _ _ hr) (eq_of_beq hint) (ihrest _ _ _ hcode)
  case indexesNil =>
    intro n is n' h
    obtain ⟨rfl, rfl⟩ := statePure_eq_ok.mp h
    exact .nil
  case indexesCons =>
    intro e rest ihe ihrest n code n' h
    obtain ⟨i, n₁, hi, h⟩ := of_stateBind h
    obtain ⟨hint, h⟩ := stateRequire_bind.mp h
    obtain ⟨is, n₂, his, h⟩ := of_stateBind h
    obtain ⟨rfl, rfl⟩ := statePure_eq_ok.mp h
    exact .cons (ihe _ _ _ hi) (eq_of_beq hint) (ihrest _ _ _ his)
  case comparisonsNil =>
    intro n code n' h
    obtain ⟨rfl, rfl⟩ := statePure_eq_ok.mp h
    exact .nil
  case comparisonsCons =>
    intro op e rest ihe ihrest n code n' h
    obtain ⟨r, n₁, hr, h⟩ := of_stateBind h
    obtain ⟨o, ho, h⟩ := stateLift_bind.mp h
    obtain ⟨code, n₂, hcode, h⟩ := of_stateBind h
    obtain ⟨rfl, rfl⟩ := statePure_eq_ok.mp h
    exact .cons (ihe _ _ _ hr) (orFault_eq_ok.mp ho) (ihrest _ _ _ hcode)

/-- An expression that compiles follows the rules. -/
theorem compiled_of_compile {e : Expr} (h : e.compile v n = .ok (coded, n')) :
    Compiled v n e coded n' :=
  compiled_all.1 e n coded n' h

/-! ## The instructions of operators -/

theorem compileConversion_eq_ok {function : String} {call : Expr} {e : Coded}
    (h : compileConversion function call e = .ok coded) :
    (function = "str" ∧ coded = ⟨.text, e.code ++ [.op .toText]⟩) ∨
      (function = "int" ∧ coded = ⟨.int, e.code ++ [.op .toInt]⟩) := by
  unfold compileConversion at h
  split at h
  · obtain ⟨_, _, h⟩ := of_bind h
    cases h
    exact .inl ⟨rfl, rfl⟩
  · obtain ⟨_, _, h⟩ := of_bind h
    cases h
    exact .inr ⟨rfl, rfl⟩
  · cases h

/-- An operator comes after the code of its operands. -/
theorem compileBinary_eq_ok {op : BinaryOp} {l r : Coded}
    (h : compileBinary op whole l r = .ok coded) :
    ∃ o, op.operator? = some o ∧ coded.code = l.code ++ r.code ++ [.op o] := by
  obtain ⟨o, ho, h⟩ := of_bind h
  refine ⟨o, orFault_eq_ok.mp ho, ?_⟩
  split at h <;> cases h <;> rfl

theorem compileUnary_eq_ok {op : UnaryOp} {e : Coded} (h : compileUnary op whole e = .ok coded) :
    (op = .plus ∧ coded = e) ∨ (op = .minus ∧ coded = ⟨e.type, e.code ++ [.op .neg]⟩) := by
  obtain ⟨_, _, h⟩ := of_bind h
  cases op <;> cases h
  · exact .inl ⟨rfl, rfl⟩
  · exact .inr ⟨rfl, rfl⟩

/-! ## Names -/

mutual

/-- To compile an expression only adds names. -/
theorem Compiled.extends {e : Expr} {coded : Coded} :
    ∀ {n n' : Names}, Compiled v n e coded n' → n.Extends v n'
  | _, _, .const _ => .refl v _
  | _, _, .value h | _, _, .array h => h.extends
  | _, _, .element h hfirst _ hrest => h.extends.trans (hfirst.extends.trans hrest.extends)
  | _, _, .conversion h _ => h.extends
  | _, _, .logic hfirst _ hrest => hfirst.extends.trans hrest.extends
  | _, _, .compare hleft hrest => hleft.extends.trans hrest.extends
  | _, _, .binary hleft hright _ => hleft.extends.trans hright.extends
  | _, _, .negated _ => .refl v _
  | _, _, .unary _ h _ => h.extends

theorem CompiledIndexes.extends {rest : List Expr} {is : List (List Instr)} :
    ∀ {n n' : Names}, CompiledIndexes v n rest is n' → n.Extends v n'
  | _, _, .nil => .refl v _
  | _, _, .cons h _ hrest => h.extends.trans hrest.extends

theorem CompiledOperands.extends {op : Operator} {rest : List Expr} {code : List Instr} :
    ∀ {n n' : Names}, CompiledOperands v op n rest code n' → n.Extends v n'
  | _, _, .nil => .refl v _
  | _, _, .cons h _ hrest => h.extends.trans hrest.extends

theorem CompiledComparisons.extends {rest : List (CompareOp × Expr)} {code : List Instr} :
    ∀ {n n' : Names}, CompiledComparisons v n rest code n' → n.Extends v n'
  | _, _, .nil => .refl v _
  | _, _, .cons h _ hrest => h.extends.trans hrest.extends

end

/-! ## The instructions that there are -/

/-- An instruction as compiling makes it: it names no variable that is not known, and a number takes
no more bytes than it needs. -/
def Instr.Known (v : Vocabulary) (n : Names) : Instr → Prop
  | .access _ _ number => ∃ name type, n.find? v name = some (type, number)
  | .int width value => width = IntWidth.fitting value
  | .raw _ => False
  | _ => True

theorem Instr.Known.mono {i : Instr} (h : i.Known v n) (hn : n.Extends v n') : i.Known v n' := by
  cases i with
  | access kind mark number =>
    obtain ⟨name, type, hfind⟩ := h
    exact ⟨name, type, hn.found hfind⟩
  | _ => exact h

/-- Indexes are divided by an instruction that does nothing. -/
theorem closeIndexes_cons (first : List Instr) (rest : List (List Instr)) :
    closeIndexes (first :: rest) =
      first ++ (rest.flatMap fun code => .op .nothing :: code) ++ [.op .indexEnd] := by
  rw [closeIndexes]
  congr 1
  induction rest generalizing first with
  | nil => simp
  | cons second rest ih =>
    rw [intersperse_cons_cons, flatten_cons, flatten_cons, ih]
    simp

theorem Constant.known_of_compile {c : Constant} (h : c.compile = .ok coded) :
    ∀ i ∈ coded.code, i.Known v n := by
  unfold Constant.compile at h
  split at h
  case h_4 s _ =>
    obtain ⟨w, _, h⟩ := of_bind h
    cases h
    simp [Instr.Known]
  all_goals cases h <;> simp [Instr.Known, Instr.ofInt]

theorem known_append_op (h : ∀ i ∈ code, i.Known v n) (o : Operator) :
    ∀ i ∈ code ++ [.op o], i.Known v n := by
  intro i hi
  rcases mem_append.mp hi with hi | hi
  · exact h i hi
  · rw [mem_singleton.mp hi]
    trivial

theorem known_append {code' : List Instr} (h : ∀ i ∈ code, i.Known v n) (hn : n.Extends v n')
    (h' : ∀ i ∈ code', i.Known v n') : ∀ i ∈ code ++ code', i.Known v n' := by
  intro i hi
  rcases mem_append.mp hi with hi | hi
  · exact (h i hi).mono hn
  · exact h' i hi

theorem Referenced.known (h : Referenced v kind n base suffix name number coded n') :
    ∀ i ∈ coded.code, i.Known v n' := by
  obtain ⟨type, s, hresolve, -, -, rfl⟩ := h.compiled
  simp only [mem_singleton, forall_eq]
  exact ⟨name, type, (Names.resolve_eq_ok hresolve).2⟩

mutual

/-- Every number in the code of an expression is known. -/
theorem Compiled.known {e : Expr} {coded : Coded} :
    ∀ {n n' : Names}, Compiled v n e coded n' → ∀ i ∈ coded.code, i.Known v n'
  | _, _, .const h => Constant.known_of_compile h
  | _, _, .value h | _, _, .array h => h.known
  | _, _, .element h hfirst _ hrest => by
    intro i hi
    have hnext := hfirst.extends.trans hrest.extends
    simp only [closeIndexes_cons, mem_append, mem_flatMap, mem_cons, not_mem_nil, or_false] at hi
    rcases hi with hi | (hi | ⟨code, hcode, rfl | hi⟩) | rfl
    · exact (h.known i hi).mono hnext
    · exact (hfirst.known i hi).mono hrest.extends
    · trivial
    · exact hrest.known code hcode i hi
    · trivial
  | _, _, .conversion h hcoded => by
    rcases compileConversion_eq_ok hcoded with ⟨-, rfl⟩ | ⟨-, rfl⟩
    · exact known_append_op h.known _
    · exact known_append_op h.known _
  | _, _, .logic hfirst _ hrest => known_append hfirst.known hrest.extends hrest.known
  | _, _, .compare hleft hrest => known_append hleft.known hrest.extends hrest.known
  | _, _, .binary hleft hright hcoded => by
    obtain ⟨o, -, hcode⟩ := compileBinary_eq_ok hcoded
    rw [hcode]
    exact known_append_op (known_append hleft.known hright.extends hright.known) o
  | _, _, .negated _ => by simp [Instr.Known, Instr.ofInt]
  | _, _, .unary _ h hcoded => by
    rcases compileUnary_eq_ok hcoded with ⟨-, rfl⟩ | ⟨-, rfl⟩
    · exact h.known
    · exact known_append_op h.known _

theorem CompiledIndexes.known {rest : List Expr} {is : List (List Instr)} :
    ∀ {n n' : Names}, CompiledIndexes v n rest is n' → ∀ code ∈ is, ∀ i ∈ code, i.Known v n'
  | _, _, .nil => by simp
  | _, _, .cons h _ hrest => by
    intro code hcode i hi
    rcases mem_cons.mp hcode with rfl | hcode
    · exact (h.known i hi).mono hrest.extends
    · exact hrest.known code hcode i hi

theorem CompiledOperands.known {op : Operator} {rest : List Expr} {code : List Instr} :
    ∀ {n n' : Names}, CompiledOperands v op n rest code n' → ∀ i ∈ code, i.Known v n'
  | _, _, .nil => by simp
  | _, _, .cons h _ hrest =>
    known_append (known_append_op h.known _) hrest.extends hrest.known

theorem CompiledComparisons.known {rest : List (CompareOp × Expr)} {code : List Instr} :
    ∀ {n n' : Names}, CompiledComparisons v n rest code n' → ∀ i ∈ code, i.Known v n'
  | _, _, .nil => by simp
  | _, _, .cons h _ hrest =>
    known_append (known_append_op h.known _) hrest.extends hrest.known

end

end NovelScript
