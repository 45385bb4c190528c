import NovelScript.Decompile.Lines
import NovelScript.Proofs.Outcome

/-!
# Pieces of printed expressions

An expression of a listing is printed as a list of pieces: operands, signs and connectives
(`Expr.pieces`). With the connectives of the source language they make the printed text
(`spelled_pieces`). The text literals of the instructions are among the operands, in their order,
and the connectives are those of the instructions (`carries_of_decompileExpr`).
-/

namespace NovelScript

open List

/-! ## Pieces -/

/-- A piece of a printed expression. -/
inductive Piece where
  /-- A name, a number or a text literal. -/
  | operand (text : String)
  /-- Brackets, commas and operators, with their blanks. -/
  | sign (text : String)
  | connective (op : LogicOp)
  deriving DecidableEq

namespace Piece

/-- A piece as it is written, with words for the connectives. -/
def chars (word : LogicOp → String) : Piece → List Char
  | operand text | sign text => text.toList
  | connective op => ' ' :: ((word op).toList ++ [' '])

/-- The text of an operand. -/
def operand? : Piece → Option String
  | operand text => some text
  | _ => none

/-- The connective of a piece. -/
def connective? : Piece → Option LogicOp
  | connective op => some op
  | _ => none

end Piece

/-- Pieces with a spelling of the connectives. -/
def spelled (word : LogicOp → String) (pieces : List Piece) : List Char :=
  pieces.flatMap (Piece.chars word)

/-- Pieces in round brackets if their place asks for a higher level. -/
def bracketPieces (asked own : Level) (pieces : List Piece) : List Piece :=
  if own < asked then .sign "(" :: (pieces ++ [.sign ")"]) else pieces

mutual

/-- The pieces of an expression at a place that asks for a level. What listings do not have is an
operand. -/
def Expr.pieces (asked : Level) : Expr → List Piece
  | .call function arguments [] =>
    function.pieces Level.atom ++ .sign "(" :: (piecesAll arguments ++ [.sign ")"])
  | .unary op operand =>
    bracketPieces asked (Level.ofUnary op) (.sign op.symbol :: operand.pieces (Level.ofUnary op))
  | .binary left op right =>
    let own := Level.ofBinary op
    let (leftLevel, rightLevel) := if op = .pow then (own + 1, own) else (own, own + 1)
    bracketPieces asked own
      (left.pieces leftLevel ++ .sign (" " ++ op.symbol ++ " ") :: right.pieces rightLevel)
  | .compare left [(op, right)] =>
    bracketPieces asked Level.comparison (left.pieces (Level.comparison + 1) ++
      .sign (" " ++ op.symbol ++ " ") :: right.pieces (Level.comparison + 1))
  | .logic op [left, right] =>
    bracketPieces asked (Level.ofLogic op)
      (left.pieces (min (Level.ofLogic op + 1) Level.atom) ++
        .connective op :: right.pieces (min (Level.ofLogic op + 2) Level.atom))
  | e => [.operand (e.render asked)]

/-- The pieces of arguments. -/
def piecesAll : List Expr → List Piece
  | [] => []
  | [e] => e.pieces Level.test
  | e :: rest => e.pieces Level.test ++ .sign ", " :: piecesAll rest

end

variable (word : LogicOp → String)

@[simp] theorem spelled_append (xs ys : List Piece) :
    spelled word (xs ++ ys) = spelled word xs ++ spelled word ys := flatMap_append

@[simp] theorem spelled_cons (x : Piece) (xs : List Piece) :
    spelled word (x :: xs) = x.chars word ++ spelled word xs := flatMap_cons

/-- Brackets are spelled where they are written. -/
@[simp] theorem spelled_nil : spelled word [] = [] := rfl

theorem spelled_bracketPieces (asked own : Level)
    {pieces : List Piece} {text : String} (h : spelled word pieces = text.toList) :
    spelled word (bracketPieces asked own pieces) = (bracketIf asked own text).toList := by
  unfold bracketPieces bracketIf
  split
  · simp [Piece.chars, h]
  · exact h

mutual

/-- The pieces of an expression spell it. -/
theorem spelled_pieces (asked : Level) :
    ∀ e : Expr, spelled LogicOp.symbol (e.pieces asked) = (e.render asked).toList
  | .call function arguments [] => by
    have hall := spelled_piecesAll arguments
    simp [Expr.pieces, Expr.render, renderKeywords, spelled_pieces Level.atom function, hall,
      Piece.chars]
  | .unary op operand => by
    refine spelled_bracketPieces _ _ _ ?_
    simp [spelled_pieces (Level.ofUnary op) operand, Piece.chars]
  | .binary left op right => by
    refine spelled_bracketPieces _ _ _ ?_
    simp [spelled_pieces _ left, spelled_pieces _ right, Piece.chars]
  | .compare left [(op, right)] => by
    refine spelled_bracketPieces _ _ _ ?_
    simp [spelled_pieces _ left, spelled_pieces _ right, Piece.chars, renderComparisons]
  | .logic op [left, right] => by
    refine spelled_bracketPieces _ _ _ ?_
    simp [spelled_pieces _ left, spelled_pieces _ right, Piece.chars, renderOperands]
  | .const _ | .name _ | .attribute _ _ | .call _ _ (_ :: _) | .subscript _ _ | .compare _ []
  | .compare _ (_ :: _ :: _) | .logic _ [] | .logic _ [_] | .logic _ (_ :: _ :: _ :: _)
  | .conditional _ _ _ | .lambda _ | .tuple _ | .list _ | .set _ | .mapping _ | .yield _ => by
    simp [Expr.pieces, Piece.chars]

theorem spelled_piecesAll : ∀ es : List Expr,
    spelled LogicOp.symbol (piecesAll es) = (", ".intercalate (renderAll es)).toList
  | [] => rfl
  | [e] => by
    simp [piecesAll, renderAll, spelled_pieces _ e]
  | e :: e' :: rest => by
    have hrest := spelled_piecesAll (e' :: rest)
    rw [piecesAll, spelled_append, spelled_cons, hrest, spelled_pieces _ e]
    · simp [renderAll, Piece.chars]
    · simp

end

/-! ## What pieces carry -/

/-- The operands among pieces. -/
def operandsIn (pieces : List Piece) : List String := pieces.filterMap Piece.operand?

/-- The connectives among pieces. -/
def connectivesIn (pieces : List Piece) : List LogicOp := pieces.filterMap Piece.connective?

/-- Pieces have some operands in their order, and just some connectives. -/
structure Carries (texts : List String) (ops : List LogicOp) (pieces : List Piece) : Prop where
  texts : texts.Sublist (operandsIn pieces)
  ops : (connectivesIn pieces).Perm ops

section

variable {texts texts' : List String} {ops ops' : List LogicOp} {xs ys : List Piece}

section

variable (h : Carries texts ops xs)
include h

/-- Pieces carry what their parts do. -/
theorem Carries.append (h' : Carries texts' ops' ys) :
    Carries (texts ++ texts') (ops ++ ops') (xs ++ ys) where
  texts := by
    rw [operandsIn, filterMap_append]
    exact h.texts.append h'.texts
  ops := by
    rw [connectivesIn, filterMap_append]
    exact h.ops.append h'.ops

theorem Carries.sign (text : String) : Carries texts ops (.sign text :: xs) := ⟨h.texts, h.ops⟩

theorem Carries.sign_right (text : String) : Carries texts ops (xs ++ [.sign text]) := by
  have hsign : Carries [] [] [Piece.sign text] := ⟨.slnil, .nil⟩
  simpa using h.append hsign

theorem Carries.connective (op : LogicOp) : Carries texts (op :: ops) (.connective op :: xs) :=
  ⟨h.texts, h.ops.cons op⟩

theorem Carries.bracketPieces (asked own : Level) :
    Carries texts ops (bracketPieces asked own xs) := by
  unfold NovelScript.bracketPieces
  split
  · exact (h.sign_right _).sign _
  · exact h

theorem Carries.perm (hops : ops.Perm ops') : Carries texts ops' xs :=
  ⟨h.texts, h.ops.trans hops⟩

end

end

namespace Expr

/-- An expression carries texts and connectives wherever it is printed, also with the brackets it
needs. -/
def Carries (texts : List String) (ops : List LogicOp) (e : Expr) : Prop :=
  ∀ asked, NovelScript.Carries texts ops (e.pieces asked) ∧
    NovelScript.Carries texts ops (e.grouped.2.pieces asked)

/-- Expressions one after another carry texts and connectives. -/
inductive AllCarry : List String → List LogicOp → List Expr → Prop
  | nil : AllCarry [] [] []
  | cons {texts texts' : List String} {ops ops' : List LogicOp} {e : Expr} {es : List Expr}
      (h : e.Carries texts ops) (hrest : AllCarry texts' ops' es) :
      AllCarry (texts ++ texts') (ops ++ ops') (e :: es)

variable {texts texts' : List String} {ops ops' : List LogicOp} {e l r : Expr} {es : List Expr}

theorem carries_const (c : Constant) : (const c).Carries [] [] :=
  fun _ => ⟨⟨nil_sublist _, .nil⟩, ⟨nil_sublist _, .nil⟩⟩

theorem carries_name (id : String) : (name id).Carries [id] [] :=
  fun _ => ⟨⟨.refl _, .nil⟩, ⟨.refl _, .nil⟩⟩

theorem Carries.nil (h : e.Carries texts ops) : e.Carries [] ops :=
  fun asked => ⟨⟨nil_sublist _, (h asked).1.ops⟩, ⟨nil_sublist _, (h asked).2.ops⟩⟩

theorem carries_inBrackets {asked : Level}
    (h : ∀ asked, NovelScript.Carries texts ops (e.pieces asked)) :
    NovelScript.Carries texts ops (e.inBrackets.pieces asked) := by
  have hempty : NovelScript.Carries [] [] [Piece.operand ""] := ⟨nil_sublist _, .nil⟩
  exact hempty.append (((h Level.test).sign_right _).sign _)

section

variable (h : e.Carries texts ops)
include h

/-- Grouping on the left carries the same. -/
theorem carries_leftOf (own asked : Level) :
    NovelScript.Carries texts ops ((leftOf own e.grouped).pieces asked) := by
  show NovelScript.Carries texts ops (Expr.pieces asked (if _ then _ else _))
  split
  · exact carries_inBrackets fun asked => (h asked).2
  · exact (h asked).2

/-- Grouping on the right carries the same. -/
theorem carries_rightOf (own asked : Level) :
    NovelScript.Carries texts ops ((rightOf own e.grouped).pieces asked) := by
  show NovelScript.Carries texts ops (Expr.pieces asked (if _ then _ else _))
  split
  · exact carries_inBrackets fun asked => (h asked).2
  · exact (h asked).2

theorem Carries.unary (op : UnaryOp) : (Expr.unary op e).Carries texts ops := fun asked =>
  ⟨((h _).1.sign _).bracketPieces asked _, ((carries_rightOf h _ _).sign _).bracketPieces asked _⟩

end

section

variable (hl : l.Carries texts ops) (hr : r.Carries texts' ops')
include hl hr

theorem Carries.binary (op : BinaryOp) :
    (Expr.binary l op r).Carries (texts ++ texts') (ops ++ ops') := fun asked =>
  ⟨((hl _).1.append ((hr _).1.sign _)).bracketPieces asked _,
    ((carries_leftOf hl _ _).append ((carries_rightOf hr _ _).sign _)).bracketPieces asked _⟩

theorem Carries.compare (op : CompareOp) :
    (Expr.compare l [(op, r)]).Carries (texts ++ texts') (ops ++ ops') := fun asked =>
  ⟨((hl _).1.append ((hr _).1.sign _)).bracketPieces asked _,
    ((carries_leftOf hl _ _).append ((carries_rightOf hr _ _).sign _)).bracketPieces asked _⟩

theorem Carries.logic (op : LogicOp) :
    (Expr.logic op [l, r]).Carries (texts ++ texts') (ops ++ ops' ++ [op]) := by
  have hops : (ops ++ op :: ops').Perm (ops ++ ops' ++ [op]) := by
    rw [append_assoc]
    exact (perm_append_singleton op ops').symm.append_left ops
  exact fun asked =>
    ⟨((((hl _).1.append ((hr _).1.connective op))).perm hops).bracketPieces asked _,
      (((carries_leftOf hl _ _).append ((carries_rightOf hr _ _).connective op)).perm
        hops).bracketPieces asked _⟩

end

theorem AllCarry.piecesAll (h : AllCarry texts ops es) :
    NovelScript.Carries texts ops (piecesAll es) ∧
      NovelScript.Carries texts ops (NovelScript.piecesAll (groupedAll es)) := by
  induction h with
  | nil => exact ⟨⟨.slnil, .nil⟩, ⟨.slnil, .nil⟩⟩
  | @cons _ _ _ _ e es h hrest ih =>
    cases es with
    | nil =>
      cases hrest
      rw [append_nil, append_nil]
      exact h Level.test
    | cons e' es =>
      exact ⟨(h _).1.append (ih.1.sign _), (h _).2.append (ih.2.sign _)⟩

/-- A call carries what its parts do. -/
theorem Carries.call (h : e.Carries texts ops) (hes : AllCarry texts' ops' es) :
    (Expr.call e es []).Carries (texts ++ texts') (ops ++ ops') := fun _ =>
  ⟨(h _).1.append ((hes.piecesAll.1.sign_right _).sign _),
    (h _).1.append ((hes.piecesAll.2.sign_right _).sign _)⟩

theorem Carries.converted (h : e.Carries texts ops) (id : String) :
    (Expr.call (.name id) [e] []).Carries texts ops := by
  have hcall := (carries_name id).nil.call (.cons h .nil)
  simpa using hcall

end Expr

/-! ## Instructions -/

/-- The text literal of an instruction, as a listing shows it. -/
def Instr.literal? : Instr → Option String
  | .text literal => some literal.shown
  | _ => none

/-- The connective of an instruction. -/
def Instr.connective? : Instr → Option LogicOp
  | .op .logicAnd => some .and
  | .op .logicOr => some .or
  | _ => none

namespace Stack

variable {l r : Expr} {op : Operator} {stack' : Stack} {c : ReadingContext}

/-- The operands on a stack carry texts and connectives, from the outermost on. -/
inductive Carries : List String → List LogicOp → Stack → Prop
  | nil : Carries [] [] []
  | marker {texts : List String} {ops : List LogicOp} {stack : Stack}
      (h : Carries texts ops stack) : Carries texts ops (none :: stack)
  | push {texts texts' : List String} {ops ops' : List LogicOp} {stack : Stack} {e : Expr}
      (h : Carries texts ops stack) (he : e.Carries texts' ops') :
      Carries (texts ++ texts') (ops ++ ops') (some e :: stack)

variable {texts texts' : List String} {ops ops' : List LogicOp} {stack rest : Stack} {e : Expr}

theorem Carries.pushNothing (h : Carries texts ops stack) (he : e.Carries [] []) :
    Carries texts ops (some e :: stack) := by
  simpa using h.push he

theorem Carries.single (h : Carries texts ops [some e]) : e.Carries texts ops := by
  cases h with
  | push hrest he =>
    cases hrest
    exact he

/-- What a stack carries is carried by its top and by the rest. -/
def Splits (texts : List String) (ops : List LogicOp) (e : Expr) (rest : Stack) : Prop :=
  ∃ texts₁ texts₂ ops₁ ops₂, texts = texts₁ ++ texts₂ ∧ ops = ops₁ ++ ops₂ ∧
    Carries texts₁ ops₁ rest ∧ e.Carries texts₂ ops₂

section

variable (h : Carries texts ops stack)
include h

theorem Carries.pop (hpop : stack.pop = .ok (e, rest)) : Splits texts ops e rest := by
  cases h with
  | nil | marker h => cases hpop
  | push h he =>
    cases hpop
    exact ⟨_, _, _, _, rfl, rfl, h, he⟩

theorem Carries.popOr {missing : Expr} (hmissing : missing.Carries [] [])
    (hpop : stack.popOr missing = .ok (e, rest)) : Splits texts ops e rest := by
  cases h with
  | nil =>
    cases hpop
    exact ⟨[], [], [], [], rfl, rfl, .nil, hmissing⟩
  | marker h => cases hpop
  | push h he =>
    cases hpop
    exact ⟨_, _, _, _, rfl, rfl, h, he⟩

/-- Indexes that are popped carry their share. -/
theorem Carries.popIndexes {taken out : List Expr}
    (htaken : Expr.AllCarry texts' ops' taken) (hpop : stack.popIndexes taken = .ok (out, rest)) :
    ∃ texts₁ texts₂ ops₁ ops₂, texts ++ texts' = texts₁ ++ texts₂ ∧ ops ++ ops' = ops₁ ++ ops₂ ∧
      Carries texts₁ ops₁ rest ∧ Expr.AllCarry texts₂ ops₂ out := by
  induction h generalizing texts' ops' taken with
  | nil => cases hpop
  | marker h =>
    cases hpop
    exact ⟨_, _, _, _, rfl, rfl, h, htaken⟩
  | push h he ih =>
    obtain ⟨texts₁, texts₂, ops₁, ops₂, htexts, hops, hrest, hout⟩ := ih (.cons he htaken) hpop
    rw [← append_assoc] at htexts hops
    exact ⟨texts₁, texts₂, ops₁, ops₂, htexts, hops, hrest, hout⟩

end

/-- What is joined carries both operands and its connective. -/
theorem carries_joined (op : Operator) {texts₁ texts₂ : List String} {ops₁ ops₂ : List LogicOp}
    (hl : l.Carries texts₁ ops₁) (hr : r.Carries texts₂ ops₂) :
    (joined op l r).Carries (texts₁ ++ texts₂)
      (ops₁ ++ ops₂ ++ (Instr.op op).connective?.toList) := by
  cases op <;> first
    | exact hl.logic hr _
    | (simp only [Instr.connective?, Option.toList_none, append_nil]
       first
        | exact hl.binary hr _
        | exact hl.compare hr _)

section

variable (h : Carries texts ops stack)
include h

theorem Carries.joined {rest₁ rest₂ : Stack}
    (hr : stack.popOr Dialect.listing.missing = .ok (r, rest₁))
    (hl : rest₁.popOr Dialect.listing.missing = .ok (l, rest₂)) :
    Carries texts (ops ++ (Instr.op op).connective?.toList)
      (some (NovelScript.joined op l r) :: rest₂) := by
  have hmissing : Dialect.listing.missing.Carries [] [] := (Expr.carries_name "").nil
  obtain ⟨_, _, _, _, rfl, rfl, hrest₁, hr⟩ := h.popOr hmissing hr
  obtain ⟨_, _, _, _, rfl, rfl, hrest₂, hl⟩ := hrest₁.popOr hmissing hl
  have hpush := hrest₂.push (carries_joined op hl hr)
  simpa only [append_assoc] using hpush

theorem Carries.replace (hpop : stack.pop = .ok (e, rest))
    {e' : Expr} (he : ∀ {texts ops}, e.Carries texts ops → e'.Carries texts ops) :
    Carries texts ops (some e' :: rest) := by
  obtain ⟨_, _, _, _, rfl, rfl, hrest, hcarries⟩ := h.pop hpop
  exact hrest.push (he hcarries)

theorem Carries.indexEnd {base : Expr} {indexes : List Expr}
    (hpop : stack.popIndexes [] = .ok (base :: indexes, rest)) :
    Carries texts ops (some (.call base indexes []) :: rest) := by
  obtain ⟨_, _, _, _, htexts, hops, hrest, hall⟩ := h.popIndexes .nil hpop
  rw [append_nil] at htexts hops
  cases hall with
  | cons hbase hindexes =>
    rw [htexts, hops]
    exact hrest.push (hbase.call hindexes)

/-- An operator adds its connective. -/
theorem Carries.apply (happly : stack.apply Dialect.listing op = .ok stack') :
    Carries texts (ops ++ (Instr.op op).connective?.toList) stack' := by
  have hnone : Carries texts (ops ++ []) stack := by rwa [append_nil]
  unfold Stack.apply at happly
  split at happly
  · cases happly
    exact hnone
  · obtain ⟨⟨taken, rest⟩, hpop, happly⟩ := of_bind happly
    dsimp only at happly
    split at happly
    · cases happly
      exact hnone.indexEnd hpop
    · cases happly
  · obtain ⟨⟨e, rest⟩, hpop, happly⟩ := of_bind happly
    cases happly
    exact hnone.replace hpop fun he => he.converted "@"
  · obtain ⟨⟨e, rest⟩, hpop, happly⟩ := of_bind happly
    cases happly
    exact hnone.replace hpop fun he => he.converted "$"
  · obtain ⟨⟨e, rest⟩, hpop, happly⟩ := of_bind happly
    cases happly
    exact hnone.replace hpop fun he => he.unary .minus
  · obtain ⟨⟨r, rest₁⟩, hr, happly⟩ := of_bind happly
    obtain ⟨⟨l, rest₂⟩, hl, happly⟩ := of_bind happly
    cases happly
    exact h.joined hr hl

end

theorem carries_reference {mark : Mark} {index : Int}
    (h : c.reference Dialect.listing mark index = .ok e) : e.Carries [] [] := by
  obtain ⟨⟨name, type⟩, -, h⟩ := of_bind h
  obtain ⟨_, -, h⟩ := of_bind h
  cases h
  exact (Expr.carries_name _).nil

/-- An instruction adds its literal and its connective. -/
theorem Carries.step {i : Instr} (h : Carries texts ops stack)
    (hstep : stack.step c Dialect.listing i = .ok stack') :
    Carries (texts ++ i.literal?.toList) (ops ++ i.connective?.toList) stack' := by
  -- Most instructions add neither a literal nor a connective.
  have hsame : Carries (texts ++ []) (ops ++ []) stack := by rwa [append_nil, append_nil]
  cases i with
  | raw => cases hstep
  | text literal =>
    cases hstep
    exact h.push (Expr.carries_name _)
  | int | float =>
    cases hstep
    exact hsame.pushNothing (Expr.carries_const _)
  | access kind mark index =>
    cases kind with
    | value =>
      obtain ⟨e, he, hstep⟩ := of_bind hstep
      cases hstep
      exact hsame.pushNothing (carries_reference he)
    | array =>
      obtain ⟨e, he, hstep⟩ := of_bind hstep
      cases hstep
      exact hsame.pushNothing ((carries_reference he).call .nil)
    | element =>
      obtain ⟨e, he, hstep⟩ := of_bind hstep
      cases hstep
      exact hsame.marker.pushNothing (carries_reference he)
  | op o =>
    have happly : Carries (texts ++ []) (ops ++ (Instr.op o).connective?.toList) stack' := by
      rw [append_nil]
      exact h.apply hstep
    exact happly

/-- Code adds its literals and connectives in order. -/
theorem Carries.run {code : List Instr} (h : Carries texts ops stack)
    (hrun : code.foldlM (Stack.step c Dialect.listing) stack = .ok stack') :
    Carries (texts ++ code.filterMap Instr.literal?) (ops ++ code.filterMap Instr.connective?)
      stack' := by
  induction code generalizing texts ops stack with
  | nil =>
    cases hrun
    simpa using h
  | cons i code ih =>
    obtain ⟨stack₁, hstep, hrest⟩ := of_bind hrun
    have hcarries := ih (h.step hstep) hrest
    cases hliteral : i.literal? <;> cases hconnective : i.connective? <;>
      simpa [hliteral, hconnective, filterMap_cons] using hcarries

end Stack

/-- The expression of code carries its literals and connectives. -/
theorem carries_of_decompileExpr {c : ReadingContext} {code : List Instr} {e : Expr}
    (h : decompileExpr c Dialect.listing code = .ok e) :
    e.Carries (code.filterMap Instr.literal?) (code.filterMap Instr.connective?) := by
  obtain ⟨stack, hrun, h⟩ := of_bind h
  have hcarries := Stack.Carries.nil.run hrun
  split at h
  · cases h
    exact hcarries.single
  · cases h

end NovelScript
