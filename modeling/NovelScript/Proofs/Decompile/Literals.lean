import NovelScript.Proofs.Decompile.Connectives

/-!
# Literals in listings

Replacing the connectives in the printed text of an expression changes a text literal that has the
word of a connective between blanks, and nothing but the connectives if no operand has such a word
(`exprText_of_decompileExpr`).
-/

namespace NovelScript

open List

variable {w : List Char} {xs : List Piece}

namespace Phrase

/-! ## Words -/

theorem words_addText (cs : List Char) :
    (({} : Phrase).addText cs).first :: (({} : Phrase).addText cs).rest.map (·.2) =
      cs.splitOn ' ' := by
  induction cs with
  | nil => rfl
  | cons c cs ih =>
    rw [splitOn_eq_splitOnP, splitOnP_cons_eq_if_modifyHead, ← splitOn_eq_splitOnP,
      ← ih, addText, foldr_cons, ← addText, addChar]
    by_cases hc : c = ' '
    · simp [hc]
    · simp [hc]

theorem addPieces_append_cons (xs : List Piece) (x : Piece) (ys : List Piece) (p : Phrase) :
    p.addPieces (xs ++ x :: ys) = ((p.addPieces ys).addPiece x).addPieces xs := by
  rw [addPieces, foldr_append]
  rfl

/-- What holds of the words of a text before a phrase. Its last word and the first of the phrase
become one. -/
theorem forall_addText {P F : List Char → Prop} {p : Phrase} (hp : ∀ x ∈ p.rest, P x.2)
    (cs : List Char) (hrest : ∀ x ∈ (({} : Phrase).addText cs).rest, P x.2 ∧ P (x.2 ++ p.first))
    (hlast : (({} : Phrase).addText cs).rest = [] → F ((({} : Phrase).addText cs).first ++ p.first))
    (hfirst : (({} : Phrase).addText cs).rest ≠ [] → F (({} : Phrase).addText cs).first) :
    F (p.addText cs).first ∧ ∀ x ∈ (p.addText cs).rest, P x.2 := by
  induction cs generalizing F with
  | nil => exact ⟨hlast rfl, hp⟩
  | cons c cs ih =>
    rw [addText, foldr_cons, ← addText] at hrest hlast hfirst ⊢
    unfold addChar at hrest hlast hfirst ⊢
    by_cases hc : c = ' '
    · simp only [if_pos hc] at hrest hlast hfirst ⊢
      obtain ⟨hword, hrest⟩ := forall_mem_cons.mp hrest
      have hwords := ih hrest (fun _ => hword.2) fun _ => hword.1
      exact ⟨hfirst (cons_ne_nil _ _), forall_mem_cons.mpr hwords⟩
    · simp only [if_neg hc] at hrest hlast hfirst ⊢
      exact @ih (fun w => F (c :: w)) hrest hlast hfirst

end Phrase

/-- A word has a character that the words of the connectives do not have. -/
def IsMarked (w : List Char) : Prop := (w.any fun c => !"andor".toList.contains c) = true

instance (w : List Char) : Decidable (IsMarked w) := inferInstanceAs (Decidable (_ = true))

/-- A word is not that of a connective. -/
def IsOrdinary (w : List Char) : Prop := ∀ op : LogicOp, w ≠ op.symbol.toList

theorem isOrdinary_nil : IsOrdinary [] := fun op => by cases op <;> decide

/-- A word with a mark in it is no connective. -/
theorem IsMarked.isOrdinary (h : IsMarked w) : IsOrdinary w := by
  rintro op rfl
  revert h
  cases op <;> decide

theorem IsMarked.append_left (h : IsMarked w) (v : List Char) : IsMarked (v ++ w) := by
  rw [IsMarked, any_append, h, Bool.or_true]

theorem IsMarked.append_right (h : IsMarked w) (v : List Char) : IsMarked (w ++ v) := by
  rw [IsMarked, any_append, h, Bool.true_or]

/-! ## Pieces with signs between -/

namespace Phrase

variable {p : Phrase} {cs : List Char}

/-- The first word of a phrase stays ordinary when a word before it becomes one with it. -/
def IsOpen (p : Phrase) : Prop := p.first = [] ∨ IsMarked p.first

/-- All words are ordinary. -/
structure AllOrdinary (p : Phrase) : Prop where
  first : IsOrdinary p.first
  rest : ∀ x ∈ p.rest, IsOrdinary x.2

/-- Ordinary words survive both replacements. -/
theorem AllOrdinary.survives (h : p.AllOrdinary) : p.Survives :=
  fun op x hx hsame => absurd hsame (h.rest x ((dropLast_sublist _).subset hx) op)

/-- A sign between operands has a character of its own wherever it touches one. -/
def Divides (p : Phrase) : Prop :=
  (∀ x ∈ p.rest, x.2 = [] ∨ IsMarked x.2) ∧ (p.first = [] ∧ p.rest ≠ [] ∨ IsMarked p.first)

instance (p : Phrase) : Decidable p.Divides := inferInstanceAs (Decidable (_ ∧ _))

theorem AllOrdinary.addOperand (h : p.AllOrdinary) (hopen : p.IsOpen)
    (hcs : ∀ w ∈ cs.splitOn ' ', IsOrdinary w) : (p.addText cs).AllOrdinary := by
  rw [← words_addText] at hcs
  obtain ⟨hfirst, hrest⟩ := forall_mem_cons.mp hcs
  have hjoined {w : List Char} (hw : IsOrdinary w) : IsOrdinary (w ++ p.first) := by
    rcases hopen with hnil | hmarked
    · rwa [hnil, append_nil]
    · exact (hmarked.append_left w).isOrdinary
  have hwords := forall_addText (F := IsOrdinary) h.rest cs
    (fun x hx => have hx := hrest _ (mem_map_of_mem hx); ⟨hx, hjoined hx⟩)
    (fun _ => hjoined hfirst) fun _ => hfirst
  exact ⟨hwords.1, hwords.2⟩

theorem AllOrdinary.addSign (h : p.AllOrdinary) (hcs : (({} : Phrase).addText cs).Divides) :
    (p.addText cs).AllOrdinary ∧ (p.addText cs).IsOpen := by
  have hrest : ∀ x ∈ (({} : Phrase).addText cs).rest,
      IsOrdinary x.2 ∧ IsOrdinary (x.2 ++ p.first) := by
    intro x hx
    rcases hcs.1 x hx with hnil | hmarked
    · rw [hnil]
      exact ⟨isOrdinary_nil, h.first⟩
    · exact ⟨hmarked.isOrdinary, (hmarked.append_right _).isOrdinary⟩
  have hwords := forall_addText (F := fun w => w = [] ∨ IsMarked w) h.rest cs hrest
    (fun hnone => .inr ((hcs.2.resolve_left fun hfirst => hfirst.2 hnone).append_right _))
    fun _ => hcs.2.imp And.left id
  refine ⟨⟨?_, hwords.2⟩, hwords.1⟩
  rcases hwords.1 with hnil | hmarked
  · rw [hnil]
    exact isOrdinary_nil
  · exact hmarked.isOrdinary

end Phrase

/-- A piece divides the words beside it. -/
def Piece.Divides : Piece → Prop
  | operand _ => False
  | sign text => (({} : Phrase).addText text.toList).Divides
  | connective _ => True

instance : (x : Piece) → Decidable x.Divides
  | .operand _ => .isFalse id
  | .sign text => inferInstanceAs (Decidable (({} : Phrase).addText text.toList).Divides)
  | .connective _ => .isTrue trivial

/-- Between any two operands there is a sign or a connective. -/
inductive Divided : List Piece → Prop
  | nil : Divided []
  | operand (text : String) : Divided [.operand text]
  | join {xs ys : List Piece} {x : Piece} (hxs : Divided xs) (hx : x.Divides) (hys : Divided ys) :
      Divided (xs ++ x :: ys)

section

variable (h : Divided xs)
include h

/-- Divided operands with ordinary words make an ordinary phrase. -/
theorem Divided.ordinary (hxs : ∀ t ∈ operandsIn xs, ∀ w ∈ t.toList.splitOn ' ', IsOrdinary w)
    {p : Phrase} (hp : p.AllOrdinary) (hopen : p.IsOpen) : (p.addPieces xs).AllOrdinary := by
  induction h generalizing p with
  | nil => exact hp
  | operand text => exact hp.addOperand hopen (hxs text mem_cons_self)
  | @join xs ys x _ hx _ ihxs ihys =>
    rw [operandsIn, filterMap_append, forall_mem_append] at hxs
    have hys : (p.addPieces ys).AllOrdinary :=
      ihys (fun t ht => hxs.2 t (((sublist_cons_self x ys).filterMap _).subset ht)) hp hopen
    have hpiece : ((p.addPieces ys).addPiece x).AllOrdinary ∧
        ((p.addPieces ys).addPiece x).IsOpen := by
      cases x with
      | operand text => exact hx.elim
      | sign text => exact hys.addSign hx
      | connective op =>
        exact ⟨⟨isOrdinary_nil, forall_mem_cons.mpr ⟨hys.first, hys.rest⟩⟩, .inl rfl⟩
    rw [Phrase.addPieces_append_cons]
    exact ihxs hxs.1 hpiece.1 hpiece.2

theorem Divided.sign {text : String} (htext : (Piece.sign text).Divides) :
    Divided (.sign text :: xs) := .join .nil htext h

theorem Divided.closed : Divided (xs ++ [.sign ")"]) :=
  .join h (by decide) .nil

theorem Divided.bracketPieces (asked own : Level) : Divided (bracketPieces asked own xs) := by
  unfold NovelScript.bracketPieces
  split
  · exact h.closed.sign (by decide)
  · exact h

end

mutual

/-- The operands of an expression are divided. -/
theorem divided_pieces (asked : Level) : ∀ e : Expr, Divided (e.pieces asked)
  | .call function arguments [] =>
    .join (divided_pieces Level.atom function) (by decide) (divided_piecesAll arguments).closed
  | .unary op operand => by
    refine Divided.bracketPieces ?_ _ _
    exact (divided_pieces _ operand).sign (by cases op <;> decide)
  | .binary left op right | .compare left [(op, right)] => by
    refine Divided.bracketPieces ?_ _ _
    exact .join (divided_pieces _ left) (by cases op <;> decide)
      (divided_pieces _ right)
  | .logic op [left, right] => by
    refine Divided.bracketPieces ?_ _ _
    exact .join (divided_pieces _ left) trivial (divided_pieces _ right)
  | .const _ | .name _ | .attribute _ _ | .call _ _ (_ :: _) | .subscript _ _ | .compare _ []
  | .compare _ (_ :: _ :: _) | .logic _ [] | .logic _ [_] | .logic _ (_ :: _ :: _ :: _)
  | .conditional _ _ _ | .lambda _ | .tuple _ | .list _ | .set _ | .mapping _ | .yield _ => by
    simp only [Expr.pieces]
    exact .operand _

theorem divided_piecesAll : ∀ es : List Expr, Divided (piecesAll es)
  | [] => .nil
  | [e] => divided_pieces _ e
  | e :: e' :: rest =>
    .join (divided_pieces _ e) (by decide) (divided_piecesAll (e' :: rest))

end

/-! ## Words inside literals -/

namespace Phrase

variable {w : List Char}

theorem rest_addChar (c : Char) (p : Phrase) : p.rest <:+ (p.addChar c).rest := by
  unfold addChar
  split
  · exact suffix_cons _ _
  · exact suffix_refl _

theorem rest_addText (cs : List Char) (p : Phrase) : p.rest <:+ (p.addText cs).rest := by
  induction cs with
  | nil => exact suffix_refl _
  | cons c cs ih => exact ih.trans (rest_addChar c _)

theorem rest_addPieces (xs : List Piece) (p : Phrase) : p.rest <:+ (p.addPieces xs).rest := by
  induction xs with
  | nil => exact suffix_refl _
  | cons x xs ih =>
    refine ih.trans ?_
    cases x with
    | operand text | sign text => exact rest_addText _ _
    | connective op => exact suffix_cons _ _

theorem addText_of_notMem (hw : ' ' ∉ w) (p : Phrase) : p.addText w = ⟨w ++ p.first, p.rest⟩ := by
  induction w with
  | nil => rfl
  | cons c w ih =>
    rw [mem_cons, not_or] at hw
    rw [addText, foldr_cons, ← addText, ih hw.2, addChar, if_neg (Ne.symm hw.1)]
    rfl

theorem mem_rest_addText (hw : ' ' ∉ w) (u v : List Char) (p : Phrase) :
    ∃ y rest, (none, w) :: y :: rest <:+ (p.addText (u ++ ' ' :: (w ++ ' ' :: v))).rest := by
  have hsplit : p.addText (u ++ ' ' :: (w ++ ' ' :: v)) =
      ((((p.addText v).addChar ' ').addText w).addChar ' ').addText u := by
    simp [addText]
  have hword : (((p.addText v).addChar ' ').addText w).addChar ' ' =
      ⟨[], (none, w) :: (none, (p.addText v).first) :: (p.addText v).rest⟩ := by
    simp [addText_of_notMem hw, addChar]
  rw [hsplit, hword]
  exact ⟨(none, (p.addText v).first), (p.addText v).rest, rest_addText u ⟨[], _⟩⟩

end Phrase

/-- A connective inside an operand is replaced. -/
theorem not_survives_of_operand {t : String} (ht : t ∈ operandsIn xs) {op : LogicOp}
    {u v : List Char} (hword : t.toList = u ++ ' ' :: (op.symbol.toList ++ ' ' :: v)) (p : Phrase) :
    ¬(p.addPieces xs).Survives := by
  obtain ⟨x, hx, hxt⟩ := mem_filterMap.mp ht
  obtain ⟨before, after, rfl⟩ := append_of_mem hx
  cases x with
  | sign | connective => cases hxt
  | operand text =>
    cases hxt
    obtain ⟨y, rest, hsuffix⟩ := Phrase.mem_rest_addText (w := op.symbol.toList)
      (by cases op <;> decide) u v (p.addPieces after)
    rw [← hword] at hsuffix
    have hrest : (none, op.symbol.toList) :: y :: rest <:+
        (((p.addPieces after).addPiece (.operand t)).addPieces before).rest :=
      hsuffix.trans (Phrase.rest_addPieces before _)
    obtain ⟨front, hfront⟩ := hrest
    -- a word comes after it, so it is not the last one
    have hmem : (none, op.symbol.toList) ∈
        (p.addPieces (before ++ .operand t :: after)).rest.dropLast := by
      rw [Phrase.addPieces_append_cons, ← hfront, dropLast_append_of_ne_nil (by simp)]
      simp
    intro hsurvives
    cases hsurvives op _ hmem rfl

/-! ## Expressions -/

/-- The pieces that a listing prints for an expression, with the brackets it needs. -/
def Expr.printed (e : Expr) : List Piece := e.grouped.2.pieces Level.test

/-- For instructions that give an expression there is a text. The expression prints as pieces that
have the text literals of the instructions in their order, and the connectives of the instructions.
The text is these pieces with the connectives of the engine if and only if no word between blanks is
that of a connective. So it is if no operand has such a word, and it is not if a literal has one
between blanks. -/
theorem exprText_of_decompileExpr {d : Decompiler} {locals : Temporaries} {code : List Instr}
    {e : Expr} (h : decompileExpr (d.context locals) Dialect.listing code = .ok e) :
    ∃ text, d.exprText locals code = .ok text ∧
      e.grouped.2.source = String.ofList (spelled LogicOp.symbol e.printed) ∧
      (code.filterMap Instr.literal?).Sublist (operandsIn e.printed) ∧
      (connectivesIn e.printed).Perm (code.filterMap Instr.connective?) ∧
      (text = String.ofList (spelled LogicOp.engineSymbol e.printed) ↔
        (({} : Phrase).addPieces e.printed).Survives) ∧
      ((∀ t ∈ operandsIn e.printed, ∀ op : LogicOp, op.symbol.toList ∉ t.toList.splitOn ' ') →
        text = String.ofList (spelled LogicOp.engineSymbol e.printed)) ∧
      ∀ t ∈ code.filterMap Instr.literal?, ∀ (op : LogicOp) (u v : List Char),
        t.toList = u ++ ' ' :: (op.symbol.toList ++ ' ' :: v) →
          text ≠ String.ofList (spelled LogicOp.engineSymbol e.printed) := by
  have hcarries := (carries_of_decompileExpr h Level.test).2
  have hsource : e.grouped.2.source = String.ofList (spelled LogicOp.symbol e.printed) := by
    rw [Expr.printed, spelled_pieces, String.ofList_toList]
    rfl
  have hiff := engineConnectives_eq_iff e.printed
  rw [← hsource] at hiff
  refine ⟨e.engineSource, ?_, hsource, hcarries.texts, hcarries.ops, hiff, ?_, ?_⟩
  · rw [Decompiler.exprText, h]
    rfl
  · intro hwords
    -- No operand has a connective among its words, and signs divide the operands.
    have hordinary : (({} : Phrase).addPieces e.printed).AllOrdinary := by
      refine (divided_pieces _ _).ordinary (fun t ht w hw op hsame => hwords t ht op ?_)
        ⟨isOrdinary_nil, by simp⟩ (.inl rfl)
      rwa [← hsame]
    exact hiff.mpr hordinary.survives
  · intro t ht op u v hword hsame
    exact not_survives_of_operand (hcarries.texts.subset ht) hword {} (hiff.mp hsame)

/-- Two literals that have blanks, with a connective between. -/
def twoLiterals : List Instr :=
  [.text (.ofString "\"to rock\""), .text (.ofString "\"to roll\""), .op .logicAnd]

theorem exprText_of_twoLiterals :
    decompileExpr ((default : Decompiler).context []) Dialect.listing twoLiterals =
        .ok (.logic .and [.name "\"to rock\"", .name "\"to roll\""]) ∧
      (default : Decompiler).exprText [] twoLiterals = .ok "\"to rock\" && \"to roll\"" := by
  have h : decompileExpr ((default : Decompiler).context []) Dialect.listing twoLiterals =
      .ok (.logic .and [.name "\"to rock\"", .name "\"to roll\""]) := rfl
  obtain ⟨text, htext, -, -, -, -, hwords, -⟩ := exprText_of_decompileExpr h
  refine ⟨h, ?_⟩
  rw [htext, hwords fun t ht op => by
    revert t
    cases op <;> decide]
  rfl

/-- A literal that has the word of a connective between blanks is changed. -/
theorem literal_changed :
    decompileExpr ((default : Decompiler).context []) Dialect.listing
        [.text (.ofString "\"rock and roll\"")] = .ok (.name "\"rock and roll\"") ∧
      (default : Decompiler).exprText [] [.text (.ofString "\"rock and roll\"")] =
        .ok "\"rock && roll\"" :=
  ⟨rfl, rfl⟩

end NovelScript
