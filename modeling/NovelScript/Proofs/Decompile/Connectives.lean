import NovelScript.Proofs.Decompile.Pieces
import NovelScript.Proofs.Replace

/-!
# Connectives in listings

A listing is printed with the connectives of the source language, and these are replaced in the
finished text. A text is a phrase: words, with a blank or a connective between any two. Replacing
leaves the words of operands alone if and only if none of them stands between blanks and is the word
of a connective, unless it comes right after that connective (`engineConnectives_eq_iff`).
-/

namespace NovelScript

open List

/-- The sign of a connective in listings. -/
def LogicOp.engineSymbol : LogicOp → String
  | and => "&&"
  | or => "||"

/-! ## Phrases -/

/-- Words with a blank or a connective between any two. -/
structure Phrase where
  first : List Char := []
  /-- The other words, each with the connective before it, if it is not only a blank. -/
  rest : List (Option LogicOp × List Char) := []
  deriving DecidableEq

namespace Phrase

variable {p : Phrase} (word : LogicOp → String) (rest : List (Option LogicOp × List Char))
  {α : Type}

/-- A character before a phrase. -/
def addChar (c : Char) (p : Phrase) : Phrase :=
  if c = ' ' then ⟨[], (none, p.first) :: p.rest⟩ else ⟨c :: p.first, p.rest⟩

/-- A text before a phrase. -/
def addText (text : List Char) (p : Phrase) : Phrase := text.foldr addChar p

/-- A piece before a phrase. -/
def addPiece (x : Piece) (p : Phrase) : Phrase :=
  match x with
  | .operand text | .sign text => p.addText text.toList
  | .connective op => ⟨[], (some op, p.first) :: p.rest⟩

/-- Pieces before a phrase. -/
def addPieces (xs : List Piece) (p : Phrase) : Phrase := xs.foldr addPiece p

/-- The words after the first one, and those of the connectives. -/
def tokens (word : LogicOp → String) (rest : List (Option LogicOp × List Char)) :
    List (List Char) :=
  rest.flatMap fun x => (x.1.map fun op => (word op).toList).toList ++ [x.2]

/-- The text of a phrase, with words for the connectives. -/
def text (word : LogicOp → String) (p : Phrase) : List Char :=
  p.first ++ spaced (tokens word p.rest)

/-- No word between blanks is that of a connective, unless it comes right after that connective. -/
def Survives (p : Phrase) : Prop :=
  ∀ op : LogicOp, ∀ x ∈ p.rest.dropLast, x.2 = op.symbol.toList → x.1 = some op

theorem text_addChar (c : Char) (p : Phrase) : (p.addChar c).text word = c :: p.text word := by
  unfold addChar
  split
  · next hc => simp [text, tokens, hc]
  · rfl

theorem text_addText (cs : List Char) (p : Phrase) :
    (p.addText cs).text word = cs ++ p.text word := by
  induction cs with
  | nil => rfl
  | cons c cs ih => rw [addText, foldr_cons, text_addChar, ← addText, ih, cons_append]

/-- A phrase of pieces is written as they are. -/
theorem text_addPieces (xs : List Piece) (p : Phrase) :
    (p.addPieces xs).text word = spelled word xs ++ p.text word := by
  induction xs with
  | nil => rfl
  | cons x xs ih =>
    rw [addPieces, foldr_cons, ← addPieces, spelled_cons, append_assoc, ← ih]
    cases x with
    | operand text | sign text => exact text_addText ..
    | connective op => simp [addPiece, text, tokens, Piece.chars]

/-- The words of a phrase have no blanks. -/
structure IsBroken (p : Phrase) : Prop where
  first : ' ' ∉ p.first
  rest : ∀ x ∈ p.rest, ' ' ∉ x.2

theorem IsBroken.addText (h : p.IsBroken) (cs : List Char) : (p.addText cs).IsBroken := by
  induction cs with
  | nil => exact h
  | cons c cs ih =>
    rw [Phrase.addText, foldr_cons, ← Phrase.addText, addChar]
    split
    · exact ⟨by simp, forall_mem_cons.mpr ⟨ih.first, ih.rest⟩⟩
    · next hc => exact ⟨by simp [ih.first, Ne.symm hc], ih.rest⟩

theorem IsBroken.addPieces (h : p.IsBroken) (xs : List Piece) : (p.addPieces xs).IsBroken := by
  induction xs with
  | nil => exact h
  | cons x xs ih =>
    cases x with
    | operand text | sign text => exact ih.addText _
    | connective op => exact ⟨by simp [Phrase.addPieces, addPiece],
        forall_mem_cons.mpr ⟨ih.first, ih.rest⟩⟩

/-! ## Replacing one connective -/

theorem tokens_cons_ne_nil (x : Option LogicOp × List Char)
    (rest : List (Option LogicOp × List Char)) : tokens word (x :: rest) ≠ [] := by
  simp [tokens]

@[simp] theorem tokens_none_cons (w : List Char) (rest : List (Option LogicOp × List Char)) :
    tokens word ((none, w) :: rest) = w :: tokens word rest := rfl

@[simp] theorem tokens_some_cons (op : LogicOp) (w : List Char)
    (rest : List (Option LogicOp × List Char)) :
    tokens word ((some op, w) :: rest) = (word op).toList :: w :: tokens word rest := rfl

/-- Replacing the word of a connective changes just that connective if and only if no other word
between blanks is the same, unless the blank before it belongs to that connective. -/
theorem map_respell_tokens {f : List Char → α} {word word' : LogicOp → String} {op : LogicOp}
    (hf : f (word op).toList ≠ f (word' op).toList) (hsame : ∀ o, o ≠ op → word' o = word o)
    (hother : ∀ o, o ≠ op → (word o).toList ≠ (word op).toList) :
    ∀ rest, (respell (word op).toList (word' op).toList false (tokens word rest)).map f =
        (tokens word' rest).map f ↔
      ∀ x ∈ rest.dropLast, x.2 = (word op).toList → x.1 = some op
  | [] => by simp [tokens, respell]
  | (connective, w) :: rest => by
    -- the word of another connective is passed
    have hpass (o : LogicOp) (ho : o ≠ op) (words : List (List Char)) (hwords : words ≠ []) :
        respell (word op).toList (word' op).toList false ((word o).toList :: words) =
          (word o).toList :: respell (word op).toList (word' op).toList false words := by
      rw [respell_cons _ hwords, if_neg (hother o ho)]
    cases rest with
    | nil =>
      refine iff_of_true ?_ (by simp)
      cases connective with
      | none => rfl
      | some o =>
        by_cases ho : o = op
        · simp [ho, tokens, respell]
        · rw [tokens_some_cons, hpass o ho _ (cons_ne_nil _ _), tokens_some_cons, hsame o ho]
          rfl
    | cons y rest =>
      have ih := map_respell_tokens hf hsame hother (y :: rest)
      have hne := tokens_cons_ne_nil word y rest
      -- the word itself stands between blanks
      have hword : (respell (word op).toList (word' op).toList false
          (w :: tokens word (y :: rest))).map f = (w :: tokens word' (y :: rest)).map f ↔
          w ≠ (word op).toList ∧
            ∀ x ∈ (y :: rest).dropLast, x.2 = (word op).toList → x.1 = some op := by
        rw [respell_cons w hne]
        by_cases hw : w = (word op).toList
        · rw [if_pos hw]
          simp [hw, hf.symm]
        · rw [if_neg hw, map_cons, map_cons, List.cons.injEq, ih]
          simp [hw]
      rw [dropLast_cons_of_ne_nil (cons_ne_nil y rest), forall_mem_cons]
      cases connective with
      | none =>
        rw [tokens_none_cons, tokens_none_cons, hword]
        simp
      | some o =>
        rw [tokens_some_cons, tokens_some_cons]
        by_cases ho : o = op
        · rw [ho, respell_cons _ (cons_ne_nil _ _), if_pos rfl, respell_true_cons]
          simp only [map_cons, List.cons.injEq, true_and, implies_true]
          exact ih
        · rw [hpass o ho _ (cons_ne_nil _ _), hsame o ho, map_cons, map_cons,
            List.cons.injEq, hword]
          simp [ho]

/-! ## Replacing both connectives -/

/-- The connectives when only the first has been replaced. -/
def halfReplaced : LogicOp → String
  | .and => "&&"
  | .or => "or"

/-- The first replacement is right exactly if no other word is the one it looks for. -/
theorem respell_and_iff {f : List Char → α} (hf : f "and".toList ≠ f "&&".toList)
    (rest : List (Option LogicOp × List Char)) :
    (respell "and".toList "&&".toList false (tokens LogicOp.symbol rest)).map f =
        (tokens halfReplaced rest).map f ↔
      ∀ x ∈ rest.dropLast, x.2 = LogicOp.and.symbol.toList → x.1 = some .and :=
  @map_respell_tokens _ f LogicOp.symbol halfReplaced .and hf
    (fun o ho => by cases o <;> first | rfl | exact absurd rfl ho)
    (fun o ho => by cases o <;> first | decide | exact absurd rfl ho) rest

theorem respell_or_iff :
    respell "or".toList "||".toList false (tokens halfReplaced rest) =
        tokens LogicOp.engineSymbol rest ↔
      ∀ x ∈ rest.dropLast, x.2 = LogicOp.or.symbol.toList → x.1 = some .or := by
  have h := @map_respell_tokens _ id halfReplaced LogicOp.engineSymbol .or (by decide)
    (fun o ho => by cases o <;> first | rfl | exact absurd rfl ho)
    (fun o ho => by cases o <;> first | decide | exact absurd rfl ho) rest
  rwa [map_id, map_id] at h

theorem map_tokens_congr {f : List Char → α} {word word' : LogicOp → String}
    (h : ∀ op, f (word op).toList = f (word' op).toList)
    (rest : List (Option LogicOp × List Char)) :
    (tokens word rest).map f = (tokens word' rest).map f := by
  induction rest with
  | nil => rfl
  | cons x rest ih =>
    obtain ⟨connective, w⟩ := x
    cases connective with
    | none => simp [ih]
    | some op => simp [ih, h op]

/-- Replacing both gives the connectives of the engine if and only if each replaces just its
connective: what the first spoils is not mended by the second. -/
theorem respell_eq_iff :
    respell "or".toList "||".toList false
        (respell "and".toList "&&".toList false (tokens LogicOp.symbol rest)) =
      tokens LogicOp.engineSymbol rest ↔
    ∀ op : LogicOp, ∀ x ∈ rest.dropLast, x.2 = op.symbol.toList → x.1 = some op := by
  have hfirst (h : ∀ x ∈ rest.dropLast, x.2 = LogicOp.and.symbol.toList → x.1 = some .and) :
      respell "and".toList "&&".toList false (tokens LogicOp.symbol rest) =
        tokens halfReplaced rest := by
    have hsame := (respell_and_iff (f := id) (by decide) rest).mpr h
    rwa [map_id, map_id] at hsame
  constructor
  · intro h
    -- seen without the second connective, the first pass is right
    let unseen (w : List Char) : List Char := if w = "or".toList then "||".toList else w
    have hunseen : unseen "or".toList = unseen "||".toList := by decide
    have hhalf : (tokens LogicOp.engineSymbol rest).map unseen =
        (tokens halfReplaced rest).map unseen :=
      map_tokens_congr (fun op => by cases op <;> decide) rest
    have hseen := congrArg (List.map unseen) h
    rw [map_respell hunseen, hhalf] at hseen
    have hand := (respell_and_iff (f := unseen) (by decide) rest).mp hseen
    rw [hfirst hand] at h
    have hor := (respell_or_iff rest).mp h
    intro op
    cases op
    · exact hand
    · exact hor
  · intro h
    rw [hfirst (h .and)]
    exact (respell_or_iff rest).mpr (h .or)

theorem IsBroken.tokens (h : p.IsBroken) {word : LogicOp → String}
    (hword : ∀ op, ' ' ∉ (word op).toList) : ∀ w ∈ tokens word p.rest, ' ' ∉ w := by
  intro w hw
  obtain ⟨⟨connective, v⟩, hx, hw⟩ := mem_flatMap.mp hw
  rcases mem_append.mp hw with hw | hw
  · cases connective with
    | none => cases hw
    | some op =>
      rw [mem_singleton.mp hw]
      exact hword op
  · rw [mem_singleton.mp hw]
    exact h.rest _ hx

/-- Both replacements spell the signs exactly if the phrase survives them. -/
theorem IsBroken.replaceAll_eq_iff (h : p.IsBroken) :
    replaceAll " or ".toList " || ".toList 0
        (replaceAll " and ".toList " && ".toList 0 (p.text LogicOp.symbol)) =
      p.text LogicOp.engineSymbol ↔ p.Survives := by
  have hsymbols : ∀ w ∈ Phrase.tokens LogicOp.symbol p.rest, ' ' ∉ w :=
    h.tokens fun op => by cases op <;> decide
  have hengine : ∀ w ∈ Phrase.tokens LogicOp.engineSymbol p.rest, ' ' ∉ w :=
    h.tokens fun op => by cases op <;> decide
  show replaceAll (' ' :: ("or".toList ++ [' '])) (' ' :: ("||".toList ++ [' '])) 0
    (replaceAll (' ' :: ("and".toList ++ [' '])) (' ' :: ("&&".toList ++ [' '])) 0
      (p.first ++ spaced _)) = p.first ++ spaced _ ↔ _
  rw [replaceAll_words (by decide) h.first hsymbols,
    replaceAll_words (by decide) h.first (forall_mem_respell (by decide) hsymbols),
    append_spaced_inj h.first h.first
      (forall_mem_respell (by decide) (forall_mem_respell (by decide) hsymbols)) hengine,
    and_iff_right rfl, respell_eq_iff]
  rfl

end Phrase

/-- The connectives of a text are replaced rightly if and only if its other words survive. -/
theorem engineConnectives_eq_iff (pieces : List Piece) :
    engineConnectives (String.ofList (spelled LogicOp.symbol pieces)) =
        String.ofList (spelled LogicOp.engineSymbol pieces) ↔
      (({} : Phrase).addPieces pieces).Survives := by
  have hbroken : (({} : Phrase).addPieces pieces).IsBroken :=
    Phrase.IsBroken.addPieces ⟨by simp, by simp⟩ pieces
  have htext (word : LogicOp → String) :
      (({} : Phrase).addPieces pieces).text word = spelled word pieces := by
    rw [Phrase.text_addPieces]
    exact append_nil _
  rw [← hbroken.replaceAll_eq_iff, htext, htext, ← String.ofList_inj]
  unfold engineConnectives
  simp only [String.toList_ofList]

end NovelScript
