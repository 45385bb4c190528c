import NovelScript.Instruction.Bytecode
import NovelScript.Proofs.Reading

/-!
# Reading back instructions

An instruction that was written is read back by the word it starts with: operators, accesses and
literals have words of their own, and no word of another kind ends in the mark of texts. Only a text
depends on the codec. `Instr.reread` says what becomes of an instruction that is written by one
codec and read by another, and `decodeAll_flatten` that a list of instructions is read back one by
one.
-/

namespace NovelScript

open List Bytes

variable {w : Nat} (o : Operator)

/-! ## Words -/

theorem Operator.ofWord?_word : Operator.ofWord? o.word = some o := by
  cases o <;> rfl

theorem Operator.word_lt : o.word < 256 ^ 3 := by cases o <;> decide

theorem Operator.ofWord?_eq_none (h : ∀ o : Operator, o.word ≠ w) : Operator.ofWord? w = none := by
  unfold Operator.ofWord?
  rw [List.find?_eq_none]
  intro o _
  simp [h o]

theorem Access.ofWord?_word (a : Access) : Access.ofWord? a.word = some a := by cases a <;> rfl

theorem Access.ofWord?_eq_none (h : ∀ a : Access, a.word ≠ w) : Access.ofWord? w = none := by
  unfold Access.ofWord?
  rw [List.find?_eq_none]
  intro a _
  simp [h a]

theorem Mark.ofCode?_code (m : Mark) : Mark.ofCode? m.code = some m := by cases m <;> rfl

theorem IntWidth.ofWord?_word (w : IntWidth) : IntWidth.ofWord? w.word = some w := by
  cases w <;> rfl

theorem Bytes.ofNat_succ (w b n : Nat) (h : b < 256) :
    Bytes.ofNat (w + 1) (b + 256 * n) = Bytes.ofNat 1 b ++ Bytes.ofNat w n := by
  have hmod : (b + 256 * n) % 256 = b % 256 := by omega
  have hdiv : (b + 256 * n) / 256 = n := by omega
  rw [Bytes.ofNat, hmod, hdiv]
  rfl

namespace Instr

open Reader

variable {codec codec' : Codec} {word : Nat} {bytes b : Bytes} {i : Instr} {f : Fault}
  {code : List Instr} {pieces : List Bytes}

/-! ## One instruction -/

/-- What an instruction that one codec writes is for another one that reads it. -/
def reread (codec codec' : Codec) : Instr → Except Fault Instr
  | .text literal => do
    return .text (.ofString (← codec'.decode (← codec.encodeWording literal)))
  | .raw bytes => do return .text (.ofString (← codec'.decode bytes))
  | i => .ok i

/-- An instruction is read by its first three bytes. -/
theorem takes_read (hword : word < 256 ^ 3) (h : Takes (readAfter codec word) bytes i) :
    Takes (read codec) (Bytes.ofNat 3 word ++ bytes) i := by
  have hunsigned := takes_unsigned (length_ofNat 3 word)
  rw [toNat_ofNat hword] at hunsigned
  exact takes_bind hunsigned h

theorem readAfter_literal (hop : ∀ o : Operator, o.word ≠ word)
    (haccess : ∀ a : Access, a.word ≠ word) : readAfter codec word = readLiteral codec word := by
  unfold readAfter
  rw [Operator.ofWord?_eq_none hop, Access.ofWord?_eq_none haccess]

theorem readAfter_text (n : Nat) :
    readAfter codec (textMark + 256 * n) =
      (do return .text (.ofString (← Reader.text codec n))) := by
  have hmod : (textMark + 256 * n) % 256 = textMark := by unfold textMark; omega
  have hdiv : (textMark + 256 * n) / 256 = n := by unfold textMark; omega
  rw [readAfter_literal, readLiteral, if_pos hmod, hdiv]
  · intro o
    cases o <;> simp only [Operator.word, textMark] <;> omega
  · intro a
    cases a <;> simp only [Access.word, textMark] <;> omega

theorem encodeText_eq_ok (h : encodeText bytes = .ok b) :
    bytes.length < 256 ^ 2 ∧ b = Bytes.ofNat 3 (textMark + 256 * bytes.length) ++ bytes := by
  obtain ⟨length, hlength, h⟩ := of_bind h
  obtain ⟨hfits, rfl⟩ := unsigned?_eq_some.mp (orFault_eq_ok.mp hlength)
  cases h
  refine ⟨by omega, ?_⟩
  rw [ofNat_succ 2 textMark bytes.length (by decide), Int.toNat_natCast]

/-- A text is read back. -/
theorem takes_encodeText {s : String} (h : encodeText bytes = .ok b)
    (hs : codec.decode bytes = .ok s) : Takes (read codec) b (.text (.ofString s)) := by
  obtain ⟨hlt, rfl⟩ := encodeText_eq_ok h
  refine takes_read (by unfold textMark; omega) ?_
  rw [readAfter_text]
  exact takes_map (fun s => Instr.text (.ofString s)) (takes_text rfl hs)

/-- An operator is its word alone, but for the end of an index. -/
theorem takes_operator (codec : Codec) {o : Operator} (ho : o ≠ .indexEnd) :
    Takes (read codec) (Bytes.ofNat 3 o.word) (.op o) := by
  have h : Takes (readAfter codec o.word) [] (.op o) := by
    unfold readAfter
    rw [Operator.ofWord?_word]
    cases o with
    | indexEnd => exact absurd rfl ho
    | _ => exact takes_pure _
  have hread := takes_read o.word_lt h
  exact hread

/-- The end of an index has a filling byte. -/
theorem takes_indexEnd (codec : Codec) :
    Takes (read codec) (Bytes.ofNat 3 Operator.indexEnd.word ++ [0]) (.op .indexEnd) := by
  refine takes_read (Operator.word_lt _) ?_
  exact takes_map (fun _ => Instr.op .indexEnd) (takes_skip rfl)

/-- An access is read back. -/
theorem takes_access (codec : Codec) (kind : Access) (mark : Mark) {index : Nat}
    (hindex : index < 256 ^ 2) :
    Takes (read codec) (Bytes.ofNat 3 kind.word ++ Bytes.ofNat 1 mark.code ++ Bytes.ofNat 2 index)
      (.access kind mark index) := by
  rw [append_assoc]
  refine takes_read (by cases kind <;> decide) ?_
  have hmark : (Bytes.ofNat 1 mark.code ++ Bytes.ofNat 2 index).field 0 1 = mark.code :=
    field_head _ (by cases mark <;> decide)
  have hnumber : (Bytes.ofNat 1 mark.code ++ Bytes.ofNat 2 index).field 1 2 = index := by
    rw [field_tail _ _ (Nat.le_refl 1), ← append_nil (Bytes.ofNat 2 index)]
    exact field_head [] hindex
  have hafter : readAfter codec kind.word = readAccess kind := by
    unfold readAfter
    rw [Access.ofWord?_word, Operator.ofWord?_eq_none]
    intro o
    cases o <;> cases kind <;> decide
  rw [hafter]
  refine takes_last (takes_take (by simp)) ?_
  rw [hmark, hnumber, Mark.ofCode?_code]
  exact takes_pure _

/-- A number is read back. -/
theorem takes_int (codec : Codec) (width : IntWidth) {n : Int}
    (h : Bytes.signed? width.size n = some b) :
    Takes (read codec) (Bytes.ofNat 3 width.word ++ b) (.int width n) := by
  have hafter : readAfter codec width.word =
      (do return .int width (← Reader.signed width.size)) := by
    rw [readAfter_literal, readLiteral, if_neg (by cases width <;> decide),
      if_neg (by cases width <;> decide), IntWidth.ofWord?_word]
    · intro o
      cases o <;> cases width <;> decide
    · intro a
      cases a <;> cases width <;> decide
  refine takes_read (by cases width <;> decide) ?_
  have hsigned := takes_signed (length_signed? h)
  rw [toInt_signed? h] at hsigned
  rw [hafter]
  exact takes_map (Instr.int width) hsigned

theorem takes_float (codec : Codec) (x : Binary64) :
    Takes (read codec) (Bytes.ofNat 3 floatWord ++ Bytes.ofNat 8 x.bits.toNat) (.float x) := by
  have hafter : readAfter codec floatWord = (do return .float (← Reader.double)) := by
    rw [readAfter_literal, readLiteral, if_neg (by decide), if_pos rfl]
    · intro o
      cases o <;> decide
    · intro a
      cases a <;> decide
  refine takes_read (by decide) ?_
  rw [hafter]
  refine takes_map Instr.float (takes_last (takes_take (length_ofNat _ _)) ?_)
  rw [toNat_ofNat x.bits.toNat_lt, UInt64.ofNat_toNat]
  exact takes_pure x

theorem encode_access_eq_ok {kind : Access} {mark : Mark} {index : Int} :
    (access kind mark index).encode codec = .ok b ↔ (0 ≤ index ∧ index < 0x10000) ∧
      b = Bytes.ofNat 3 kind.word ++ Bytes.ofNat 1 mark.code ++ Bytes.ofNat 2 index.toNat := by
  unfold encode putUnsigned
  rw [bind_eq_ok]
  constructor
  · rintro ⟨number, hnumber, h⟩
    obtain ⟨hfits, rfl⟩ := unsigned?_eq_some.mp (orFault_eq_ok.mp hnumber)
    cases h
    exact ⟨by omega, rfl⟩
  · rintro ⟨hfits, rfl⟩
    exact ⟨_, orFault_eq_ok.mpr (unsigned?_eq_some.mpr ⟨by omega, rfl⟩), rfl⟩

/-- **An instruction is read back.** -/
theorem takes_of_encode {j : Instr} (h : i.encode codec = .ok b)
    (hj : i.reread codec codec' = .ok j) : Takes (read codec') b j := by
  cases i with
  | op o =>
    cases hj
    -- The end of an index alone is followed by a byte that means nothing.
    by_cases ho : o = .indexEnd
    · subst ho
      cases h
      exact takes_indexEnd codec'
    · have hb : b = Bytes.ofNat 3 o.word := by
        cases o <;> cases h <;> first | rfl | exact absurd rfl ho
      rw [hb]
      exact takes_operator codec' ho
  | access kind mark index =>
    cases hj
    obtain ⟨hfits, rfl⟩ := encode_access_eq_ok.mp h
    have haccess := takes_access codec' kind mark (show index.toNat < 256 ^ 2 by omega)
    rw [Int.toNat_of_nonneg hfits.1] at haccess
    exact haccess
  | text literal =>
    obtain ⟨bytes, hbytes, h⟩ := of_bind h
    rw [reread, hbytes, ok_bind] at hj
    obtain ⟨s, hs, hj⟩ := of_bind hj
    cases hj
    exact takes_encodeText h hs
  | raw bytes =>
    obtain ⟨s, hs, hj⟩ := of_bind hj
    cases hj
    exact takes_encodeText h hs
  | float x =>
    cases hj
    cases h
    exact takes_float codec' x
  | int width n =>
    cases hj
    obtain ⟨bytes, hbytes, h⟩ := of_bind h
    cases h
    exact takes_int codec' width (orFault_eq_ok.mp hbytes)

theorem failsOn_encodeText (h : encodeText bytes = .ok b) (hf : codec.decode bytes = .error f) :
    FailsOn (read codec) b f := by
  obtain ⟨hlt, rfl⟩ := encodeText_eq_ok h
  have hword := takes_unsigned (length_ofNat 3 (textMark + 256 * bytes.length))
  rw [toNat_ofNat (by unfold textMark; omega)] at hword
  refine failsOn_after hword ?_
  rw [readAfter_text]
  exact failsOn_bind (failsOn_text rfl hf)

/-- An instruction that another codec cannot read is refused. -/
theorem failsOn_of_encode (h : i.encode codec = .ok b) (hf : i.reread codec codec' = .error f) :
    FailsOn (read codec') b f := by
  cases i with
  | text literal =>
    obtain ⟨bytes, hbytes, h⟩ := of_bind h
    rw [reread, hbytes, ok_bind] at hf
    cases hs : codec'.decode bytes with
    | ok s =>
      rw [hs] at hf
      cases hf
    | error e =>
      rw [hs] at hf
      cases hf
      exact failsOn_encodeText h hs
  | raw bytes =>
    rw [reread] at hf
    cases hs : codec'.decode bytes with
    | ok s =>
      rw [hs] at hf
      cases hf
    | error e =>
      rw [hs] at hf
      cases hf
      exact failsOn_encodeText h hs
  | _ => cases hf

/-! ## Lists of instructions -/

/-- An instruction has three bytes at least. -/
theorem three_le_length_of_encode (h : i.encode codec = .ok b) : 3 ≤ b.length := by
  have htext : ∀ {bytes : Bytes}, encodeText bytes = .ok b → 3 ≤ b.length := fun h => by
    rw [(encodeText_eq_ok h).2, length_append, length_ofNat]
    omega
  cases i with
  | op o => cases o <;> cases h <;> decide
  | access kind mark index =>
    obtain ⟨number, -, h⟩ := of_bind h
    cases h
    simp
  | text literal =>
    obtain ⟨bytes, -, h⟩ := of_bind h
    exact htext h
  | raw bytes => exact htext h
  | float x =>
    cases h
    simp
  | int width n =>
    obtain ⟨bytes, -, h⟩ := of_bind h
    cases h
    simp

/-- Code is read one instruction after the other. -/
theorem readAll_flatten (codec' : Codec)
    (h : Forall₂ (fun i b => i.encode codec = .ok b) code pieces) :
    ∀ c : Cursor, c.rest = pieces.flatten →
      ∃ c', readAll codec' c = match code.mapM (reread codec codec') with
        | .ok read => .ok read c'
        | .error f => .error f c' := by
  induction h with
  | nil =>
    intro c hc
    refine ⟨c, ?_⟩
    rw [readAll, if_pos (by rw [hc]; rfl)]
    rfl
  | cons hhead _ ih =>
    rename_i i b code pieces _
    intro c hc
    have hlength := three_le_length_of_encode hhead
    have hfull : ¬c.rest.isEmpty = true := by
      rw [hc, List.isEmpty_iff]
      intro hnil
      rw [(append_eq_nil_iff.mp hnil).1] at hlength
      exact absurd hlength (by decide)
    rw [readAll, if_neg hfull, mapM_cons]
    -- The first instruction that cannot be reread stops the reader.
    cases hj : i.reread codec codec' with
    | error f =>
      obtain ⟨c', hread⟩ := failsOn_of_encode hhead hj c _ hc
      refine ⟨c', ?_⟩
      split
      · next hread' =>
        rw [hread] at hread'
        cases hread'
        rfl
      · next hread' =>
        rw [hread] at hread'
        cases hread'
    | ok j =>
      have hread := takes_of_encode hhead hj c _ hc
      obtain ⟨c', hrest⟩ := ih { c with pos := c.pos + b.length, rest := pieces.flatten } rfl
      refine ⟨c', ?_⟩
      split
      · next hread' =>
        rw [hread] at hread'
        cases hread'
      · next hread' =>
        rw [hread] at hread'
        cases hread'
        rw [hrest, ok_bind]
        cases code.mapM (reread codec codec') <;> rfl

/-- **Instructions are read back one by one.** Reading by another codec may fail on a text, and then
fails for the whole list as it does for that text. -/
theorem decodeAll_flatten (codec' : Codec)
    (h : Forall₂ (fun i b => i.encode codec = .ok b) code pieces) :
    decodeAll codec' pieces.flatten = code.mapM (reread codec codec') := by
  obtain ⟨c', hread⟩ := readAll_flatten codec' h (Cursor.start pieces.flatten) rfl
  unfold decodeAll runOn
  rw [hread]
  cases code.mapM (reread codec codec') <;> rfl

end Instr

end NovelScript
