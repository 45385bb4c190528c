import NovelScript.Proofs.Assembly.Fit
import NovelScript.Proofs.Session
import NovelScript.Proofs.Text.Reencoding

/-!
# Instructions and their bytes

Reading and writing instructions undo each other. What is written for a list of instructions is read
as that list, up to the last byte (`readAll_encodeAll`). In the other direction one byte is free:
the filler behind the end of an index list is not looked at, and may even be missing at the very end
(`readAll_iff_encodeAll`). `zeroFillers` is what a byte string becomes when all fillers are made
zero. It cuts the bytes into words and what follows each of them, by the words alone, so it says
nothing of what instructions mean.

A reader is `Sound` for a property if the bytes it has taken and its result have the property; this
is the counterpart of `Takes`.
-/

namespace NovelScript

open List

variable {word : Nat}

/-! ## Numbers that are read -/

namespace Bytes

theorem ofNat_toNat : ∀ bytes : Bytes, ofNat bytes.length bytes.toNat = bytes
  | [] => rfl
  | b :: rest => by
    have hb := b.toNat_lt
    have hmod : (b.toNat + 256 * toNat rest) % 256 = b.toNat := by omega
    have hdiv : (b.toNat + 256 * toNat rest) / 256 = toNat rest := by omega
    rw [length_cons, toNat, ofNat, hmod, hdiv, ofNat_toNat rest, UInt8.ofNat_toNat]

theorem unsigned?_toNat (bytes : Bytes) : unsigned? bytes.length bytes.toNat = some bytes := by
  refine unsigned?_eq_some.mpr ⟨⟨Int.natCast_nonneg _, Int.ofNat_lt.mpr (toNat_lt bytes)⟩, ?_⟩
  rw [Int.toNat_natCast, ofNat_toNat]

theorem ofNat_bits {bytes : Bytes} (h : bytes.length = 8) :
    ofNat 8 (UInt64.ofNat bytes.toNat).toNat = bytes := by
  have hlt := toNat_lt bytes
  rw [h] at hlt
  rw [UInt64.toNat_ofNat', Nat.mod_eq_of_lt (show _ < 2 ^ 64 from hlt), ← h, ofNat_toNat]

/-- Bytes are those of the signed number that they tell. -/
theorem signed?_toInt (bytes : Bytes) : signed? bytes.length bytes.toInt = some bytes := by
  have hlt := toNat_lt bytes
  rw [signed?_eq_some]
  simp only [toInt, Nat.pow_eq]
  -- a number in the upper half stands for itself less the modulus
  split
  · next hlow =>
    refine ⟨by omega, ?_⟩
    rw [Int.emod_eq_of_lt (by omega) (by omega), Int.toNat_natCast, ofNat_toNat]
  · next hhigh =>
    refine ⟨by omega, ?_⟩
    rw [← Int.add_emod_right, Int.emod_eq_of_lt (by omega) (by omega), Int.sub_add_cancel,
      Int.toNat_natCast, ofNat_toNat]

end Bytes

/-! ## Sound readers -/

namespace Reader

variable {α β : Type}
variable {r : Reader α} {P : Bytes → α → Prop}

/-- The bytes that a reader takes and its result have a property, whenever it succeeds. -/
def Sound (r : Reader α) (P : Bytes → α → Prop) : Prop :=
  ∀ c a c', r c = .ok a c' → ∃ bytes, c.rest = bytes ++ c'.rest ∧
    c' = { c with pos := c.pos + bytes.length, rest := c'.rest } ∧ P bytes a

theorem sound_pure (a : α) : Sound (pure a : Reader α) fun bytes b => bytes = [] ∧ b = a := by
  intro c b c' h
  obtain ⟨rfl, rfl⟩ := runPure_eq_ok.mp h
  exact ⟨[], rfl, rfl, rfl, rfl⟩

theorem sound_fail (fault : Fault) (P : Bytes → α → Prop) : Sound (fail fault) P := by
  intro c a c' h
  cases h

theorem sound_take (n : Nat) : Sound (take n) fun bytes a => bytes.length = n ∧ a = bytes := by
  intro c a c' h
  simp only [take] at h
  split at h
  · next hlength =>
    cases h
    refine ⟨c.rest.take n, (take_append_drop n c.rest).symm, ?_, hlength, rfl⟩
    simp only [hlength]
  · cases h

theorem sound_ofExcept (x : Except Fault α) :
    Sound (ofExcept x) fun bytes a => bytes = [] ∧ x = .ok a := by
  intro c a c' h
  cases x with
  | error f => cases h
  | ok b =>
    cases h
    exact ⟨[], rfl, rfl, rfl, rfl⟩

/-- Bytes that two readers take are those of the first and those of the second. -/
theorem sound_bind {k : α → Reader β} {Q : α → Bytes → β → Prop} (hr : Sound r P)
    (hk : ∀ a, Sound (k a) (Q a)) :
    Sound (r >>= k) fun bytes b =>
      ∃ a first second, bytes = first ++ second ∧ P first a ∧ Q a second b := by
  intro c b c' h
  obtain ⟨a, c₁, h₁, h₂⟩ := of_runBind h
  obtain ⟨first, hrest₁, hc₁, hP⟩ := hr c a c₁ h₁
  obtain ⟨second, hrest₂, hc₂, hQ⟩ := hk a c₁ b c' h₂
  refine ⟨first ++ second, ?_, ?_, a, first, second, rfl, hP, hQ⟩
  · rw [hrest₁, hrest₂, append_assoc]
  · rw [hc₂, hc₁, length_append]
    simp only [Nat.add_assoc]

/-- A reader is sound for whatever follows. -/
theorem Sound.imp {Q : Bytes → α → Prop} (h : Sound r P) (himp : ∀ bytes a, P bytes a → Q bytes a) :
    Sound r Q := by
  intro c a c' hr
  obtain ⟨bytes, hrest, hc, hP⟩ := h c a c' hr
  exact ⟨bytes, hrest, hc, himp bytes a hP⟩

theorem sound_map (f : α → β) (hr : Sound r P) :
    Sound (r >>= fun a => pure (f a)) fun bytes b => ∃ a, b = f a ∧ P bytes a := by
  refine (sound_bind hr fun a => sound_pure (f a)).imp ?_
  rintro bytes b ⟨a, first, second, rfl, hP, rfl, rfl⟩
  rw [append_nil]
  exact ⟨a, rfl, hP⟩

theorem sound_text (codec : Codec) (n : Nat) :
    Sound (text codec n) fun bytes s => bytes.length = n ∧ codec.decode bytes = .ok s := by
  refine (sound_bind (sound_take n) fun _ => sound_ofExcept _).imp ?_
  rintro bytes s ⟨a, first, second, rfl, ⟨hlength, rfl⟩, rfl, hs⟩
  rw [append_nil]
  exact ⟨hlength, hs⟩

end Reader

/-! ## Words that are found -/

theorem Operator.word_of_ofWord? {o : Operator} (h : Operator.ofWord? word = some o) :
    o.word = word := by
  simpa using find?_some h

theorem Access.word_of_ofWord? {kind : Access} (h : Access.ofWord? word = some kind) :
    kind.word = word := by
  simpa using find?_some h

theorem IntWidth.word_of_ofWord? {width : IntWidth} (h : IntWidth.ofWord? word = some width) :
    width.word = word := by
  simpa using find?_some h

theorem Mark.code_of_ofCode? {code : Nat} {mark : Mark} (h : Mark.ofCode? code = some mark) :
    mark.code = code := by
  simpa using find?_some h

namespace Instr

open Reader

variable {codec : Codec} {code : List Instr} {bytes piece tail : Bytes} {c c' : Cursor} {i : Instr}
  {pieces : List Bytes} {word : Nat} {c₁ : Cursor} (rest : Bytes)

/-! ## Bytes that are written are read -/

theorem encodeAll_eq_ok :
    encodeAll codec code = .ok bytes ↔
      ∃ pieces, Forall₂ (fun i b => i.encode codec = .ok b) code pieces ∧
        bytes = pieces.flatten := by
  rw [encodeAll, bind_eq_ok]
  simp only [mapM_eq_ok, pure_eq_ok, Except.ok.injEq, @eq_comm _ bytes]

theorem readAll_of_rest_nil (h : c.rest = []) : readAll codec c = .ok [] c := by
  rw [readAll, if_pos (List.isEmpty_iff.mpr h)]

theorem readAll_of_read (h : read codec c = .ok i c₁)
    (hcode : readAll codec c₁ = .ok code c') : readAll codec c = .ok (i :: code) c' := by
  have hshort := length_lt_of_read h
  have hfull : ¬c.rest.isEmpty = true := by
    rw [List.isEmpty_iff, ← length_eq_zero_iff]
    omega
  rw [readAll, if_neg hfull]
  split
  · next hread =>
    rw [h] at hread
    cases hread
  · next hread =>
    rw [h] at hread
    cases hread
    rw [hcode]

/-- Pieces that are taken one by one are taken together. -/
theorem readAll_of_takes (h : Forall₂ (fun i b => Takes (read codec) b i) code pieces) :
    ∀ c : Cursor, c.rest = pieces.flatten →
      readAll codec c = .ok code { c with pos := c.pos + pieces.flatten.length, rest := [] } := by
  induction h with
  | nil =>
    intro c hc
    rw [readAll_of_rest_nil hc]
    obtain ⟨size, pos, rest⟩ := c
    cases hc
    rfl
  | cons hhead _ ih =>
    intro c hc
    rw [flatten_cons] at hc ⊢
    refine readAll_of_read (hhead c _ hc) ?_
    rw [ih _ rfl, length_append, Nat.add_assoc]

theorem exists_pieces (h : ∀ i ∈ code, i.InRange codec) :
    ∃ pieces, Forall₂ (fun i b => i.encode codec = .ok b ∧ Takes (read codec) b i) code pieces := by
  induction code with
  | nil => exact ⟨[], .nil⟩
  | cons i code ih =>
    obtain ⟨hi, hcode⟩ := forall_mem_cons.mp h
    obtain ⟨piece, hpiece⟩ := encode_ok hi
    obtain ⟨pieces, hpieces⟩ := ih hcode
    exact ⟨piece :: pieces, .cons ⟨hpiece, takes_of_encode hpiece (reread_self hi)⟩ hpieces⟩

/-- **What is written for instructions is read as these instructions, up to the last byte.** -/
theorem readAll_encodeAll {codec : Codec} {code : List Instr} (h : ∀ i ∈ code, i.InRange codec) :
    ∃ bytes, encodeAll codec code = .ok bytes ∧
      readAll codec (Cursor.start bytes) = .ok code ⟨bytes.length, bytes.length, []⟩ := by
  obtain ⟨pieces, hpieces⟩ := exists_pieces h
  refine ⟨pieces.flatten, encodeAll_eq_ok.mpr ⟨pieces, hpieces.imp fun _ _ h => h.1, rfl⟩, ?_⟩
  rw [readAll_of_takes (hpieces.imp fun _ _ h => h.2) (Cursor.start pieces.flatten) rfl]
  simp [Cursor.start]

/-- The element of a text variable at the least index of one byte, compared with a text. -/
def elementCode : List Instr :=
  [.access .element .text 0xFFFF, .int .w8 (-0x80), .op .indexEnd, .text (.ofString "\"é\""),
   .op .eq, .float ⟨0x7FF8000000000000⟩, .op .nothing]

theorem readAll_encodeAll_elementCode :
    (∀ i ∈ elementCode, i.InRange Codec.utf8) ∧
    ∃ bytes, encodeAll Codec.utf8 elementCode = .ok bytes ∧
      readAll Codec.utf8 (Cursor.start bytes) =
        .ok elementCode ⟨bytes.length, bytes.length, []⟩ := by
  have h : ∀ i ∈ elementCode, i.InRange Codec.utf8 := by
    simp only [elementCode, List.forall_mem_cons, List.not_mem_nil, false_imp_iff, implies_true,
      and_true, InRange, true_and]
    refine ⟨by decide, by decide, [0x22, 0xC3, 0xA9, 0x22], ⟨"\"é\"", rfl, ?_, ?_⟩, by decide⟩
    · decide +kernel
    · decide +kernel
  exact ⟨h, readAll_encodeAll h⟩

/-! ## Words and what follows them -/

/-- The word that ends an index. -/
def indexEndWord : Bytes := Bytes.ofNat 3 Operator.indexEnd.word

/-- The number of bytes that follow a word: the filler of the end of an index list, nothing behind
another operator, the mark and the number of an access, and as many as the upper bytes of the word
say behind all others. -/
def payload (word : Nat) : Nat :=
  if word = Operator.indexEnd.word then 1
  else if (Operator.ofWord? word).isSome then 0
  else if (Access.ofWord? word).isSome then 3
  else word / 256

theorem encodeText_ok (h : bytes.length < 256 ^ 2) :
    encodeText bytes = .ok (Bytes.ofNat 3 (textMark + 256 * bytes.length) ++ bytes) := by
  rw [encodeText, putUnsigned_ok (by omega), ok_bind, Int.toNat_natCast,
    Bytes.ofNat_succ 2 textMark bytes.length (by decide)]
  rfl

/-- Bytes behind a word stand for an instruction. -/
structure Written (codec : Codec) (word : Nat) (bytes : Bytes) (i : Instr) : Prop where
  length : bytes.length = payload word
  inRange : i.InRange codec
  encode : i.encode codec = .ok (Bytes.ofNat 3 word ++ bytes)

theorem written_operator (codec : Codec) {o : Operator} (h : o ≠ .indexEnd) :
    Written codec o.word [] (.op o) where
  length := by cases o <;> first | rfl | exact absurd rfl h
  inRange := trivial
  encode := by cases o <;> first | rfl | exact absurd rfl h

/-- A text is written with its length before it. -/
theorem written_text (hcodec : codec.Reencodes) {s : String} (hword : word < 256 ^ 3)
    (hpayload : payload word = word / 256) (htext : word % 256 = textMark)
    (hlength : bytes.length = word / 256) (hs : codec.decode bytes = .ok s) :
    Written codec word bytes (.text (.ofString s)) := by
  have hlt : bytes.length < 256 ^ 2 := by omega
  have hsplit : textMark + 256 * bytes.length = word := by omega
  refine ⟨by rw [hlength, hpayload], ⟨bytes, ⟨s, rfl, hcodec bytes s hs, hs⟩, hlt⟩, ?_⟩
  rw [encode, Codec.encodeWording_ofString, hcodec bytes s hs, ok_bind, encodeText_ok hlt, hsplit]

theorem written_float (codec : Codec) (hlength : bytes.length = 8) :
    Written codec floatWord bytes (.float ⟨UInt64.ofNat bytes.toNat⟩) := by
  refine ⟨hlength, trivial, ?_⟩
  rw [encode, Bytes.ofNat_bits hlength]

theorem written_int (codec : Codec) {width : IntWidth} (hlength : bytes.length = width.size) :
    Written codec width.word bytes (.int width bytes.toInt) := by
  have hvalue := Bytes.signed?_toInt bytes
  rw [hlength] at hvalue
  refine ⟨?_, (Bytes.signed?_eq_some.mp hvalue).1, ?_⟩
  · rw [hlength]
    cases width <;> rfl
  · rw [encode, orFault_eq_ok.mpr hvalue]
    rfl

theorem written_access (codec : Codec) (kind : Access) {mark : Mark} (hlength : bytes.length = 3)
    (hmark : mark.code = bytes.field 0 1) :
    Written codec kind.word bytes (.access kind mark (bytes.field 1 2)) := by
  obtain ⟨a, b, c, rfl⟩ := length_eq_three.mp hlength
  have hindex : Bytes.field [a, b, c] 1 2 < 256 ^ 2 := Bytes.toNat_lt [b, c]
  have hbytes : Bytes.ofNat 1 mark.code ++ Bytes.ofNat 2 (Bytes.field [a, b, c] 1 2) =
      [a, b, c] := by
    rw [hmark]
    exact congrArg₂ (· ++ ·) (Bytes.ofNat_toNat [a]) (Bytes.ofNat_toNat [b, c])
  refine ⟨by cases kind <;> rfl, by simp only [InRange]; omega, ?_⟩
  refine encode_access_eq_ok.mpr ⟨by omega, ?_⟩
  rw [Int.toNat_natCast, append_assoc, hbytes]

theorem sound_readAccess (codec : Codec) (kind : Access) :
    Sound (readAccess kind) (Written codec kind.word) := by
  -- behind the record nothing more is read
  refine (sound_bind (Q := fun record bytes i => bytes = [] ∧ ∃ mark,
    mark.code = record.field 0 1 ∧ i = .access kind mark (record.field 1 2))
    (sound_take 3) fun record => ?_).imp ?_
  · split
    · next mark hmark =>
      refine (sound_pure _).imp ?_
      rintro bytes i ⟨rfl, rfl⟩
      exact ⟨rfl, mark, Mark.code_of_ofCode? hmark, rfl⟩
    · exact sound_fail _ _
  · rintro bytes i ⟨record, first, second, rfl, ⟨hlength, rfl⟩, rfl, mark, hmark, rfl⟩
    rw [append_nil]
    exact written_access codec kind hlength hmark

/-- A literal that is read would be written as it stands. -/
theorem sound_readLiteral (hcodec : codec.Reencodes) (hword : word < 256 ^ 3)
    (hpayload : payload word = word / 256) :
    Sound (readLiteral codec word) (Written codec word) := by
  unfold readLiteral
  split
  · next htext =>
    refine (sound_map _ (sound_text codec _)).imp ?_
    rintro bytes i ⟨s, rfl, hlength, hs⟩
    exact written_text hcodec hword hpayload htext hlength hs
  · split
    · next hfloat =>
      subst hfloat
      refine (sound_map _ (sound_map _ (sound_take 8))).imp ?_
      rintro bytes i ⟨x, rfl, n, rfl, hlength, rfl⟩
      exact written_float codec hlength
    · split
      · next width hwidth =>
        obtain rfl := IntWidth.word_of_ofWord? hwidth
        refine (sound_map _ (sound_map _ (sound_take width.size))).imp ?_
        rintro bytes i ⟨x, rfl, n, rfl, hlength, rfl⟩
        exact written_int codec hlength
      · exact sound_fail _ _

/-- So would any instruction but the end of an index. -/
theorem sound_readAfter (hcodec : codec.Reencodes) (hword : word < 256 ^ 3)
    (hend : word ≠ Operator.indexEnd.word) : Sound (readAfter codec word) (Written codec word) := by
  unfold readAfter
  split
  · next hop => exact absurd (Operator.word_of_ofWord? hop).symm hend
  · next o hne hop =>
    obtain rfl := Operator.word_of_ofWord? hop
    refine (sound_pure _).imp ?_
    rintro bytes i ⟨rfl, rfl⟩
    exact written_operator codec fun ho => hend (by rw [ho])
  · next hop =>
    split
    · next kind haccess =>
      obtain rfl := Access.word_of_ofWord? haccess
      exact sound_readAccess codec kind
    · next haccess =>
      refine sound_readLiteral hcodec hword ?_
      simp [payload, hend, hop, haccess]

/-- **One step of reading.** An instruction is read either as the end of an index list, with
whatever stands in the place of the filler, or from the bytes that are written for it. -/
theorem read_eq_ok_cases (hcodec : codec.Reencodes) (h : read codec c = .ok i c') :
    (∃ after, c.rest = indexEndWord ++ after ∧ i = .op .indexEnd ∧
      c' = { c with pos := c.pos + 4, rest := after.drop 1 }) ∨
    (∃ word bytes, word < 256 ^ 3 ∧ word ≠ Operator.indexEnd.word ∧ Written codec word bytes i ∧
      c.rest = Bytes.ofNat 3 word ++ bytes ++ c'.rest ∧
      c' = { c with pos := c.pos + 3 + bytes.length, rest := c'.rest }) := by
  obtain ⟨word, c₁, hword, hafter⟩ := of_runBind h
  obtain ⟨first, hrest, hc₁, n, rfl, hlength, rfl⟩ :=
    sound_map Bytes.toNat (sound_take 3) c word c₁ hword
  have hlt := Bytes.toNat_lt n
  have hfirst := Bytes.ofNat_toNat n
  rw [hlength] at hlt hfirst hc₁
  by_cases hend : n.toNat = Operator.indexEnd.word
  · left
    rw [hend] at hfirst hafter
    obtain ⟨_, c₂, hskip, hpure⟩ := of_runBind hafter
    obtain ⟨rfl, rfl⟩ := runPure_eq_ok.mp hpure
    cases hskip
    exact ⟨c₁.rest, by rw [hrest, indexEndWord, hfirst], rfl, by rw [hc₁]⟩
  · right
    obtain ⟨bytes, hrest', hc', hwritten⟩ := sound_readAfter hcodec hlt hend c₁ i c' hafter
    refine ⟨n.toNat, bytes, hlt, hend, hwritten, ?_, ?_⟩
    · rw [hrest, hrest', hfirst, append_assoc]
    · rw [hc', hc₁]

/-! ## Fillers -/

/-- The words of bytes, each with what follows it. At the end there may be less than asked for. -/
def segments : Bytes → List (Bytes × Bytes)
  | [] => []
  | a :: b :: c :: rest =>
    let size := payload (Bytes.toNat [a, b, c])
    ([a, b, c], rest.take size) :: segments (rest.drop size)
  | short => [(short, [])]
termination_by bytes => bytes.length

/-- The bytes of a word and of what follows it, with zero for the filler of the end of an index
list. -/
def zeroFiller : Bytes × Bytes → Bytes
  | (word, after) => word ++ if word = indexEndWord then [0] else after

/-- Bytes of instructions with zero for every filler, also for one that is missing at the end. -/
def zeroFillers (bytes : Bytes) : Bytes := (segments bytes).flatMap zeroFiller

/-- Bytes end with the word that ends an index list, and its filler is missing. -/
def EndsOpen (bytes : Bytes) : Prop := (segments bytes).getLast? = some (indexEndWord, [])

instance (bytes : Bytes) : Decidable (EndsOpen bytes) := by
  unfold EndsOpen
  infer_instance

theorem segments_nil : segments [] = [] := by rw [segments]

/-- Segments are the bytes cut up. -/
theorem flatten_segments (bytes : Bytes) :
    (segments bytes).flatMap (fun segment => segment.1 ++ segment.2) = bytes := by
  fun_induction segments bytes with
  | case1 => rfl
  | case2 a b c rest size ih =>
    rw [flatMap_cons, ih]
    simp
  | case3 => simp

/-- A word is cut off with as many bytes as it asks for. -/
theorem segments_word {word : Bytes} (h : word.length = 3) (rest : Bytes) :
    segments (word ++ rest) = (word, rest.take (payload word.toNat)) ::
      segments (rest.drop (payload word.toNat)) := by
  obtain ⟨a, b, c, rfl⟩ := length_eq_three.mp h
  show segments (a :: b :: c :: rest) = _
  rw [segments]

section

variable (h : word < 256 ^ 3) (hend : word ≠ Operator.indexEnd.word)
include h hend

theorem ofNat_ne_indexEndWord : Bytes.ofNat 3 word ≠ indexEndWord := by
  intro heq
  have hnumber := congrArg Bytes.toNat heq
  rw [indexEndWord, Bytes.toNat_ofNat h, Bytes.toNat_ofNat (by decide)] at hnumber
  exact hend hnumber

theorem zeroFillers_word (rest : Bytes) :
    zeroFillers (Bytes.ofNat 3 word ++ rest) = Bytes.ofNat 3 word ++ rest.take (payload word) ++
      zeroFillers (rest.drop (payload word)) := by
  rw [zeroFillers, segments_word (Bytes.length_ofNat 3 word), flatMap_cons, zeroFiller,
    if_neg (ofNat_ne_indexEndWord h hend), Bytes.toNat_ofNat h]
  rfl

end

/-- The byte after the end of an index becomes zero. -/
theorem zeroFillers_indexEnd :
    zeroFillers (indexEndWord ++ rest) = indexEndWord ++ [0] ++ zeroFillers (rest.drop 1) := by
  rw [zeroFillers, segments_word (by rfl), flatMap_cons, zeroFiller, if_pos rfl]
  rfl

theorem not_endsOpen_nil : ¬EndsOpen [] := by
  simp [EndsOpen, segments_nil]

theorem segments_ne_nil (h : bytes ≠ []) : segments bytes ≠ [] := by
  unfold segments
  split
  · exact absurd rfl h
  · exact cons_ne_nil _ _
  · exact cons_ne_nil _ _

theorem getLast?_cons_segments (segment : Bytes × Bytes) (rest : Bytes) :
    (segment :: segments rest).getLast? = some (indexEndWord, []) ↔
      rest = [] ∧ segment = (indexEndWord, []) ∨ EndsOpen rest := by
  by_cases hrest : rest = []
  · simp [hrest, segments_nil, EndsOpen]
  · obtain ⟨next, more, hsegments⟩ := exists_cons_of_ne_nil (segments_ne_nil hrest)
    simp only [hrest, false_and, false_or, EndsOpen, hsegments, getLast?_cons_cons]

/-- Code ends open if its last instruction ends an index and has no byte after it. -/
theorem endsOpen_indexEnd :
    EndsOpen (indexEndWord ++ rest) ↔ rest = [] ∨ EndsOpen (rest.drop 1) := by
  rw [EndsOpen, segments_word (by rfl), getLast?_cons_segments]
  rw [show payload indexEndWord.toNat = 1 from rfl]
  refine or_congr_left ⟨?_, ?_⟩
  · rintro ⟨-, h⟩
    simpa using h
  · rintro rfl
    exact ⟨rfl, rfl⟩

theorem endsOpen_word (h : word < 256 ^ 3) (hend : word ≠ Operator.indexEnd.word) (rest : Bytes) :
    EndsOpen (Bytes.ofNat 3 word ++ rest) ↔ EndsOpen (rest.drop (payload word)) := by
  rw [EndsOpen, segments_word (Bytes.length_ofNat 3 word), getLast?_cons_segments,
    Bytes.toNat_ofNat h]
  simp [ofNat_ne_indexEndWord h hend]

/-! ## Bytes that are read are written -/

theorem encodeAll_cons (hi : i.encode codec = .ok piece)
    (hcode : encodeAll codec code = .ok bytes) :
    encodeAll codec (i :: code) = .ok (piece ++ bytes) := by
  obtain ⟨pieces, hpieces, rfl⟩ := encodeAll_eq_ok.mp hcode
  exact encodeAll_eq_ok.mpr ⟨piece :: pieces, .cons hi hpieces, rfl⟩

/-- What a run that reads instructions up to the end says of the bytes at its start. -/
structure Reread (codec : Codec) (c : Cursor) (code : List Instr) (c' : Cursor) : Prop where
  inRange : ∀ i ∈ code, i.InRange codec
  encode : encodeAll codec code = .ok (zeroFillers c.rest)
  pos : c'.pos = c.pos + c.rest.length + if EndsOpen c.rest then 1 else 0

theorem reread_of_rest_nil (h : c.rest = []) :
    Reread codec c [] c where
  inRange := by simp
  encode := by
    rw [h, zeroFillers, segments_nil]
    rfl
  pos := by
    rw [h, if_neg not_endsOpen_nil]
    rfl

/-- Code that is reread goes on with the next instruction. -/
theorem reread_cons (hcodec : codec.Reencodes) (h : read codec c = .ok i c₁)
    (hcode : Reread codec c₁ code c') : Reread codec c (i :: code) c' := by
  obtain ⟨hrange, hencode, hpos⟩ := hcode
  rcases read_eq_ok_cases hcodec h with ⟨after, hrest, rfl, rfl⟩ |
    ⟨word, bytes, hlt, hend, hwritten, hrest, hc₁⟩
  · refine ⟨forall_mem_cons.mpr ⟨trivial, hrange⟩, ?_, ?_⟩
    · rw [hrest, zeroFillers_indexEnd]
      exact encodeAll_cons rfl hencode
    · rw [hpos, hrest]
      simp only [endsOpen_indexEnd]
      -- without a filler the position is one behind the end
      cases after with
      | nil => simp [not_endsOpen_nil, indexEndWord]
      | cons filler rest => simp [indexEndWord]; omega
  · have hdrop : (bytes ++ c₁.rest).drop (payload word) = c₁.rest := by
      rw [← hwritten.length, drop_left]
    have htake : (bytes ++ c₁.rest).take (payload word) = bytes := by
      rw [← hwritten.length, take_left]
    refine ⟨forall_mem_cons.mpr ⟨hwritten.inRange, hrange⟩, ?_, ?_⟩
    · rw [hrest, append_assoc, zeroFillers_word hlt hend, htake, hdrop]
      exact encodeAll_cons hwritten.encode hencode
    · have hpos₁ : c₁.pos = c.pos + 3 + bytes.length := by rw [hc₁]
      rw [hpos, hpos₁, hrest, append_assoc]
      simp only [endsOpen_word hlt hend, hdrop, length_append, Bytes.length_ofNat]
      omega

/-- **A run that reads all instructions.** -/
theorem reread_of_readAll (hcodec : codec.Reencodes) (h : readAll codec c = .ok code c') :
    Reread codec c code c' := by
  fun_induction readAll codec c generalizing code with
  | case1 c hempty =>
    cases h
    exact reread_of_rest_nil (List.isEmpty_iff.mp hempty)
  | case2 | case3 => cases h
  | case4 c _ i c₁ hread rest c₂ hrest ih =>
    cases h
    exact reread_cons hcodec hread (ih hrest)

/-! ## Bytes with other fillers -/

theorem zeroFillers_short (h : bytes.length < 3) : zeroFillers bytes = bytes := by
  match bytes, h with
  | [], _ => rw [zeroFillers, segments_nil, flatMap_nil]
  | [a], _ | [a, b], _ => simp [zeroFillers, segments, zeroFiller, indexEndWord, Bytes.ofNat]

theorem zeroFillers_long (h : 3 ≤ bytes.length) :
    (bytes.take 3).length = 3 ∧ ∃ more, zeroFillers bytes = bytes.take 3 ++ more := by
  have hfirst : (bytes.take 3).length = 3 := by
    rw [length_take]
    omega
  refine ⟨hfirst, ?_⟩
  rw [zeroFillers]
  nth_rewrite 1 [← take_append_drop 3 bytes]
  rw [segments_word hfirst, flatMap_cons, zeroFiller, append_assoc]
  exact ⟨_, rfl⟩

theorem zeroFillers_eq_nil (h : zeroFillers bytes = []) : bytes = [] := by
  by_cases hshort : bytes.length < 3
  · rwa [zeroFillers_short hshort] at h
  · obtain ⟨hfirst, more, hmore⟩ := zeroFillers_long (Nat.le_of_not_lt hshort)
    rw [hmore, append_eq_nil_iff] at h
    rw [h.1] at hfirst
    cases hfirst

theorem exists_rest_of_zeroFillers {word : Bytes} (hword : word.length = 3)
    (h : zeroFillers bytes = word ++ tail) : ∃ rest, bytes = word ++ rest := by
  by_cases hshort : bytes.length < 3
  · rw [zeroFillers_short hshort] at h
    exact ⟨tail, h⟩
  · obtain ⟨hfirst, more, hmore⟩ := zeroFillers_long (Nat.le_of_not_lt hshort)
    rw [hmore] at h
    have hsame : bytes.take 3 = word := append_inj_left h (by rw [hfirst, hword])
    exact ⟨bytes.drop 3, by rw [← hsame, take_append_drop]⟩

theorem read_indexEnd (codec : Codec) {rest : Bytes} (h : c.rest = indexEndWord ++ rest) :
    read codec c = .ok (.op .indexEnd) { c with pos := c.pos + 4, rest := rest.drop 1 } := by
  have hunsigned := takes_unsigned (Bytes.length_ofNat 3 Operator.indexEnd.word) c rest h
  exact runBind_eq_ok.mpr ⟨_, _, hunsigned, rfl⟩

/-- Filling bytes do not matter to the reader. -/
theorem read_of_zeroFillers (hcodec : codec.Reencodes) (hrange : i.InRange codec)
    (hi : i.encode codec = .ok piece) (h : zeroFillers c.rest = piece ++ tail) :
    ∃ c', read codec c = .ok i c' ∧ zeroFillers c'.rest = tail := by
  have htakes := takes_of_encode hi (reread_self hrange)
  rcases read_eq_ok_cases hcodec (htakes (Cursor.start piece) [] (append_nil _).symm) with
    ⟨after, -, rfl, -⟩ | ⟨word, bytes, hlt, hend, hwritten, -, -⟩
  · -- the end of an index list
    cases hi
    obtain ⟨rest, hrest⟩ := exists_rest_of_zeroFillers (Bytes.length_ofNat _ _) h
    refine ⟨_, read_indexEnd codec hrest, ?_⟩
    rw [hrest, ← indexEndWord, zeroFillers_indexEnd, append_assoc] at h
    exact append_cancel_left (append_cancel_left h)
  · have hpiece : piece = Bytes.ofNat 3 word ++ bytes := by
      rw [hwritten.encode] at hi
      cases hi
      rfl
    subst hpiece
    rw [append_assoc] at h
    obtain ⟨rest, hrest⟩ := exists_rest_of_zeroFillers (Bytes.length_ofNat _ _) h
    rw [hrest, zeroFillers_word hlt hend, append_assoc] at h
    have hafter := append_cancel_left h
    -- all bytes behind the word are there
    have hfull : payload word ≤ rest.length := by
      by_contra hless
      rw [take_of_length_le (by omega), drop_eq_nil_of_le (by omega),
        zeroFillers_short (by decide), append_nil] at hafter
      have hlength := congrArg List.length hafter
      rw [length_append, hwritten.length] at hlength
      omega
    have hlength : (rest.take (payload word)).length = bytes.length := by
      rw [length_take, hwritten.length]
      omega
    obtain ⟨hbytes, htail⟩ := append_inj hafter hlength
    refine ⟨_, htakes c (rest.drop (payload word)) ?_, htail⟩
    rw [hrest, ← hbytes, append_assoc, take_append_drop]

/-- Code is read whatever its filling bytes are. -/
theorem readAll_of_zeroFillers (hcodec : codec.Reencodes)
    (h : Forall₂ (fun i b => i.encode codec = .ok b) code pieces)
    (hrange : ∀ i ∈ code, i.InRange codec) :
    ∀ c : Cursor, zeroFillers c.rest = pieces.flatten → ∃ c', readAll codec c = .ok code c' := by
  induction h with
  | nil =>
    intro c hc
    exact ⟨c, readAll_of_rest_nil (zeroFillers_eq_nil hc)⟩
  | cons hi _ ih =>
    intro c hc
    obtain ⟨hhead, htail⟩ := forall_mem_cons.mp hrange
    obtain ⟨c₁, hread, hrest⟩ := read_of_zeroFillers hcodec hhead hi hc
    obtain ⟨c', hcode⟩ := ih htail c₁ hrest
    exact ⟨c', readAll_of_read hread hcode⟩

/-- **Which bytes are read, and what is written for them.** Bytes that can be read are written as
they are but for the fillers, which become zero. The position after them is the end, or one more if
the last filler is missing. They are all the bytes that become, with zero for the fillers, what is
written for some instructions. UTF-8, seven-bit and Western text are codecs for which this holds. -/
theorem readAll_iff_encodeAll :
    (Codec.utf8.Reencodes ∧ Codec.ascii.Reencodes ∧ Codec.latin1.Reencodes) ∧
    ∀ codec : Codec, codec.Reencodes → ∀ bytes : Bytes,
      (segments bytes).flatMap (fun segment => segment.1 ++ segment.2) = bytes ∧
      (∀ code c, readAll codec (Cursor.start bytes) = .ok code c →
        encodeAll codec code = .ok (zeroFillers bytes) ∧
        c.pos = bytes.length + if EndsOpen bytes then 1 else 0) ∧
      ((∃ code c, readAll codec (Cursor.start bytes) = .ok code c) ↔
        ∃ code, (∀ i ∈ code, i.InRange codec) ∧
          encodeAll codec code = .ok (zeroFillers bytes)) := by
  refine ⟨⟨Codec.reencodes_utf8, Codec.reencodes_ascii, Codec.reencodes_latin1⟩,
    fun codec hcodec bytes => ⟨flatten_segments bytes, ?_, ?_, ?_⟩⟩
  · intro code c h
    have hreread := reread_of_readAll hcodec h
    refine ⟨hreread.encode, ?_⟩
    rw [hreread.pos]
    show 0 + bytes.length + _ = _
    rw [Nat.zero_add]
    rfl
  · rintro ⟨code, c, h⟩
    have hreread := reread_of_readAll hcodec h
    exact ⟨code, hreread.inRange, hreread.encode⟩
  · rintro ⟨code, hrange, hencode⟩
    obtain ⟨pieces, hpieces, hbytes⟩ := encodeAll_eq_ok.mp hencode
    exact ⟨code, readAll_of_zeroFillers hcodec hpieces hrange _ hbytes⟩

/-- A text, the end of an index list with a filler that is not zero, and another without any. -/
def openBytes : Bytes :=
  [0x4D, 0x02, 0x00, 0xC3, 0xA9, 0x29, 0x01, 0x00, 0x77, 0x2C, 0x00, 0x00, 0x29, 0x01, 0x00]

theorem readAll_iff_encodeAll_openBytes :
    Codec.utf8.Reencodes ∧ EndsOpen openBytes ∧
    ∃ code c, readAll Codec.utf8 (Cursor.start openBytes) = .ok code c ∧
      encodeAll Codec.utf8 code = .ok [0x4D, 0x02, 0x00, 0xC3, 0xA9, 0x29, 0x01, 0x00, 0x00, 0x2C,
        0x00, 0x00, 0x29, 0x01, 0x00, 0x00] ∧ c.pos = 16 := by
  obtain ⟨⟨hutf8, -, -⟩, hall⟩ := readAll_iff_encodeAll
  obtain ⟨-, hread, haccepted⟩ := hall Codec.utf8 hutf8 openBytes
  have hopen : EndsOpen openBytes := by decide +kernel
  have hzero : zeroFillers openBytes = [0x4D, 0x02, 0x00, 0xC3, 0xA9, 0x29, 0x01, 0x00, 0x00, 0x2C,
      0x00, 0x00, 0x29, 0x01, 0x00, 0x00] := by decide +kernel
  have hrange : ∀ i ∈ [text (.ofString "é"), op .indexEnd, op .nothing, op .indexEnd],
      i.InRange Codec.utf8 := by
    simp only [List.forall_mem_cons, List.not_mem_nil, false_imp_iff, implies_true, and_true,
      InRange]
    refine ⟨[0xC3, 0xA9], ⟨"é", rfl, ?_, ?_⟩, by decide⟩
    · decide +kernel
    · decide +kernel
  obtain ⟨code, c, h⟩ := haccepted.mpr ⟨_, hrange, by rw [hzero]; decide +kernel⟩
  obtain ⟨hencode, hpos⟩ := hread code c h
  rw [hzero] at hencode
  rw [if_pos hopen] at hpos
  exact ⟨hutf8, hopen, code, c, h, hencode, hpos⟩

end Instr

end NovelScript
