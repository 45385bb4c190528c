import NovelScript.Instruction.Basic
import NovelScript.Reader

/-!
# The bytes of instructions

`Instr.encode` writes one instruction and `Instr.read` reads one. The word that ends an index list
is followed by a filler byte, which is written as zero and skipped unseen. `Instr.readAll` reads up
to the end; it stops because an instruction takes at least the bytes of its word.
-/

namespace NovelScript.Instr

/-! ## Writing -/

/-- A text with its length. -/
def encodeText (bytes : Bytes) : Except Fault Bytes := do
  let length ← putUnsigned 2 bytes.length
  return Bytes.ofNat 1 textMark ++ length ++ bytes

/-- The bytes of an instruction. -/
def encode (codec : Codec) : Instr → Except Fault Bytes
  | .text literal => do encodeText (← codec.encodeWording literal)
  | .raw bytes => encodeText bytes
  | .op .indexEnd => .ok (Bytes.ofNat 3 Operator.indexEnd.word ++ [0])
  | .op o => .ok (Bytes.ofNat 3 o.word)
  | .float x => .ok (Bytes.ofNat 3 floatWord ++ Bytes.ofNat 8 x.bits.toNat)
  | .int width n => do
    let bytes ← orFault (Bytes.signed? width.size n) Cause.overflow
    return Bytes.ofNat 3 width.word ++ bytes
  | .access kind mark index => do
    let bytes ← putUnsigned 2 index
    return Bytes.ofNat 3 kind.word ++ Bytes.ofNat 1 mark.code ++ bytes

/-- The bytes of code. -/
def encodeAll (codec : Codec) (code : List Instr) : Except Fault Bytes := do
  return (← code.mapM (encode codec)).flatten

/-! ## Reading -/

/-- Reads the rest of an access. -/
def readAccess (kind : Access) : Reader Instr := do
  let record ← Reader.take 3
  match Mark.ofCode? (record.field 0 1) with
  | some mark => return .access kind mark (record.field 1 2)
  | none => Reader.fail (Cause.unknownMark (record.field 0 1))

/-- Reads the rest of a literal. -/
def readLiteral (codec : Codec) (word : Nat) : Reader Instr := do
  if word % 256 = textMark then
    return .text (.ofString (← Reader.text codec (word / 256)))
  else if word = floatWord then
    return .float (← Reader.double)
  else
    match IntWidth.ofWord? word with
    | some width => return .int width (← Reader.signed width.size)
    | none => Reader.fail (Cause.unknownOpcode word)

/-- Reads an instruction after its word. -/
def readAfter (codec : Codec) (word : Nat) : Reader Instr :=
  match Operator.ofWord? word with
  | some .indexEnd => do
    Reader.skip 1
    return .op .indexEnd
  | some o => pure (.op o)
  | none =>
    match Access.ofWord? word with
    | some kind => readAccess kind
    | none => readLiteral codec word

/-- Reads an instruction. -/
def read (codec : Codec) : Reader Instr := do
  readAfter codec (← Reader.unsigned 3)

/-! ## Reading to the end -/

/-- A reader never gives bytes back. -/
def Shrinks {α : Type} (reader : Reader α) : Prop :=
  ∀ c a c', reader c = .ok a c' → c'.rest.length ≤ c.rest.length

theorem shrinks_pure {α : Type} (a : α) : Shrinks (pure a : Reader α) := by
  intro c b c' h
  cases h
  exact Nat.le_refl _

theorem shrinks_fail {α : Type} (f : Fault) : Shrinks (Reader.fail f : Reader α) := by
  intro c b c' h
  cases h

theorem shrinks_bind {α β : Type} {r : Reader α} {k : α → Reader β}
    (hr : Shrinks r) (hk : ∀ a, Shrinks (k a)) : Shrinks (r >>= k) := by
  intro c b c' h
  simp only [bind, EStateM.bind] at h
  split at h
  · rename_i a s hs
    exact Nat.le_trans (hk a _ _ _ h) (hr _ _ _ hs)
  · cases h

theorem shrinks_take (n : Nat) : Shrinks (Reader.take n) := by
  intro c a c' h
  simp only [Reader.take] at h
  split at h
  · cases h
    simp
  · cases h

theorem shrinks_skip (n : Nat) : Shrinks (Reader.skip n) := by
  intro c a c' h
  cases h
  simp

theorem shrinks_ofExcept {α : Type} (x : Except Fault α) : Shrinks (Reader.ofExcept x) := by
  intro c a c' h
  cases x with
  | ok a => cases h; exact Nat.le_refl _
  | error f => cases h

theorem shrinks_readAccess (kind : Access) : Shrinks (readAccess kind) := by
  refine shrinks_bind (shrinks_take 3) fun record => ?_
  split
  · exact shrinks_pure _
  · exact shrinks_fail _

theorem shrinks_readLiteral (codec : Codec) (word : Nat) : Shrinks (readLiteral codec word) := by
  unfold readLiteral
  split
  · refine shrinks_bind (shrinks_bind (shrinks_take _) fun _ => shrinks_ofExcept _) fun _ => ?_
    exact shrinks_pure _
  · split
    · refine shrinks_bind (shrinks_bind (shrinks_take _) fun _ => shrinks_pure _) fun _ => ?_
      exact shrinks_pure _
    · split
      · refine shrinks_bind (shrinks_bind (shrinks_take _) fun _ => shrinks_pure _) fun _ => ?_
        exact shrinks_pure _
      · exact shrinks_fail _

theorem shrinks_readAfter (codec : Codec) (word : Nat) : Shrinks (readAfter codec word) := by
  unfold readAfter
  split
  · exact shrinks_bind (shrinks_skip 1) fun _ => shrinks_pure _
  · exact shrinks_pure _
  · split
    · exact shrinks_readAccess _
    · exact shrinks_readLiteral _ _

theorem length_lt_of_read {codec : Codec} {c c' : Cursor} {i : Instr}
    (h : read codec c = .ok i c') : c'.rest.length < c.rest.length := by
  simp only [read, Reader.unsigned, bind, EStateM.bind, Reader.take] at h
  split at h
  · rename_i a s hs
    split at hs
    · rename_i b s' hs'
      split at hs'
      · rename_i hlen
        cases hs'
        cases hs
        have hshort := shrinks_readAfter codec _ _ _ _ h
        simp only [List.length_drop] at hshort
        simp only [List.length_take] at hlen
        omega
      · cases hs'
    · cases hs
  · cases h

/-- Reads instructions to the end. -/
def readAll (codec : Codec) (c : Cursor) : EStateM.Result Fault Cursor (List Instr) :=
  if c.rest.isEmpty then .ok [] c
  else
    match _h : read codec c with
    | .error f c' => .error f c'
    | .ok i c' =>
      match readAll codec c' with
      | .error f c'' => .error f c''
      | .ok rest c'' => .ok (i :: rest) c''
termination_by c.rest.length
decreasing_by exact length_lt_of_read _h

/-- The instructions of bytes. -/
def decodeAll (codec : Codec) (bytes : Bytes) : Except Fault (List Instr) :=
  Reader.runOn (readAll codec) bytes

end NovelScript.Instr
