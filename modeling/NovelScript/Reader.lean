import NovelScript.Text.Codec
import NovelScript.Number.Binary64

/-!
# Reading bytes in order

A `Cursor` is a position in a byte string together with the bytes that are left. A `Reader` takes
bytes at the cursor; when it fails, the cursor stays where the failing step left it. A position may
lie past the end, since some formats skip bytes without looking at them.
-/

namespace NovelScript

/-- A byte string with what is still to be read. -/
structure Cursor where
  /-- The length of the whole byte string. -/
  size : Nat
  pos : Nat
  rest : Bytes
  deriving DecidableEq

def Cursor.start (bytes : Bytes) : Cursor := ⟨bytes.length, 0, bytes⟩

abbrev Reader (α : Type) := EStateM Fault Cursor α

namespace Reader

/-! ## Running -/

/-- Reads a byte string. -/
def runOn {α : Type} (reader : Reader α) (bytes : Bytes) : Except Fault α :=
  match reader (Cursor.start bytes) with
  | .ok a _ => .ok a
  | .error f _ => .error f

def ofExcept {α : Type} (result : Except Fault α) : Reader α := fun c =>
  match result with
  | .ok a => .ok a c
  | .error f => .error f c

def fail {α : Type} (fault : Fault) : Reader α := fun c => .error fault c

/-! ## Steps -/

/-- Takes bytes. -/
def take (n : Nat) : Reader Bytes := fun c =>
  let got := c.rest.take n
  if got.length = n then .ok got { c with pos := c.pos + n, rest := c.rest.drop n }
  else .error (Violation.shortRead n got.length c.pos) c

/-- The number of bytes between the cursor and a position counted back from the end by `n`, measured
from the cursor. -/
def countBack (c : Cursor) (n : Int) : Nat :=
  let stop := c.pos + n
  if stop < 0 then ((c.size : Int) + stop).toNat - c.pos else 0

/-- The next `n` bytes. A negative count is never met. -/
def takeSigned (n : Int) : Reader Bytes :=
  if 0 ≤ n then take n.toNat
  else fun c => .error (Violation.shortRead n (countBack c n) c.pos) c

def byte : Reader Nat := fun c =>
  match c.rest with
  | b :: rest => .ok b.toNat { c with pos := c.pos + 1, rest := rest }
  | [] => .error (Cause.pastEnd c.pos) c

/-- Moves the cursor on without looking at the bytes, past the end if need be. -/
def skip (n : Nat) : Reader Unit := fun c =>
  .ok () { c with pos := c.pos + n, rest := c.rest.drop n }

/-- Takes bytes up to a zero. -/
def untilZero : Reader Bytes := fun c =>
  match Bytes.splitAtZero c.rest with
  | some (text, rest) => .ok text { c with pos := c.pos + text.length + 1, rest := rest }
  | none => .error Cause.unterminated c

/-- Fails unless all bytes are passed. -/
def finished (version : Int) : Reader Unit := fun c =>
  if c.pos = c.size then .ok () c
  else .error (Violation.unreadRest c.pos c.size version) c

/-! ## Values -/

def unsigned (n : Nat) : Reader Nat := do
  return (← take n).toNat

def signed (n : Nat) : Reader Int := do
  return (← take n).toInt

def double : Reader Binary64 := do
  return ⟨UInt64.ofNat (← take 8).toNat⟩

def text (codec : Codec) (n : Nat) : Reader String := do
  ofExcept (codec.decode (← take n))

def textZ (codec : Codec) : Reader String := do
  ofExcept (codec.decode (← untilZero))

/-- Reads items one by one. -/
def repeated {α : Type} (reader : Reader α) : (n : Nat) → Reader (List α)
  | 0 => pure []
  | n + 1 => do
    let a ← reader
    let rest ← repeated reader n
    return a :: rest

end Reader

/-- The number without sign that stands in a record at an offset. -/
def Bytes.field (record : Bytes) (offset width : Nat) : Nat :=
  Bytes.toNat ((record.drop offset).take width)

def Bytes.signedField (record : Bytes) (offset width : Nat) : Int :=
  Bytes.toInt ((record.drop offset).take width)

/-- Bytes of a number, if it fits. -/
def putUnsigned (width : Nat) (n : Int) : Except Fault Bytes :=
  orFault (Bytes.unsigned? width n) Cause.badRecord

/-- Bytes of a signed number, if it fits. -/
def putSigned (width : Nat) (n : Int) : Except Fault Bytes :=
  orFault (Bytes.signed? width n) Cause.badRecord

/-- The fields of a record one after another, each a width and a number without sign. -/
def putRecord (fields : List (Nat × Int)) : Except Fault Bytes := do
  return (← fields.mapM fun (width, n) => putUnsigned width n).flatten

end NovelScript
