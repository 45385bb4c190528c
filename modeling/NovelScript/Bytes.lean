/-!
# Byte strings

A byte string is a list of bytes. Numbers are stored little-endian in a fixed width: `ofNat` writes
the low bytes of a number, `toNat` and `toInt` read them back, and `unsigned?` and `signed?` write a
number only if it fits the width.
-/

namespace NovelScript

abbrev Bytes := List UInt8

namespace Bytes

/-! ## Numbers -/

/-- The `width` low bytes of a number, least significant first. -/
def ofNat : (width : Nat) → Nat → Bytes
  | 0, _ => []
  | w + 1, n => UInt8.ofNat (n % 256) :: ofNat w (n / 256)

/-- The number whose bytes, least significant first, are given. -/
def toNat : Bytes → Nat
  | [] => 0
  | b :: rest => b.toNat + 256 * toNat rest

/-- The two's complement number whose bytes, least significant first, are given. -/
def toInt (bytes : Bytes) : Int :=
  let n := toNat bytes
  let modulus := Nat.pow 256 bytes.length
  if 2 * n < modulus then (n : Int) else (n : Int) - (modulus : Int)

/-- A number in `width` bytes without sign, if it fits. -/
def unsigned? (width : Nat) (n : Int) : Option Bytes :=
  if 0 ≤ n ∧ n < ((Nat.pow 256 width : Nat) : Int) then some (ofNat width n.toNat) else none

/-- A number in `width` bytes of two's complement, if it fits. -/
def signed? (width : Nat) (n : Int) : Option Bytes :=
  let modulus : Int := ((Nat.pow 256 width : Nat) : Int)
  if -modulus ≤ 2 * n ∧ 2 * n < modulus then some (ofNat width (n % modulus).toNat) else none

@[simp] theorem length_ofNat (width n : Nat) : (ofNat width n).length = width := by
  induction width generalizing n with
  | zero => rfl
  | succ w ih => simp [ofNat, ih]

/-! ## Text and keys -/

def ofAscii (s : String) : Bytes :=
  s.toList.map fun c => UInt8.ofNat c.toNat

/-- Combines data with a key by exclusive or, starting the key again whenever it runs out. -/
def cyclicXor (key data : Bytes) : Bytes :=
  go key data
where
  go : Bytes → Bytes → Bytes
    | _, [] => []
    | [], b :: rest =>
      match key with
      | [] => b :: rest
      | k :: ks => (b ^^^ k) :: go ks rest
    | k :: ks, b :: rest => (b ^^^ k) :: go ks rest

/-- The bytes before the first zero byte and those after it. -/
def splitAtZero : Bytes → Option (Bytes × Bytes)
  | [] => none
  | b :: rest =>
    if b = 0 then some ([], rest)
    else (splitAtZero rest).map fun (text, tail) => (b :: text, tail)

end Bytes

end NovelScript
