/-!
# Double precision numbers

A number of the 64-bit binary format, kept as its bits. `significand` and `scale` read a finite one
as `m · 2^q`; `ofRatio` rounds an exact fraction to the nearest one, ties to the even significand.
Sums, products and quotients are those of the machine. An operation on what is no number gives it
back, and one without a result gives `invalid`.
-/

namespace NovelScript

/-- A double precision number, by its bits. -/
structure Binary64 where
  /-- Sign, eleven bits of exponent, fifty-two of fraction. -/
  bits : UInt64
  deriving DecidableEq

namespace Binary64

/-! ## Parts -/

def isNegative (x : Binary64) : Bool := Nat.pow 2 63 ≤ x.bits.toNat

def exponentField (x : Binary64) : Nat := x.bits.toNat / Nat.pow 2 52 % 2048

def fraction (x : Binary64) : Nat := x.bits.toNat % Nat.pow 2 52

def isNaN (x : Binary64) : Bool := x.exponentField == 2047 && x.fraction != 0

def isInfinite (x : Binary64) : Bool := x.exponentField == 2047 && x.fraction == 0

def isFinite (x : Binary64) : Bool := x.exponentField != 2047

def isZero (x : Binary64) : Bool := x.bits.toNat % Nat.pow 2 63 == 0

/-- The whole number `m` of the magnitude `m · 2^q`. -/
def significand (x : Binary64) : Nat :=
  if x.exponentField = 0 then x.fraction else x.fraction + Nat.pow 2 52

/-- The exponent `q` of the magnitude `m · 2^q`. -/
def scale (x : Binary64) : Int :=
  if x.exponentField = 0 then -1074 else (x.exponentField : Int) - 1075

/-- A number by its sign and other bits. -/
def withSign (negative : Bool) (magnitude : Nat) : Binary64 :=
  ⟨UInt64.ofNat (magnitude % Nat.pow 2 63 + if negative then Nat.pow 2 63 else 0)⟩

def zero : Binary64 := ⟨0⟩

/-! ## Rounding -/

/-- The fraction `num / den` divided by `2^q`, as a fraction. -/
def shifted (num den : Nat) (q : Int) : Nat × Nat :=
  if 0 ≤ q then (num, den * Nat.pow 2 q.toNat) else (num * Nat.pow 2 (-q).toNat, den)

/-- The magnitude bits of `m · 2^q`, where `m` has at most 53 bits or is `2^53`. -/
def magnitudeBits (m : Nat) (q : Int) : Nat :=
  let (m, q) := if Nat.pow 2 53 ≤ m then (m / 2, q + 1) else (m, q)
  if m < Nat.pow 2 52 then m
  else
    let e := (q + 1075).toNat
    if 2047 ≤ e then 2047 * Nat.pow 2 52 else e * Nat.pow 2 52 + (m - Nat.pow 2 52)

/-- A quotient rounded to the nearest whole number, a tie to the even one. -/
def roundQuotient (num den : Nat) : Nat :=
  let m := num / den
  let r := num % den
  if den < 2 * r ∨ (den = 2 * r ∧ m % 2 = 1) then m + 1 else m

/-- The number nearest to `num / den`, an even significand in a tie, infinite if out of range. -/
def ofRatio (negative : Bool) (num den : Nat) : Binary64 :=
  if num = 0 then withSign negative 0
  else
    let e : Int := (Nat.log2 num : Int) - (Nat.log2 den : Int)
    let q : Int := max (e - 53) (-1074)
    let (n, d) := shifted num den q
    let q := if Nat.pow 2 53 * d ≤ n then q + 1 else q
    let (n, d) := shifted num den q
    withSign negative (magnitudeBits (roundQuotient n d) q)

def ofInt (n : Int) : Binary64 := ofRatio (n < 0) n.natAbs 1

/-- The number nearest to `digits · 10^exponent`. Exponents out of all range are settled at once. -/
def ofDecimal (digits : Nat) (exponent : Int) : Binary64 :=
  let size : Int := (Nat.toDigits 10 digits).length
  if digits = 0 ∨ exponent + size < -400 then zero
  else if 400 < exponent + size then withSign false (2047 * Nat.pow 2 52)
  else if 0 ≤ exponent then ofRatio false (digits * Nat.pow 10 exponent.toNat) 1
  else ofRatio false digits (Nat.pow 10 (-exponent).toNat)

/-- The value as a fraction. -/
def ratio (x : Binary64) : Nat × Nat :=
  if 0 ≤ x.scale then (x.significand * Nat.pow 2 x.scale.toNat, 1)
  else (x.significand, Nat.pow 2 (-x.scale).toNat)

/-! ## Arithmetic -/

def toFloat (x : Binary64) : Float := Float.ofBits x.bits

def ofFloat (f : Float) : Binary64 := ⟨f.toBits⟩

def neg (x : Binary64) : Binary64 := ⟨x.bits ^^^ 0x8000000000000000⟩

def abs (x : Binary64) : Binary64 := ⟨x.bits &&& 0x7FFFFFFFFFFFFFFF⟩

def le (x y : Binary64) : Bool := x.toFloat ≤ y.toFloat

/-- What an operation without a result gives: no number, with the sign bit set. -/
def invalid : Binary64 := ⟨0xFFF8000000000000⟩

/-- An operation of the machine. The first operand that is no number is the result. -/
def operate (f : Float → Float → Float) (x y : Binary64) : Binary64 :=
  if x.isNaN then x
  else if y.isNaN then y
  else
    let z := ofFloat (f x.toFloat y.toFloat)
    if z.isNaN then invalid else z

def add : Binary64 → Binary64 → Binary64 := operate (· + ·)

def sub : Binary64 → Binary64 → Binary64 := operate (· - ·)

def mul : Binary64 → Binary64 → Binary64 := operate (· * ·)

def div : Binary64 → Binary64 → Binary64 := operate (· / ·)

def pow (x y : Binary64) : Binary64 := ofFloat (Float.pow x.toFloat y.toFloat)

/-- The remainder of the division toward zero; it is exact and has the sign of the dividend. -/
def truncatedRem (x y : Binary64) : Binary64 :=
  if x.isNaN then x
  else if y.isNaN then y
  else if x.isInfinite || y.isZero then invalid
  else if y.isInfinite then x
  else
    let (a, b) := x.ratio
    let (c, d) := y.ratio
    ofRatio x.isNegative (a * d % (c * b)) (b * d)

/-- The whole number nearest to a quotient that is whole up to rounding errors. -/
def nearlyWhole (q : Binary64) : Binary64 :=
  let whole := Float.floor q.toFloat
  ofFloat (if q.toFloat - whole > 0.5 then whole + 1.0 else whole)

/-- The quotient and remainder of the division toward minus infinity; the divisor is not zero. -/
def floorDivMod (x y : Binary64) : Binary64 × Binary64 :=
  let r := x.truncatedRem y
  let q := (x.sub r).div y
  if r.isNaN then (q, r)
  else
    let (q, r) :=
      if r.isZero then (q, withSign y.isNegative 0)
      else if y.isNegative != r.isNegative then (q.sub (ofInt 1), r.add y)
      else (q, r)
    if q.isZero then (withSign (x.div y).isNegative 0, r) else (q.nearlyWhole, r)

/-- Whether a number has no fraction. -/
def isWhole (x : Binary64) : Bool :=
  x.isFinite && (let (a, b) := x.ratio; a % b == 0)

end Binary64

end NovelScript
