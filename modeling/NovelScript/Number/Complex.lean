import NovelScript.Number.Binary64

/-!
# Complex numbers

Pairs of double precision numbers. A quotient is scaled by the larger part of the divisor, so that
it neither overflows nor vanishes early. A power with a small whole exponent is a product; any other
goes through the polar form.
-/

namespace NovelScript

/-- A complex number. -/
structure ComplexNumber where
  re : Binary64
  im : Binary64
  deriving DecidableEq

namespace Binary64

/-! ## Distances -/

/-- The square root of the sum of the squares of two numbers that are not negative, the greater one
first: the root as the machine gives it, with one step of correction. -/
def correctedRoot (x y : Float) : Float :=
  let h := Float.sqrt (x * x + y * y)
  let rest :=
    if h ≤ 2.0 * y then
      let d := h - y
      x * (2.0 * d - x) + (d - 2.0 * (x - y)) * d
    else
      let d := h - x
      2.0 * d * (x - 2.0 * y) + ((4.0 * d - y) * y + d * d)
  h - rest / (2.0 * h)

/-- A power of two that is not too small for a normal number. -/
def powerOfTwo (exponent : Int) : Float :=
  (withSign false ((exponent + 1023).toNat * Nat.pow 2 52)).toFloat

/-- The distance for finite coordinates that are not negative, the greater one first. What is far
out or close to the origin is scaled, and a coordinate that is lost in the other is added to it. -/
def scaledDistance (x y : Float) : Float :=
  let scale := powerOfTwo (-600)
  let unseen := powerOfTwo (-54)
  if powerOfTwo 511 < x then
    if y ≤ x * unseen then x + y else correctedRoot (x * scale) (y * scale) / scale
  else if y < powerOfTwo (-459) then
    if y / unseen ≤ x then x + y else correctedRoot (x / scale) (y / scale) * scale
  else if y ≤ x * unseen then x + y
  else correctedRoot x y

def distance (x y : Binary64) : Binary64 :=
  if x.isInfinite || y.isInfinite then withSign false (2047 * Nat.pow 2 52)
  else if x.isNaN || y.isNaN then x.add y
  else if x.abs.le y.abs then ofFloat (scaledDistance y.abs.toFloat x.abs.toFloat)
  else ofFloat (scaledDistance x.abs.toFloat y.abs.toFloat)

end Binary64

namespace ComplexNumber

def ofReal (x : Binary64) : ComplexNumber := ⟨x, Binary64.zero⟩

def one : ComplexNumber := ofReal (Binary64.ofInt 1)

def isZero (a : ComplexNumber) : Bool := a.re.isZero && a.im.isZero

def add (a b : ComplexNumber) : ComplexNumber := ⟨a.re.add b.re, a.im.add b.im⟩

def sub (a b : ComplexNumber) : ComplexNumber := ⟨a.re.sub b.re, a.im.sub b.im⟩

def neg (a : ComplexNumber) : ComplexNumber := ⟨a.re.neg, a.im.neg⟩

def mul (a b : ComplexNumber) : ComplexNumber :=
  ⟨(a.re.mul b.re).sub (a.im.mul b.im), (a.re.mul b.im).add (a.im.mul b.re)⟩

/-- The quotient, where the divisor is not zero. -/
def div (a b : ComplexNumber) : Option ComplexNumber :=
  if b.isZero then none
  else if b.re.isNaN || b.im.isNaN then
    let missing := b.re.add b.im
    some ⟨missing, missing⟩
  else if b.im.abs.le b.re.abs then
    let ratio := b.im.div b.re
    let size := b.re.add (b.im.mul ratio)
    some ⟨(a.re.add (a.im.mul ratio)).div size, (a.im.sub (a.re.mul ratio)).div size⟩
  else
    let ratio := b.re.div b.im
    let size := (b.re.mul ratio).add b.im
    some ⟨((a.re.mul ratio).add a.im).div size, ((a.im.mul ratio).sub a.re).div size⟩

/-! ## Powers -/

/-- The product of `done` and the power of `square` with a whole exponent below two to the number of
steps, by its binary digits from the lowest on. -/
def powerProduct : (steps : Nat) → (exponent : Nat) → (done square : ComplexNumber) → ComplexNumber
  | 0, _, done, _ => done
  | steps + 1, exponent, done, square =>
    if exponent = 0 then done
    else
      powerProduct steps (exponent / 2) (if exponent % 2 = 1 then done.mul square else done)
        (square.mul square)

/-- The power with a whole exponent of at most 100 and the given sign. -/
def powWhole (a : ComplexNumber) (negative : Bool) (exponent : Nat) : Option ComplexNumber :=
  let p := powerProduct 7 exponent one a
  if negative || exponent = 0 then one.div p else some p

/-- The power through the polar form: the size of the base is raised, and its angle multiplied. A
turn without end has no direction. -/
def powPolar (a b : ComplexNumber) : Option ComplexNumber :=
  let radius := (a.re.distance a.im).toFloat
  let angle := Float.atan2 a.im.toFloat a.re.toFloat
  let (x, y) := (b.re.toFloat, b.im.toFloat)
  let (size, turn) :=
    if b.im.isZero then (Float.pow radius x, angle * x)
    else (Float.pow radius x / Float.exp (angle * y), angle * x + y * Float.log radius)
  if (Binary64.ofFloat turn).isInfinite then none
  else
    some ⟨Binary64.ofFloat (size * Float.cos turn), Binary64.ofFloat (size * Float.sin turn)⟩

/-- The power of a base that is not zero, or of zero with a real exponent that is not negative. -/
def powAny (a b : ComplexNumber) : Option ComplexNumber :=
  if b.isZero then some one
  else if a.isZero then
    if b.im.isZero && !(b.re.isNegative && !b.re.isNaN) then some (ofReal Binary64.zero) else none
  else powPolar a b

def maxWhole : Nat := 100

/-- An exponent that powers are multiplied for. -/
def smallExponent? (b : ComplexNumber) : Option Nat :=
  if b.im.isZero && b.re.isWhole then
    let (n, d) := b.re.ratio
    if n / d ≤ maxWhole then some (n / d) else none
  else none

/-- The power, unless it is not defined or out of range. -/
def pow (a b : ComplexNumber) : Option ComplexNumber := do
  let p ← match smallExponent? b with
    | some n => a.powWhole b.re.isNegative n
    | none => a.powAny b
  if p.re.isInfinite || p.im.isInfinite then none else some p

end ComplexNumber

end NovelScript
