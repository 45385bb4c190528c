import NovelScript.Number.Binary64

/-!
# Shortest decimals

The text of a double precision number: the fewest digits that read back as the number, and of these
the nearest to it. Numbers from `10^-4` up to below `10^16` are written positionally with a point,
all others with an exponent.
-/

namespace NovelScript.Binary64

/-! ## Digits -/

def tenPowerLe (k : Int) (num den : Nat) : Bool :=
  if 0 ≤ k then Nat.pow 10 k.toNat * den ≤ num else den ≤ num * Nat.pow 10 (-k).toNat

/-- The exponent of the leading decimal digit of `num / den`, for a positive fraction. -/
def leadingExponent (num den : Nat) : Int :=
  let a : Int := (Nat.log2 num : Int) - (Nat.log2 den : Int) - 2
  let k := Int.fdiv (a * 30103) 100000
  let k := if tenPowerLe (k + 1) num den then k + 1 else k
  let k := if tenPowerLe (k + 1) num den then k + 1 else k
  if tenPowerLe (k + 1) num den then k + 1 else k

/-- The interval of fractions that round to a number, over one denominator: the lower end, the
number, the upper end and the denominator. The ends belong to it if the significand is even. -/
structure Rounding where
  low : Nat
  value : Nat
  high : Nat
  den : Nat
  closed : Bool

/-- The numbers that round to a double. -/
def rounding (x : Binary64) : Rounding :=
  let m := x.significand
  let q := x.scale - 2
  let below := if m = Nat.pow 2 52 ∧ 1 < x.exponentField then 1 else 2
  let (k, den) := if 0 ≤ q then (Nat.pow 2 q.toNat, 1) else (1, Nat.pow 2 (-q).toNat)
  { low := (4 * m - below) * k, value := 4 * m * k, high := (4 * m + 2) * k, den := den
    closed := m % 2 == 0 }

/-- Whether `d · 10^g` lies in the interval. -/
def Rounding.holds (r : Rounding) (d : Nat) (g : Int) : Bool :=
  let (scaled, factor) :=
    if 0 ≤ g then (d * Nat.pow 10 g.toNat * r.den, 1) else (d * r.den, Nat.pow 10 (-g).toNat)
  if r.closed then r.low * factor ≤ scaled && scaled ≤ r.high * factor
  else r.low * factor < scaled && scaled < r.high * factor

/-- The nearest point of the grid of step `10^g` that lies in the interval, if there is one: only
the two neighbours of the value need to be looked at. -/
def Rounding.gridPoint? (r : Rounding) (g : Int) : Option Nat :=
  let (num, unit) :=
    if 0 ≤ g then (r.value, Nat.pow 10 g.toNat * r.den)
    else (r.value * Nat.pow 10 (-g).toNat, r.den)
  let d := num / unit
  let rest := num % unit
  match r.holds d g, r.holds (d + 1) g with
  | true, true => some (if 2 * rest < unit ∨ (2 * rest = unit ∧ d % 2 = 0) then d else d + 1)
  | true, false => some d
  | false, true => some (d + 1)
  | false, false => none

/-- The fewest digits that do. -/
def Rounding.search (r : Rounding) (k : Int) : (tries digits : Nat) → Nat × Int
  | 0, digits => (0, k + 1 - digits)
  | tries + 1, digits =>
    let g : Int := k + 1 - digits
    match r.gridPoint? g with
    | some d => (d, g)
    | none => r.search k tries (digits + 1)

/-- The shortest digits `d` and exponent `g` such that `d · 10^g` reads back as the number. -/
def shortest (x : Binary64) : Nat × Int :=
  let r := x.rounding
  r.search (leadingExponent r.value r.den) 20 1

/-! ## Text -/

/-- Drops the zeros at the end of a number, counting them into the exponent. -/
def dropZeros : (fuel : Nat) → Nat → Int → Nat × Int
  | 0, d, g => (d, g)
  | fuel + 1, d, g => if d % 10 = 0 ∧ d ≠ 0 then dropZeros fuel (d / 10) (g + 1) else (d, g)

def exponentText (e : Int) : String :=
  let digits := toString e.natAbs
  (if e < 0 then "e-" else "e+") ++ (if digits.length < 2 then "0" ++ digits else digits)

def zeros (n : Nat) : String := String.ofList (List.replicate n '0')

/-- Digits with a point or an exponent. -/
def decimalText (d : Nat) (g : Int) : String :=
  let (d, g) := dropZeros 20 d g
  let digits := (Nat.toDigits 10 d)
  let e : Int := g + digits.length - 1
  if -4 ≤ e ∧ e < 16 then
    if 0 ≤ g then String.ofList digits ++ zeros g.toNat ++ ".0"
    else if 0 ≤ e then
      let whole := (e + 1).toNat
      String.ofList (digits.take whole) ++ "." ++ String.ofList (digits.drop whole)
    else "0." ++ zeros (-e - 1).toNat ++ String.ofList digits
  else
    match digits with
    | [c] => c.toString ++ exponentText e
    | c :: rest => c.toString ++ "." ++ String.ofList rest ++ exponentText e
    | [] => ""

/-- The shortest text of a number. -/
def text (x : Binary64) : String :=
  if x.isNaN then "nan"
  else
    let sign := if x.isNegative then "-" else ""
    if x.isInfinite then sign ++ "inf"
    else if x.isZero then sign ++ "0.0"
    else
      let (d, g) := x.shortest
      sign ++ decimalText d g

end NovelScript.Binary64
