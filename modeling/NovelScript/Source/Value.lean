import NovelScript.Number.Complex
import NovelScript.Position
import NovelScript.Source.Syntax

/-!
# Values of constant expressions

The values that constants stand for, and the arithmetic on them that is done before anything runs.
An operation gives nothing where it is not defined, and also where its result would be too large:
whole numbers beyond 128 bits, texts beyond 4096 characters, tuples beyond 256 items or beyond 1024
items with those inside.
-/

namespace NovelScript

/-- Values of constant expressions. -/
inductive Value where
  | none
  | ellipsis
  | bool (value : Bool)
  | int (value : Int)
  | float (value : Binary64)
  | complex (value : ComplexNumber)
  | text (value : Wording)
  | bytes (value : Bytes)
  | tuple (items : List Value)
  | collection

def Constant.value : Constant → Value
  | none => .none
  | ellipsis => .ellipsis
  | bool b => .bool b
  | int n => .int n
  | float x => .float x
  | imaginary x => .complex ⟨Binary64.zero, x⟩
  | text s _ => .text s
  | bytes b => .bytes b

namespace Value

/-! ## Kinds -/

/-- Whether a value counts as true. -/
def isTrue : Value → Bool
  | none => false
  | ellipsis => true
  | bool b => b
  | int n => n != 0
  | float x => !x.isZero
  | complex z => !z.isZero
  | text s => !s.isEmpty
  | bytes b => !b.isEmpty
  | tuple items => !items.isEmpty
  | collection => true

mutual

/-- Whether a value can be a key. -/
def isKey : Value → Bool
  | tuple items => areKeys items
  | collection => false
  | _ => true

def areKeys : List Value → Bool
  | [] => true
  | v :: rest => isKey v && areKeys rest

end

/-- The whole number that a value is, a truth value counting as zero or one. -/
def whole? : Value → Option Int
  | int n => some n
  | bool b => some (if b then 1 else 0)
  | _ => Option.none

/-! ## Numbers -/

def bitLength (n : Int) : Nat := if n = 0 then 0 else Nat.log2 n.natAbs + 1

def maxBits : Nat := 128

/-- The double precision number nearest to a whole number, unless it is out of range. -/
def toFloat? (n : Int) : Option Binary64 :=
  let x := Binary64.ofInt n
  if x.isFinite then some x else Option.none

/-- Two numbers of one kind. -/
inductive Numbers where
  | ints (a b : Int)
  | floats (a b : Binary64)
  | complexes (a b : ComplexNumber)

def float? : Value → Option Binary64
  | float x => some x
  | v => v.whole?.bind toFloat?

def complex? : Value → Option ComplexNumber
  | complex z => some z
  | v => v.float?.map ComplexNumber.ofReal

/-- Two values as numbers of one kind. -/
def numbers? (v w : Value) : Option Numbers :=
  match v, w with
  | complex _, _ => do return .complexes (← v.complex?) (← w.complex?)
  | _, complex _ => do return .complexes (← v.complex?) (← w.complex?)
  | float _, _ => do return .floats (← v.float?) (← w.float?)
  | _, float _ => do return .floats (← v.float?) (← w.float?)
  | _, _ => do return .ints (← v.whole?) (← w.whole?)

def isOdd (x : Binary64) : Bool :=
  x.isWhole && (let (n, d) := x.ratio; n / d % 2 == 1)

/-- The power of a base with an infinite exponent: only whether the base is inside or outside the
unit counts. -/
def infinitePow (x y : Binary64) : Binary64 :=
  let one := Binary64.ofInt 1
  if x.abs = one then one
  else if y.isNegative == one.le x.abs then Binary64.zero
  else y.abs

/-- The power of an infinite base, whose sign stays with an odd exponent. -/
def powOfInfinite (x y : Binary64) : Binary64 :=
  let size := if y.isNegative then Binary64.zero else x.abs
  Binary64.withSign (x.isNegative && isOdd y) size.bits.toNat

/-- The power of double precision numbers. A negative base with a broken exponent has a complex
power. -/
def floatPow (x y : Binary64) : Option Value :=
  if y.isZero then some (float (Binary64.ofInt 1))
  else if x.isNaN then some (float x)
  else if y.isNaN then some (float (if x = Binary64.ofInt 1 then x else y))
  else if y.isInfinite then some (float (infinitePow x y))
  else if x.isInfinite then some (float (powOfInfinite x y))
  else if x.isZero then
    if y.isNegative then Option.none else some (float (if isOdd y then x else Binary64.zero))
  else if x.isNegative && !y.isWhole then
    ((ComplexNumber.ofReal x).pow (ComplexNumber.ofReal y)).map complex
  else
    let z := x.abs.pow y
    if z.isInfinite then Option.none
    else some (float (if x.isNegative && isOdd y then z.neg else z))

/-- The power of whole numbers. A negative exponent gives a broken number. -/
def intPow (a b : Int) : Option Value :=
  if 0 ≤ b then
    if b = 0 then some (int 1)
    else if a = 0 then some (int 0)
    else if maxBits < bitLength a * b.toNat then Option.none
    else some (int (a.pow b.toNat))
  else do floatPow (← toFloat? a) (← toFloat? b)

def intDiv (a b : Int) : Option Value :=
  if b = 0 then Option.none
  else
    let x := Binary64.ofRatio ((a < 0) != (b < 0)) a.natAbs b.natAbs
    if x.isFinite then some (float x) else Option.none

/-! ## Operators -/

def maxText : Nat := 4096

def maxItems : Nat := 256

/-- Whether a whole number can count items at all: it has at most 63 bits and a sign. -/
def isCount (n : Int) : Bool := -0x8000000000000000 ≤ n && n < 0x8000000000000000

/-- The most items of a repeated tuple, with the items of the tuples inside it. -/
def maxNested : Nat := 1024

mutual

/-- How many items are nested in a value. -/
def nested : Value → Nat
  | tuple items => items.length + nestedIn items
  | _ => 0

def nestedIn : List Value → Nat
  | [] => 0
  | v :: rest => nested v + nestedIn rest

end

/-- How often something of a size is repeated, if the result is not too large. -/
def repetitions (limit size : Nat) (n : Int) : Option Nat :=
  if size = 0 then (if isCount n then some 0 else Option.none)
  else if n < 0 ∨ ((limit / size : Nat) : Int) < n then Option.none
  else some n.toNat

/-- A text or items repeated. -/
def repeated (n : Int) : Value → Option Value
  | text s => (repetitions maxText s.length n).map fun k => text (.join (List.replicate k s))
  | bytes b => (repetitions maxText b.length n).map fun k => bytes (List.replicate k b).flatten
  | tuple items => do
    let k ← repetitions maxItems items.length n
    if k ≠ 0 ∧ maxNested / k < nested (tuple items) then Option.none
    else some (tuple (List.replicate k items).flatten)
  | _ => Option.none

def add (v w : Value) : Option Value :=
  match v, w with
  | text a, text b => some (text (a ++ b))
  | bytes a, bytes b => some (bytes (a ++ b))
  | tuple a, tuple b => some (tuple (a ++ b))
  | _, _ =>
    match numbers? v w with
    | some (.ints a b) => some (int (a + b))
    | some (.floats a b) => some (float (a.add b))
    | some (.complexes a b) => some (complex (a.add b))
    | Option.none => Option.none

def sub (v w : Value) : Option Value :=
  match numbers? v w with
  | some (.ints a b) => some (int (a - b))
  | some (.floats a b) => some (float (a.sub b))
  | some (.complexes a b) => some (complex (a.sub b))
  | Option.none => Option.none

def mul (v w : Value) : Option Value :=
  match numbers? v w with
  | some (.ints a b) =>
    if a ≠ 0 ∧ b ≠ 0 ∧ maxBits < bitLength a + bitLength b then Option.none else some (int (a * b))
  | some (.floats a b) => some (float (a.mul b))
  | some (.complexes a b) => some (complex (a.mul b))
  | Option.none =>
    match v.whole?, w.whole? with
    | some n, Option.none => repeated n w
    | Option.none, some n => repeated n v
    | _, _ => Option.none

def div (v w : Value) : Option Value :=
  match numbers? v w with
  | some (.ints a b) => intDiv a b
  | some (.floats a b) => if b.isZero then Option.none else some (float (a.div b))
  | some (.complexes a b) => (a.div b).map complex
  | Option.none => Option.none

def floorDiv (v w : Value) : Option Value :=
  match numbers? v w with
  | some (.ints a b) => if b = 0 then Option.none else some (int (a.fdiv b))
  | some (.floats a b) => if b.isZero then Option.none else some (float (a.floorDivMod b).1)
  | _ => Option.none

def mod (v w : Value) : Option Value :=
  match numbers? v w with
  | some (.ints a b) => if b = 0 then Option.none else some (int (a.fmod b))
  | some (.floats a b) => if b.isZero then Option.none else some (float (a.floorDivMod b).2)
  | _ => Option.none

def pow (v w : Value) : Option Value :=
  match numbers? v w with
  | some (.ints a b) => intPow a b
  | some (.floats a b) => floatPow a b
  | some (.complexes a b) => (a.pow b).map complex
  | Option.none => Option.none

def shiftLeft (v w : Value) : Option Value := do
  let a ← v.whole?
  let b ← w.whole?
  if b < 0 ∨ (a ≠ 0 ∧ b ≠ 0 ∧ (maxBits : Int) < bitLength a + b) then Option.none
  else some (int (if a = 0 then 0 else a * (Nat.pow 2 b.toNat : Nat)))

def shiftRight (v w : Value) : Option Value := do
  let a ← v.whole?
  let b ← w.whole?
  if b < 0 then Option.none
  else if bitLength a ≤ b.toNat then some (int (if a < 0 then -1 else 0))
  else some (int (a.fdiv (Nat.pow 2 b.toNat : Nat)))

/-- A whole number as an infinite row of bits, by the sign and the bits of the other sign's
complement. -/
def bitAt (n : Int) (i : Nat) : Bool :=
  match n with
  | .ofNat m => m.testBit i
  | .negSucc m => !m.testBit i

def ofBits (negative : Bool) (bit : Nat → Bool) (width : Nat) : Int :=
  (List.range width).foldl (fun n i => if bit i then n + (Nat.pow 2 i : Nat) else n)
    (if negative then -((Nat.pow 2 width : Nat) : Int) else 0)

def bitwiseInt (f : Bool → Bool → Bool) (a b : Int) : Int :=
  let width := max (bitLength a) (bitLength b) + 1
  ofBits (f (a < 0) (b < 0)) (fun i => f (bitAt a i) (bitAt b i)) width

/-- An operation on bits. -/
def bitwise (f : Bool → Bool → Bool) (v w : Value) : Option Value :=
  match v, w with
  | bool a, bool b => some (bool (f a b))
  | _, _ => do return int (bitwiseInt f (← v.whole?) (← w.whole?))

/-- The value of an operator. -/
def binary : BinaryOp → Value → Value → Option Value
  | .add => add
  | .sub => sub
  | .mul => mul
  | .matMul => fun _ _ => Option.none
  | .div => div
  | .mod => mod
  | .floorDiv => floorDiv
  | .pow => pow
  | .shiftLeft => shiftLeft
  | .shiftRight => shiftRight
  | .bitAnd => bitwise (· && ·)
  | .bitOr => bitwise (· || ·)
  | .bitXor => bitwise (· != ·)

/-- The value of a sign. -/
def unary (op : UnaryOp) (v : Value) : Option Value :=
  match op with
  | .not => some (bool (!v.isTrue))
  | .invert => v.whole?.map fun n => int (-n - 1)
  | .plus =>
    match v with
    | float x => some (float x)
    | complex z => some (complex z)
    | _ => v.whole?.map int
  | .minus =>
    match v with
    | float x => some (float x.neg)
    | complex z => some (complex z.neg)
    | _ => v.whole?.map fun n => int (-n)

/-- The item at an index. -/
def item (v index : Value) : Option Value := do
  let n ← index.whole?
  match v with
  | text s => (itemAt? s.signs n).map fun c => text ⟨[c]⟩
  | bytes b => (itemAt? b n).map fun x => int x.toNat
  | tuple items => itemAt? items n
  | _ => Option.none

end Value

end NovelScript
