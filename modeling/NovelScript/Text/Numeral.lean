import NovelScript.Fault
import NovelScript.Text.Numeral.Signs

/-!
# Numerals

Reading a run of digits as a number. Digits of all scripts count by their value; some characters are
numeric without being a digit of a positional system, and a numeral that holds one has no value. Nor
has one with too many digits.
-/

namespace NovelScript.Text

/-- The most digits that are read or written of a whole number. -/
def maxDigits : Nat := 4300

def tooLong : Nat := Nat.pow 10 maxDigits

def digitValue? (c : Char) : Option Nat :=
  (digitRanges.find? c.toNat).map fun (first, _) => (c.toNat - first) % 10

/-- A text that holds at least one character and only numeric ones. -/
def isNumeric (s : String) : Bool :=
  !s.isEmpty && s.toList.all fun c => numericRanges.contains c.toNat

def numeralValue? (digits : List Char) : Option Nat :=
  digits.foldlM (fun n c => (digitValue? c).map fun d => 10 * n + d) 0

/-- The value of a numeral. -/
def readNumeral (s : String) : Except Fault Nat := do
  require (s.length ≤ maxDigits) Cause.longNumber
  orFault (numeralValue? s.toList) (Cause.notNumeral s)

end NovelScript.Text
