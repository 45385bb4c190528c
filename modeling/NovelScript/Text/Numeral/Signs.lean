import NovelScript.Text.Ranges

/-!
# Numeric characters
-/

namespace NovelScript.Text

/-- The characters with a numeric value: digits of all scripts, fractions, number forms, enclosed
numbers and ideographic numbers. -/
def numericRanges : Ranges := Ranges.ofLines
  ["30+9 78+1 5 2+2 5A1+9 86+9 C6+9 19C+9 76+9 4+5 6C+9 76+9 76+9 2+5 6E+C 73+9 8+6 67+9 68+6 7+12",
   "6D+9 60+9 76+9 46+13 10C+9 46+9 2CF+13 371+2 EF+9 6+9 16+9 12C+9 80+A A5+9 6+9 B6+9 56+9 86+9",
   "6+9 416 3+5 6+9 C6+32 2+4 2D6+3B 4E+15 276+1D 569 309 19+8 E+2 157+3 8A+9 1E+7 1+E 20+9 27+E",
   "145 7D 3A6 322 12B2 2 3 1 53 2E 7 1 28+1 1E 8 24 62 193 41 22 1 1 1D3 1+2 6 74+3 316 215 7 580",
   "83+1 C+2 1 3ED 4D 485 733 48F 2E7 A07 3A5 881 4 7C 8F0 24 5 2B 7D F29+9 BC+9 140+5 9A+9 26+9",
   "C6+9 16+9 56+9 196+9 4D71 7 4 39 1E 1 29 512+9 1ED+2C C+38 11+1 155+1A 24+3 1D 8 86+4 CA+9",
   "3AE+7 19+6 27+8 4B+4 16+5 A0+1 2+F 2+2D 40+8 34+1 1E+2 4B+4 68+7 18+7 29+6 14A+5 30+9 126+1E",
   "9E+9 2A+3 70+6 86+1D 80+9 3C+9 90+9 7+13 FB+9 156+9 76+9 176+9 66+9 66+B 1A4+12 5D+9 2F6+1C",
   "E3+9 46+9 216+14 42B+6E 45F1+9 56+9 86+9 1+6 31E+16 6449+13 6C+18 455+31 940+9 1A6+9 5CD+8",
   "80+9 317+3A 1+2 1+3 4C+2C 1+E 3C2+C AE3+9 407 62 7D 3E 808 58 8 F 14D 12 1B 1876 607 1182 2751",
   "9622"]

/-- The decimal digits. Each range is one or more rows of ten digits, each starting with its
zero. -/
def digitRanges : Ranges := Ranges.ofLines
  ["30+9 626+9 86+9 C6+9 19C+9 76+9 76+9 76+9 76+9 76+9 76+9 76+9 76+9 76+9 60+9 76+9 46+9 116+9",
   "46+9 746+9 26+9 12C+9 80+9 A6+9 6+9 B6+9 56+9 86+9 6+9 89C6+9 2A6+9 26+9 C6+9 16+9 56+9 196+9",
   "5316+9 586+9 886+9 32C+9 80+9 3C+9 90+9 116+9 156+9 76+9 176+9 66+9 66+9 1A6+9 66+9 2F6+9 F6+9",
   "46+9 4CB6+9 56+9 86+9 6C74+31 940+9 1A6+9 656+9 1296+9"]

end NovelScript.Text
