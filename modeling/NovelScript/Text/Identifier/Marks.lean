import NovelScript.Text.Ranges

/-!
# Characters inside a name
-/

namespace NovelScript.Text

/-- The characters that may stand in a name, but not at its start: digits, combining marks and
connectors. -/
def markRanges : Ranges := Ranges.ofLines
  ["30+9 7D 248+6F 17 FB+4 109+2C 1 1+1 1+1 1 48+A 30+1E 6 65+6 2+5 2+1 1+3 2+9 17 1E+1A 5B+A F+9",
   "21+8 9 18+3 1+8 1+2 1+4 2B+2 3C+7 2A+17 1+20 36+2 1+11 1+6 A+1 2+9 11+2 38 1+6 2+1 2+2 9 A+1",
   "2+9 E 2+2 38 1+4 4+1 2+2 3 14+B 3 B+2 38 1+7 1+2 1+2 14+1 2+9 A+5 1+2 38 1+6 2+1 2+2 7+2 A+1",
   "2+9 12 3B+4 3+2 1+3 9 E+9 10+4 37 1+6 1+2 1+3 7+1 B+1 2+9 11+2 38 1+6 1+2 1+3 7+1 B+1 2+9 10+3",
   "37+1 1+6 1+2 1+3 9 A+1 2+9 11+2 46 4+5 1 1+7 6+9 2+1 3D 1+7 C+7 1+9 57 1+9 B+5 2+9 3E+1 6+9 B",
   "1 1 4+1 31+13 1+1 5+A 1+23 9 64+13 1+9 C+3 4+2 1+2 2+6 3+3 D+B 1+E 2BF+2 9+8 3A0+3 1C+2 1D+1",
   "1E+1 40+1F 9 2+9 21+2 1+A 8F 76+B 4+B A+9 80+A 3C+4 39+9 1+1C 2+A 6+9 16+D 1+F 31+4 2F+10 B+9",
   "11+8 C+2 1E+C 2+9 2C+D 30+13 8+9 6+9 76+2 1+14 4 6 2+2 C6+3F 23F+1 13 7B+C 4 3+B BFE+2 8D",
   "60+1F 22A+5 69+1 7585+9 45 4+9 20+1 50+1 110 3 4 17+4 4 53+1 32+11 A+9 6+11 D+A 1C+7 19+C 2C+3",
   "2F+D F+9 B A+9 2F+D C 8+1 2+9 21+2 32 1+2 2+1 5+1 1 29+4 5+1 EC+7 1+1 2+9 4F24 2E1+F 10+F 3+1",
   "18+2 C0+9 25 5E+1 25D E2 95+4 125+9 557+2 1+1 5+3 28+2 4 A5+1 23D+3 8+9 171+1 99+A 31+3 7A+2",
   "35+E 1F+A 2+1 A+3 2D+A 7 2D+9 6+2 24+D 1+9 5+1 2C C+2 30+D 8+3 1+B 52+B 6 A0+B 5+9 6+3 37+1",
   "1+6 2+1 2+2 9 A+1 2+6 3+4 C0+11 9+9 4 51+13 C+9 D5+6 2+8 1B+1 52+10 F+9 51+C 8+9 53+E 4+9 F2+E",
   "A5+9 46+5 1+1 2+3 1 1+1 C+9 77+6 2+6 3 1C+9 28+6 1+3 8 9+A 2E+F 195+7 1+7 10+9 38+15 1+D 7A+5",
   "3 1+1 1+6 1 8+9 30+4 1+1 1+4 8+9 149+3 4B69+9 56+9 26+4 3B+6 19+9 3F5 1+36 7+3 51 B+1 4CAB+1",
   "1261+2D 2+16 21E+4 3+5 8+7 2+6 1E+3 94+2 589+31 200+36 4+31 8 E 16+4 1+E 550+6 1+10 2+6 1+1",
   "1+4 105+6 9+9 164 3D+D 5D6+6 6D+6 5+9 1296+9 C0506+EF"]

end NovelScript.Text
