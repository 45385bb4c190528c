import NovelScript.Text.Ranges

/-!
# Combining classes
-/

namespace NovelScript.Text

/-- The classes of combining marks. Marks of different classes do not disturb each other, and stand
in the order of their classes. -/
def classRanges : List (Nat × Ranges) :=
  [(0x1, ["334+4 199B D+6 3E9+1 4+2 A+1 3+1 E94D 60B6+4 51A9 14C8+2"]),
   (0x6, ["16FF0+1"]),
   (0x7, ["93C 7F 7F 7F 7F FF 7F 37A AFC B1 50 8D7B 6706 B8 56 6B B2 51+1 109 7C FC F6 182 108 3FE",
      "CC07"]),
   (0x8, ["3099+1"]),
   (0x9, ["94D 7F 7F 7F 7F 7F 7F 7F 6D+1 10 7C 6F 7F C9 B4+1 6D9+1 1E 9D 28D E3 65+1 46+1 118B",
      "7A86 25 97 8E 6C 135 F6 5E51 606 29 E 39 79+1 8B 74 B4 62 F4 7F FC 7F 76 74 10D 103+1 A1 53",
      "12 51 1A5 104+1 51"]),
   (0xA, ["5B0"]),
   (0xB, ["5B1"]),
   (0xC, ["5B2"]),
   (0xD, ["5B3"]),
   (0xE, ["5B4"]),
   (0xF, ["5B5"]),
   (0x10, ["5B6"]),
   (0x11, ["5B7"]),
   (0x12, ["5B8 E"]),
   (0x13, ["5B9+1"]),
   (0x14, ["5BB"]),
   (0x15, ["5BC"]),
   (0x16, ["5BD"]),
   (0x17, ["5BF"]),
   (0x18, ["5C1"]),
   (0x19, ["5C2"]),
   (0x1A, ["FB1E"]),
   (0x1B, ["64B 2A4"]),
   (0x1C, ["64C 2A4"]),
   (0x1D, ["64D 2A4"]),
   (0x1E, ["618 35"]),
   (0x1F, ["619 35"]),
   (0x20, ["61A 35"]),
   (0x21, ["651"]),
   (0x22, ["652"]),
   (0x23, ["670"]),
   (0x24, ["711"]),
   (0x54, ["C55"]),
   (0x5B, ["C56"]),
   (0x67, ["E38+1"]),
   (0x6B, ["E48+3"]),
   (0x76, ["EB8+1"]),
   (0x7A, ["EC8+3"]),
   (0x81, ["F71"]),
   (0x82, ["F72 7+3 2"]),
   (0x84, ["F74"]),
   (0xCA, ["321+1 4+1 1AA7"]),
   (0xD6, ["1DCE"]),
   (0xD8, ["31B C1D 1C22B+1 7+4"]),
   (0xDA, ["1DFA 122F"]),
   (0xDC, ["316+3 2+4 2+3 2+A 5+3 A+2 3+1 4+3 2+1 236 4 4 6+5 2 1A 8F+1 5 2 83 6 2 43 2 2+2 1+1 1",
      "3 1 1 1 A9 A 5B+2 3D+2 33+4 F 2 2 3+2 6 2+1 57 5C5+1 1B 1 8E C6 8AD DC 66 35+5 2 1+1 2+1 5",
      "A1 168+4 2+3 D D4 7 4 29 3 1 2E8 3+3 883B+2 186 5372+6 3CF E2 72C 2C AB 45F+1 3 1+3 32 1",
      "C1F5+7 7+1 1744+6"]),
   (0xDE, ["59A 12 138B 16F3"]),
   (0xE0, ["302E+1"]),
   (0xE2, ["1D16D"]),
   (0xE4, ["5AE 12FA 54D+1 1232"]),
   (0xE6, ["300+14 28+7 1 3+2 3+2 4 3 7+C 113+4 10A+3 1+2 2+5 6+1 1+1 2 14 4B+7 3B+1 2+4 1+1 77+6",
      "2+3 1 2+1 2+1 43 1+1 1+1 3 2 1+2 1 1 1 1+1 A0+6 1 22+3 1+8 1+2 1+4 6A 3+3 2A+4 5+D 2+1 1+1",
      "1+2 6+2 1+1 2+4 51 1+1 A9 583+1 2+1 3D5+2 47D 15C DC 5D+7 33+4 6+1 4+1 2+4 1+3 9C 1+6 15C+2",
      "7+1 4 13 3+1 C6+1 1+6 1+1 4+24 5 2 2D1+1 2+3 3+1 4 5 1 6 BFE+2 EE+1F 786F 4+9 20+1 50+1",
      "1EE+11 1BE 1+1 3+1 5+1 1 535E+6 7+1 546+4 694 28 AC 23E+3 183+1 9B+2 1 35 1 17B+2 263+6 3+4",
      "E9 56D1+6 664E+4 20+3 94+2 DBB+6 1+10 2+6 1+1 1+4 105+6 177 3D+3 654+5"]),
   (0xE8, ["315 4 3D 1A9D 1235"]),
   (0xE9, ["35C 2 2 1A99"]),
   (0xEA, ["35D+1 1+1 1A6B"]),
   (0xF0, ["345"])].map fun (number, lines) => (number, Ranges.ofLines lines)

end NovelScript.Text
