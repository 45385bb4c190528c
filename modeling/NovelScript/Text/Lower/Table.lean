import NovelScript.Text.Mapping

/-!
# Small letters
-/

namespace NovelScript.Text

def lowerTable : Mapping := Mapping.ofLines
  ["41+19:61 65+16:E0 1+6:F8 21+2E/2:101 1:69,307 1+4/2:133 2+E/2:13A 2+2C/2:14B 1:FF 0+4/2:17A",
   "3:253 0+2/2:183 1:254 0:188 1+1:256 0:18C 2:1DD 0:259 0:25B 0:192 1:260 0:263 1:269 0:268",
   "0:199 3:26F 0:272 1:275 0+4/2:1A1 1:280 0:1A8 1:283 2:1AD 1:288 0:1B0 1+1:28A 0+2/2:1B4 1:292",
   "0:1B9 3:1BD 7:1C6 0:1C6 1:1C9 0:1C9 1:1CC 0+10/2:1CC 2+10/2:1DF 2:1F3 0+2/2:1F3 1:195 0:1BF",
   "0+26/2:1F9 1:19E 1+10/2:223 7:2C65 0:23C 1:19A 0:2C66 2:242 1:180 0:289 0:28C 0+8/2:247",
   "121+2/2:371 3:377 8:3F3 6:3AC 1+2:3AD 1:3CC 1+1:3CD 1+10:3B1 1+8:3C3 23:3D7 8+16/2:3D9 5:3B8",
   "2:3F8 1:3F2 0:3FB 2+2:37B 0+F:450 0+1F:430 30+20/2:461 9+34/2:48B 1:4CF 0+C/2:4C2 2+5E/2:4D1",
   "2+25:561 B49+25:2D00 1:2D27 5:2D2D 2D2+4F:AB70 0+5:13F8 89A+2A:10D0 2+2:10FD 140+94/2:1E01",
   "9:DF 1+5E/2:1EA1 9+7:1F00 8+5:1F10 A+7:1F20 8+7:1F30 8+5:1F40 B+6/2:1F51 8+7:1F60 18+7:1F80",
   "8+7:1F90 8+7:1FA0 8+1:1FB0 0+1:1F70 0:1FB3 B+3:1F72 0:1FC3 B+1:1FD0 0+1:1F76 C+1:1FE0 0+1:1F7A",
   "0:1FE5 B+1:1F78 0+1:1F7C 0:1FF3 129:3C9 3:6B 0:E5 6:214E 2D+F:2170 13:2184 332+19:24D0",
   "730+2F:2C30 30:2C61 1:26B 0:1D7D 0:27D 2+4/2:2C68 1:251 0:271 0:250 0:252 1:2C73 2:2C76",
   "8+1:23F 0+62/2:2C81 8+2/2:2CEC 4:2CF3 794D+2C/2:A641 13+1A/2:A681 87+C/2:A723 3+3C/2:A733",
   "A+2/2:A77A 1:1D79 0+8/2:A77F 4:A78C 1:265 2+2/2:A791 3+12/2:A797 1:266 0:25C 0:261 0:26C 0:26A",
   "1:29E 0:287 0:29D 0:AB53 0+E/2:A7B5 1:A794 0:282 0:1D8E 0+2/2:A7C8 6:A7D1 5+2/2:A7D7 1C:A7F6",
   "572B+19:FF41 4C5+27:10428 88+23:104D8 9C+A:10597 1+E:105A3 1+6:105B3 1+1:105BB 6EA+32:10CC0",
   "BED+1F:118C0 5580+1F:16E60 7AA0+21:1E922"]

/-- The characters that are passed over when the neighbours of a letter are looked for: marks,
modifiers, apostrophes and points. -/
def passedRanges : Ranges := Ranges.ofLines
  ["27 6 B 23 1 47 4 1 4 2+1 1F7+BF 4+1 4 9+1 1 FB+6 CF 5 31+2C 1 1+1 1+1 1 2C B+5 A+A 1 23 A+14",
   "10 65+7 1+9 1+3 21 1 1E+1A 5B+A 3A+A 4 2 18+17 2B+2 2C 7+1 6+7 29+39 37 1 4+7 4 3+6 A+1 D F 3A",
   "4+3 8 14+1 1A 2+1 39 4+1 4+1 2+2 3 1E+1 3 B+1 39 4+4 1+1 4 14+1 16+5 1 3A 2 1+3 8 7+1 B+1 1E",
   "3D C 32 3 37 1+2 5+2 1+3 7+1 B+1 1D 3A 2 6 5+1 14+1 1C+1 39+1 4+3 8 14+1 1D 48 7+2 1 5A 2+6",
   "B+8 62 2+8 9 1+5 4A+1 1B 1 1 37+D 1+4 1+1 5+A 1+23 9 66+3 1+5 1+1 2+1 19+1 4+2 10+3 D 2+1 6 F",
   "5E 260+2 3B2+2 1D+1 1E+1 1E+1 40+1 1+6 8 2+A 3 5 2D+4 33 41+1 22 76+2 4+1 9 6+2 DB+1 2 3A 1+6",
   "1 1 2+7 6+9 2 27 8+1E 31+3 30 1+4 1 5 28+8 C+1 20+3 2+1 1+2 38 1+1 3 1+2 3A+7 2+1 40+5 52+2",
   "1+C 1+6 4 6 3+1 32+3E D 22+64 1BD 1+2 B+2 D+2 D+2 D+1 C+4 8+1 A 2 2+4 31+4 1+9 1 D 10+C 33+20",
   "B8B+1 71+2 7D F 60+1F 2F 1D5 24+3 3+4 5 5D+5 5D+2 6F16 4E2+5 10E 62+3 1+9 1 1C+3 50+1 E+21 4E",
   "17+2 67+2 3+1 8 3 4 19+1 5 97+1 1A+11 D 26+7 19+A 2E+2 30 2+3 2+1 11 15+1 42+5 2+1 2+1 C 8 23",
   "B 33 1+2 2+1 5+1 1 1B E+1 5+1 1 64+4 9+2 79 2 4 4F30 93+10 23D+F 3 C+F 22 2 A9 7 6 B 23 1 2F",
   "2D+1 43 15+2 201 E2 95+4 405+5 1+29 1+8 246+2 1+1 5+3 28+2 4 A5+1 23D+3 183+1 99+A 31+3 7B",
   "36+E 29 2+1 A+2 31+3 2+1 2 4 A 32+2 24+4 1+7 3E C+1 34+8 A+3 2 5F+2 2 1+1 6 A0 3+7 15+1 39+1 3",
   "25+6 3+4 C3+7 2+2 1 17 54+5 1 4+1 1+1 EE+3 6+1 1+1 1B+1 55+7 2 1+1 6A 1 2+5 1 65+2 2+3 1+4",
   "103+8 1+1 100+1 1 4 90+3 2+1 4 20+9 28+5 2+3 8 9+5 2+2 2E+C 1+1 196+6 1+5 1 52+15 2+6 1+1 1+1",
   "7A+5 3 1+1 1+6 1 48+1 3 1 15B+1 153B+8 36B7+4 3B+6 9+3 40B 3F+10 40+1 1+1 400B+3 1+6 1+1 C9E+1",
   "1+3 125C+2D 2+16 220+2 9+F 2+6 1E+3 94+2 7BB+36 4+31 8 E 16+4 1+E 550+6 1+10 2+6 1+1 1+4 105+D",
   "170 3D+3 5E0+6 6D+7 AAF+4 C0C01 1E+5F 80+EF"]

def casedRanges : Ranges := Ranges.ofLines
  ["41+19 6+19 2F A 4 5+16 1+1E 1+C2 1+3 4+CF 1+1A C0+3 2+1 3+2 1 6 1+2 1 1+13 1+52 1+8A 8+A5 1+25",
   "9+28 B17+25 1 5 2+2A 2+2 2A0+55 2+5 882+8 7+2A 2+2 40+2B 3F+C 1+21 65+115 2+5 2+25 2+5 2+7 1 1",
   "1 1+1E 2+34 1+6 1 3+2 1+6 3+3 2+5 4+C 5+2 1+6 105 4 2+9 1 3+4 6 1 1 1+3 1+5 4 2+3 5+4 4 11+1F",
   "3+1 331+33 716+7B 2+66 6+3 3+1 C+25 1 5 7912+2D 12+1B 86+4D 1+16 3+3 1+3A 5+1 1 1+4 1B+1 3",
   "335+2A 5+8 7+4F 4F40+6 C+4 409+19 6+19 4A5+4F 60+23 4+23 74+A 1+E 1+6 1+1 1+A 1+E 1+6 1+1",
   "6C3+32 D+32 BAD+3F 5560+3F 6580+54 1+46 1+1 2 2+1 2+3 1+B 1 1+6 1+40 1+3 2+7 1+6 1+1B 1+3 1+4",
   "1 3+6 1+153 2+18 1+18 1+1E 1+18 1+1E 1+18 1+1E 1+18 1+1E 1+18 1+7 734+9 1+13 9E1+43 7EC+19",
   "6+19 6+19"]

end NovelScript.Text
