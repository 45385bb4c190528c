import NovelScript.Checksum
import NovelScript.Position

/-!
# Inflating

Reading compressed data: a header of two bytes, blocks of literals and back references, and a
checksum of the result. A block is stored as it is, or coded with a fixed or a transmitted pair of
prefix codes. Whatever comes after the checksum is not looked at.

A code is a binary tree. Decoding follows the bits down the tree; the loops over symbols and blocks
carry the number of bits as fuel, and each step takes at least one bit.
-/

namespace NovelScript.Inflate

/-! ## Bits -/

/-- The bits of a byte, lowest first. -/
def byteBits (b : UInt8) : List Bool := (List.range 8).map fun i => b.toNat.testBit i

def bitsOf (data : Bytes) : List Bool := data.flatMap byteBits

/-- The number in the next `n` bits, lowest first, and what follows. -/
def takeBits : (n : Nat) → List Bool → Option (Nat × List Bool)
  | 0, bits => some (0, bits)
  | n + 1, bit :: rest =>
    (takeBits n rest).map fun (value, rest) => (bit.toNat + 2 * value, rest)
  | _ + 1, [] => none

/-- The bits from the next byte boundary on. The bits left of a whole number of bytes are so many
that their number modulo eight is the distance to the boundary. -/
def alignToByte (bits : List Bool) : List Bool := bits.drop (bits.length % 8)

/-- Takes whole bytes. -/
def takeBytes : (n : Nat) → List Bool → Array UInt8 → Option (Array UInt8 × List Bool)
  | 0, bits, out => some (out, bits)
  | n + 1, bits, out =>
    match takeBits 8 bits with
    | some (value, rest) => takeBytes n rest (out.push (UInt8.ofNat value))
    | none => none

/-! ## Prefix codes -/

/-- A prefix code: the symbol that a sequence of bits leads to. -/
inductive Code where
  | unused
  | symbol (value : Nat)
  | branch (ifZero ifOne : Code)

namespace Code

/-- Adds a symbol to a code. -/
def insert : List Bool → Nat → Code → Code
  | [], value, _ => symbol value
  | bit :: rest, value, code =>
    let (zero, one) := match code with
      | branch ifZero ifOne => (ifZero, ifOne)
      | _ => (unused, unused)
    if bit then branch zero (insert rest value one) else branch (insert rest value zero) one

/-- Takes the next symbol. -/
def decode : Code → List Bool → Option (Nat × List Bool)
  | symbol value, bits => some (value, bits)
  | unused, _ => none
  | branch _ _, [] => none
  | branch ifZero ifOne, bit :: rest => if bit then ifOne.decode rest else ifZero.decode rest

/-- The `length` low bits of a number, highest first. -/
def bitsHighFirst (length n : Nat) : List Bool :=
  (List.range length).map fun i => n.testBit (length - 1 - i)

/-- The first number of each length in the canonical code with the given lengths. -/
def firstNumbers (lengths : List Nat) : List Nat :=
  let counts := (List.range 16).map fun l => if l = 0 then 0 else lengths.count l
  (counts.foldl (fun (numbers, next) count => (numbers ++ [2 * next], 2 * next + count))
    (([] : List Nat), 0)).1

/-- The canonical code: shorter words before longer ones, and by symbol within a length. -/
def ofLengths (lengths : List Nat) : Code :=
  (lengths.zipIdx.foldl (fun (code, numbers) (length, value) =>
    if length = 0 then (code, numbers)
    else
      let number := numbers.getD length 0
      (insert (bitsHighFirst length number) value code, numbers.set length (number + 1)))
    (unused, firstNumbers lengths)).1

/-- The share of all words of 15 bits that a code with these lengths takes. -/
def share (lengths : List Nat) : Nat :=
  total (lengths.map fun l => if l = 0 then 0 else Nat.pow 2 (15 - l))

/-- Lengths that leave no word unused. -/
def isComplete (lengths : List Nat) : Bool := share lengths == 32768

/-- Lengths of a code that may be transmitted: complete, or no symbol at all, or, where
`singleAllowed`, one symbol with one bit. -/
def isAllowed (singleAllowed : Bool) (lengths : List Nat) : Bool :=
  isComplete lengths || lengths.all (· == 0)
    || (singleAllowed && share lengths == 16384 && lengths.all (· ≤ 1))

end Code

/-! ## Symbols -/

/-- Extra bits and the least value of each length symbol, from 257 on. -/
def lengthTable : List (Nat × Nat) :=
  [(0, 3), (0, 4), (0, 5), (0, 6), (0, 7), (0, 8), (0, 9), (0, 10), (1, 11), (1, 13), (1, 15),
   (1, 17), (2, 19), (2, 23), (2, 27), (2, 31), (3, 35), (3, 43), (3, 51), (3, 59), (4, 67),
   (4, 83), (4, 99), (4, 115), (5, 131), (5, 163), (5, 195), (5, 227), (0, 258)]

/-- Extra bits and the least value of each distance symbol. -/
def distanceTable : List (Nat × Nat) :=
  [(0, 1), (0, 2), (0, 3), (0, 4), (1, 5), (1, 7), (2, 9), (2, 13), (3, 17), (3, 25), (4, 33),
   (4, 49), (5, 65), (5, 97), (6, 129), (6, 193), (7, 257), (7, 385), (8, 513), (8, 769),
   (9, 1025), (9, 1537), (10, 2049), (10, 3073), (11, 4097), (11, 6145), (12, 8193), (12, 12289),
   (13, 16385), (13, 24577)]

/-- A value with extra bits. -/
def extended (table : List (Nat × Nat)) (index : Nat) (bits : List Bool) :
    Option (Nat × List Bool) := do
  let (extra, base) ← table[index]?
  let (value, rest) ← takeBits extra bits
  return (base + value, rest)

/-- Repeats what was written `distance` bytes ago, byte by byte, so that the copy may overlap what
it writes. -/
def copyBack (distance : Nat) : (length : Nat) → Array UInt8 → Array UInt8
  | 0, out => out
  | length + 1, out => copyBack distance length (out.push (out.getD (out.size - distance) 0))

/-- Takes symbols up to the end of a block. -/
def symbols (literals distances : Code) : (fuel : Nat) → List Bool → Array UInt8 →
    Option (Array UInt8 × List Bool)
  | 0, _, _ => none
  | fuel + 1, bits, out => do
    let (value, bits) ← literals.decode bits
    if value < 256 then symbols literals distances fuel bits (out.push (UInt8.ofNat value))
    else if value = 256 then some (out, bits)
    else
      let (length, bits) ← extended lengthTable (value - 257) bits
      let (symbol, bits) ← distances.decode bits
      let (distance, bits) ← extended distanceTable symbol bits
      if distance ≤ out.size then
        symbols literals distances fuel bits (copyBack distance length out)
      else none

/-! ## Blocks -/

def fixedLiterals : List Nat :=
  List.replicate 144 8 ++ List.replicate 112 9 ++ List.replicate 24 7 ++ List.replicate 8 8

def fixedDistances : List Nat := List.replicate 32 5

/-- The order in which the lengths of the code of lengths are transmitted. -/
def lengthOrder : List Nat := [16, 17, 18, 0, 8, 7, 9, 6, 10, 5, 11, 4, 12, 3, 13, 2, 14, 1, 15]

def takeTriples : (n : Nat) → List Bool → Option (List Nat × List Bool)
  | 0, bits => some ([], bits)
  | n + 1, bits => do
    let (value, bits) ← takeBits 3 bits
    let (values, bits) ← takeTriples n bits
    return (value :: values, bits)

/-- Transmitted code lengths, the last one first. A symbol from 16 on repeats: the length before, or
zero. -/
def codeLengths (code : Code) (total : Nat) : (fuel : Nat) → List Bool → List Nat →
    Option (List Nat × List Bool)
  | 0, _, _ => none
  | fuel + 1, bits, done =>
    if done.length = total then some (done.reverse, bits)
    else do
      let (value, bits) ← code.decode bits
      if value < 16 then codeLengths code total fuel bits (value :: done)
      else
        let (repeated, extra, least) ←
          if value = 16 then done.head?.map fun last => (last, 2, 3)
          else if value = 17 then some (0, 3, 3)
          else some (0, 7, 11)
        let (more, bits) ← takeBits extra bits
        if done.length + least + more ≤ total then
          codeLengths code total fuel bits (List.replicate (least + more) repeated ++ done)
        else none

/-- Takes the codes of a block. -/
def transmittedCodes (bits : List Bool) : Option (Code × Code × List Bool) := do
  let (literalCount, bits) ← takeBits 5 bits
  let (distanceCount, bits) ← takeBits 5 bits
  let (lengthCount, bits) ← takeBits 4 bits
  let literalCount := literalCount + 257
  let distanceCount := distanceCount + 1
  if literalCount > 286 || distanceCount > 30 then none
  else
    let (triples, bits) ← takeTriples (lengthCount + 4) bits
    let lengths := (List.range 19).map fun symbol =>
      ((lengthOrder.zip triples).lookup symbol).getD 0
    if !Code.isAllowed false lengths then none
    else
      let total := literalCount + distanceCount
      let (lengths, bits) ← codeLengths (Code.ofLengths lengths) total (total + 1) bits []
      let literals := lengths.take literalCount
      let distances := lengths.drop literalCount
      if literals.getD 256 0 != 0 && Code.isAllowed true literals && Code.isAllowed true distances
      then some (Code.ofLengths literals, Code.ofLengths distances, bits)
      else none

/-- A block that is not compressed. -/
def storedBlock (bits : List Bool) (out : Array UInt8) : Option (Array UInt8 × List Bool) := do
  let (length, bits) ← takeBits 16 (alignToByte bits)
  let (complement, bits) ← takeBits 16 bits
  if length + complement = 0xFFFF then takeBytes length bits out else none

/-- The blocks up to the one marked as last. -/
def blocks : (fuel : Nat) → List Bool → Array UInt8 → Option (Array UInt8 × List Bool)
  | 0, _, _ => none
  | fuel + 1, bits, out => do
    let (final, bits) ← takeBits 1 bits
    let (kind, bits) ← takeBits 2 bits
    let (out, bits) ←
      match kind with
      | 0 => storedBlock bits out
      | 1 =>
        symbols (Code.ofLengths fixedLiterals) (Code.ofLengths fixedDistances) (bits.length + 1)
          bits out
      | 2 => do
        let (literals, distances, bits) ← transmittedCodes bits
        symbols literals distances (bits.length + 1) bits out
      | _ => none
    if final = 1 then some (out, bits) else blocks fuel bits out

/-! ## Streams -/

/-- The header of a stream: the usual method, a window of at most 32 kilobytes, no preset
dictionary, and a check of the two bytes. -/
def isHeader (method flags : UInt8) : Bool :=
  method.toNat % 16 == 8 && method.toNat / 16 ≤ 7 && flags.toNat / 32 % 2 == 0
    && (method.toNat * 256 + flags.toNat) % 31 == 0

/-- The data of a stream. -/
def inflate? : Bytes → Option Bytes
  | method :: flags :: data =>
    if isHeader method flags then do
      let bits := bitsOf data
      let (out, bits) ← blocks (bits.length + 1) bits #[]
      let (sum, _) ← takeBytes 4 (alignToByte bits) #[]
      if Bytes.toNat sum.toList.reverse = (Checksum.adler32 out.toList).toNat then some out.toList
      else none
    else none
  | _ => none

end NovelScript.Inflate
