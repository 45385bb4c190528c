import NovelScript.Bytes

/-!
# Checksums

The checksums of names and data: Adler-32, CRC-32 and MurmurHash2 with seed zero.
-/

namespace NovelScript

namespace Checksum

/-! ## Adler-32 -/

/-- The sum of the bytes and the sum of the sums, each modulo the largest prime below `2 ^ 16`. -/
def adlerSums (data : Bytes) : Nat × Nat :=
  data.foldl (fun (a, b) x => ((a + x.toNat) % 65521, (b + (a + x.toNat) % 65521) % 65521)) (1, 0)

def adler32 (data : Bytes) : UInt32 :=
  let (a, b) := adlerSums data
  UInt32.ofNat (b * 65536 + a)

/-! ## CRC-32 -/

/-- Shifts bits out of a checksum. -/
def crcShift : Nat → UInt32 → UInt32
  | 0, c => c
  | n + 1, c => crcShift n (if c &&& 1 = 1 then (c >>> 1) ^^^ 0xEDB88320 else c >>> 1)

def crc32 (data : Bytes) : UInt32 :=
  ~~~ data.foldl (fun (c : UInt32) x => crcShift 8 (c ^^^ x.toUInt32)) 0xFFFFFFFF

/-! ## MurmurHash2 -/

def murmurFactor : UInt32 := 0x5BD1E995

def murmurMix (h word : UInt32) : UInt32 :=
  let k := word * murmurFactor
  (h * murmurFactor) ^^^ ((k ^^^ (k >>> 24)) * murmurFactor)

/-- Mixes all words, and the last bytes if they make no whole word. -/
def murmurBody : UInt32 → Bytes → UInt32
  | h, a :: b :: c :: d :: rest =>
    murmurBody (murmurMix h (UInt32.ofNat (Bytes.toNat [a, b, c, d]))) rest
  | h, [] => h
  | h, tail => (h ^^^ UInt32.ofNat (Bytes.toNat tail)) * murmurFactor

/-- MurmurHash2 with seed zero. -/
def murmur32 (data : Bytes) : UInt32 :=
  let h := murmurBody (UInt32.ofNat data.length) data
  let h := (h ^^^ (h >>> 13)) * murmurFactor
  h ^^^ (h >>> 15)

end Checksum

inductive Checksum where
  | adler | crc | murmur
  | unchecked
  deriving DecidableEq

def Checksum.value : Checksum → Bytes → Option UInt32
  | adler, data => some (adler32 data)
  | crc, data => some (crc32 data)
  | murmur, data => some (murmur32 data)
  | unchecked, _ => none

/-- A way to check data: its value, or nothing where data is not checked. -/
abbrev Hash := Bytes → Option UInt32

def Hash.written (hash : Hash) (data : Bytes) : Nat :=
  ((hash data).map UInt32.toNat).getD 0

/-- The hash of data that is not the expected one. -/
def Hash.mismatch (hash : Hash) (data : Bytes) (expected : Nat) : Option Nat :=
  match hash data with
  | some h => if h.toNat = expected then none else some h.toNat
  | none => none

/-- The checksum of names by the version. -/
def Checksum.ofNames (version : Int) : Checksum :=
  if version ≥ 477 then murmur else if version ≥ 265 then crc else adler

/-- The checksum of files by the version. -/
def Checksum.ofFiles (version : Int) : Checksum :=
  if version ≥ 477 then murmur else adler

end NovelScript
