import NovelScript.Table.Header

/-!
# Error tables

The messages that the engine shows, by number.
-/

namespace NovelScript

structure ErrorMessage where
  number : Nat
  message : String
  deriving DecidableEq

/-- The error messages of a game. -/
structure ErrorTable where
  version : Int
  errors : List ErrorMessage
  deriving DecidableEq

namespace ErrorTable

def readMessage (codec : Codec) : Reader ErrorMessage := do
  let number ← Reader.unsigned 4
  return ⟨number, ← Reader.textZ codec⟩

def reader (codec : Codec) (given : Option Int) : Reader ErrorTable := do
  let (header, version) ← Table.readHeader 16 "YSER" "YSE" given
  require (header.field 12 4 == 0) (Violation.padding (header.field 12 4))
  let errors ← Reader.repeated (readMessage codec) (header.field 8 4)
  Reader.finished version
  return ⟨version, errors⟩

def read (codec : Codec) (given : Option Int) (bytes : Bytes) : Except Fault ErrorTable :=
  (reader codec given).runOn bytes

end ErrorTable

end NovelScript
