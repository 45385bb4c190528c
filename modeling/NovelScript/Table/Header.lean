import NovelScript.Instruction.Basic
import NovelScript.Reader
import NovelScript.Version

/-!
# Headers of tables

Every table starts with a signature of four bytes and a version. What else a header holds is the
table's own affair.
-/

namespace NovelScript.Table

/-- A header of `size` bytes, and the version to go by. The name is how the format is called when
the signature is wrong. -/
def readHeader (size : Nat) (signature name : String) (given : Option Int) :
    Reader (Bytes × Int) := do
  let header ← Reader.take size
  require (header.take 4 == Bytes.ofAscii signature) (Violation.signature name (header.take 4))
  let version := chosenVersion given (header.field 4 4)
  requireVersion version
  return (header, version)

/-- The start of a header: the signature, and the version that the caller wants to stand there or
else the one that the table is laid out for. -/
def putHeader (signature : String) (shown : Option Int) (version : Int) : Except Fault Bytes := do
  return Bytes.ofAscii signature ++ (← putUnsigned 4 (chosenVersion shown version))

def valueType (code : Nat) : Reader ValueType :=
  Reader.ofExcept (orFault (ValueType.ofCode? code) (Cause.unknownType code))

def messageCount : Nat := 37

def rowNumber (width i : Nat) : String := "[" ++ Text.padLeft width (toString i) ++ "]"

end NovelScript.Table
