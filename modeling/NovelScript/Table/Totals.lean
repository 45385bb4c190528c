import NovelScript.Table.Header

/-!
# Totals

The numbers of variables and of texts in all scripts together.
-/

namespace NovelScript

/-- Counts over all scripts. -/
structure Totals where
  version : Int
  variableCount : Int
  textCount : Int
  deriving DecidableEq

namespace Totals

/-- Reads the totals. What follows them is not looked at. -/
def read (bytes : Bytes) : Except Fault Totals := do
  let record : Bytes := bytes.take 16
  require (record.length == 16) Cause.badRecord
  require (record.take 4 == Bytes.ofAscii "YSTD") (Violation.signature "yst.ybn" (record.take 4))
  requireVersion (record.field 4 4 : Int)
  return ⟨record.field 4 4, record.field 8 4, record.field 12 4⟩

def write (shown : Option Int) (totals : Totals) : Except Fault Bytes := do
  let head ← Table.putHeader "YSTD" shown totals.version
  return head ++ (← putRecord [(4, totals.variableCount), (4, totals.textCount)])

end Totals

end NovelScript
