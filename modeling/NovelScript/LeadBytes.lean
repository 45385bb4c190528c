import NovelScript.Fault
import NovelScript.Replace

/-!
# The lead byte table of a program

A program that shows text of two bytes a character holds a table that says which bytes start such a
character. To show simplified Chinese instead of Japanese, the table is replaced.
-/

namespace NovelScript.LeadBytes

/-- The table in which the bytes of the given ranges start a character. -/
def table (ranges : List (Nat × Nat)) : Bytes :=
  (List.range 256).map fun n =>
    if ranges.any fun (first, last) => first ≤ n && n ≤ last then 1 else 0

/-- The lead bytes of Japanese. -/
def japanese : Bytes := table [(0x81, 0x9F), (0xE0, 0xFC)]

/-- The lead bytes of Chinese. -/
def chinese : Bytes := table [(0x81, 0xFE)]

/-- Exchanges the one table for the other. -/
def patch (program : Bytes) : Except Fault Bytes := do
  require (occursIn japanese program) Violation.leadBytesMissing
  return replaceAll japanese chinese 0 program

end NovelScript.LeadBytes
