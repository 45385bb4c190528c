import NovelScript.Compile.Script
import NovelScript.Files.Session

/-!
# What a build keeps

A build keeps compiled scripts and packed scripts between runs. A compiled script is used again
while its source and the variables it can see are the same; a packed script is used again while its
linked sections are the same.
-/

namespace NovelScript.Project

/-- What the compiled form of a script is kept for: the names and types that it can see, in order,
and the bytes of its source. -/
structure Fingerprint where
  globals : List (String × ValueType)
  folders : List (String × ValueType)
  source : Bytes
  deriving DecidableEq

/-- A packed script: the linked sections that it was made from, the packing mark and the data. -/
structure PackedScript where
  sections : Bytes
  packing : Int
  data : Bytes
  deriving DecidableEq

/-- What is kept between builds. -/
inductive CacheRecord where
  | compiled (script : CompiledScript)
  | fingerprint (value : Fingerprint)
  | packed (script : PackedScript)
  deriving DecidableEq

abbrev Work := Session CacheRecord

end NovelScript.Project
