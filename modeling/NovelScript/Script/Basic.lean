import NovelScript.Instruction.Basic
import NovelScript.Script.Assignment

/-!
# Scripts

A compiled script is a list of commands. A command has a code, which stands for its name in the
command table, the line of its source, and arguments. The data of an argument is an expression, a
text, or nothing: a jump keeps its target in the two numbers that otherwise locate the data.
-/

namespace NovelScript

/-- The data of an argument that was read. -/
inductive ArgumentData where
  | none
  | text (content : String)
  | code (instructions : List Instr)
  deriving DecidableEq

/-- An argument that was read. -/
structure Argument where
  id : Int
  type : ValueType
  assignment : Assignment
  /-- The size of the data, or the first part of a jump target. -/
  size : Int
  /-- The place of the data in the expression section, or the second part of a jump target. -/
  offset : Int
  data : ArgumentData
  deriving DecidableEq

/-- A command that was read. -/
structure Command where
  offset : Int
  line : Int
  code : Int
  arguments : List Argument
  parameters : Int
  deriving DecidableEq

/-- A script that was read. -/
structure Script where
  version : Int
  key : Int
  commands : List Command
  deriving DecidableEq

abbrev CommandCodes := String → Except Fault Nat

end NovelScript
