import NovelScript.Instruction.Basic

/-!
# Drafts of scripts

A draft is a list of commands that have no places yet. A jump names the command it goes to by its
position in the draft. A label is a command that takes no space: its place is that of the command
after it.
-/

namespace NovelScript.Draft

/-- The data of an argument. -/
inductive Data where
  | none
  | number (value : Int)
  | text (content : Wording)
  | bytes (content : Bytes)
  | code (instructions : List Instr)
  | jump (target : Nat)
  deriving DecidableEq

/-- An argument before it is written. -/
structure Argument where
  id : Int := 0
  type : Int := 0
  assignment : Int := 0
  data : Data
  deriving DecidableEq

/-- Where a command is left out: nowhere, everywhere because it only marks a place, or where
declarations have a table of their own. -/
inductive Presence where
  | kept | label | declaration
  deriving DecidableEq

/-- Whether a command is left out of the script. -/
def Presence.isLeftOut (version : Int) : Presence → Bool
  | kept => false
  | label => true
  | declaration => 300 ≤ version || version == 290

/-- A command before it is written. -/
structure Command where
  code : Int
  arguments : List Argument := []
  line : Int := 0
  parameters : Int := 0
  presence : Presence := .kept
  deriving DecidableEq, Inhabited

end NovelScript.Draft
