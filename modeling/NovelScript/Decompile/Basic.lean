import NovelScript.Compile.Declaration
import NovelScript.Decompile.Expression
import NovelScript.Script.Basic
import NovelScript.Table.Commands
import NovelScript.Table.Labels

/-!
# Decompilers

A decompiler knows the commands, the variables and the labels of a game. It hands out the labels of
a script while it goes through the commands, and a label that has been handed out is gone: the
labels that are left are a state, which also stays as it is when a script fails.
-/

namespace NovelScript

/-! ## Labels -/

/-- A label that waits for its command. -/
structure WaitingLabel where
  script : Nat
  offset : Int
  name : Wording
  deriving DecidableEq

abbrev WaitingLabels := List WaitingLabel

abbrev Labelling := EStateM Fault WaitingLabels

namespace WaitingLabels

/-- The offset of the command at a position of a label table. From version 300 on positions count
commands, which have four bytes each. -/
def offsetOf (version position : Int) : Int := if 300 ≤ version then position * 4 else position

/-- How many scripts there are up to the last that has a label. -/
def scriptCount (labels : List Label) : Except Fault Nat := do
  return (← VariableNames.greatest (labels.map Label.script) |>.map (· + 1)).toNat

/-- The labels of a table. -/
def ofTable (table : LabelTable) (scripts : Nat) : Except Fault WaitingLabels :=
  table.labels.mapM fun l => do
    let script ← orFault (position? scripts l.script) (Cause.pastEnd l.script)
    return ⟨script, offsetOf table.version l.position, l.name⟩

/-- Takes the labels at an offset. -/
def take (script : Option Nat) (offset : Int) : Labelling (List Wording) := fun labels =>
  let isMeant (l : WaitingLabel) := some l.script == script && l.offset == offset
  .ok ((labels.filter isMeant).map WaitingLabel.name) (labels.filter fun l => !isMeant l)

/-- The labels of a script by their offsets, in the order of the first label at each. -/
def byOffset (labels : WaitingLabels) (script : Option Nat) : List (Int × List Wording) :=
  let own := labels.filter fun l => some l.script == script
  ((own.map WaitingLabel.offset).eraseDups).map fun offset =>
    (offset, (own.filter fun l => l.offset == offset).map WaitingLabel.name)

end WaitingLabels

/-! ## Decompilers -/

/-- What is known of all scripts. -/
structure Decompiler where
  version : Int
  commands : CommandTable
  names : VariableNames
  scripts : Nat
  deriving Inhabited

namespace Decompiler

def ofTables (commands : CommandTable) (known : VariableTable) (labels : LabelTable) :
    Except Fault (Decompiler × WaitingLabels) := do
  let scripts ← WaitingLabels.scriptCount labels.labels
  let version := known.version
  require (commands.version == version)
    (Violation.commandTableVersion commands.version version)
  require (labels.version == version) (Violation.labelTableVersion labels.version version)
  let _ ← VariableNames.greatest (known.entries.map Variable.number)
  let waiting ← WaitingLabels.ofTable labels scripts
  let names ← VariableNames.ofTable known.entries
  return (⟨version, commands, names, scripts⟩, waiting)

def useCatalogue (d : Decompiler) (catalogued : List Catalogue.SystemVariable) :
    Except Fault Decompiler := do
  return { d with names := ← d.names.useCatalogue catalogued }

/-- The script whose labels are meant by a number, if there can be labels for it. -/
def labelledScript (d : Decompiler) (script : Int) : Except Fault (Option Nat) :=
  if (d.scripts : Int) ≤ script then .ok none
  else do return some (← orFault (position? d.scripts script) (Cause.pastEnd script))

def context (d : Decompiler) (locals : Temporaries) : ReadingContext :=
  ⟨d.version, d.names, locals⟩

/-! ## Commands -/

/-- The first of the named commands that a code stands for. A name that is tried must be in the
table, also where nothing hangs on it. -/
def firstNamed {α : Type} (d : Decompiler) (code : Int) :
    List (String × Option α) → Except Fault (Option α)
  | [] => .ok none
  | (name, meaning) :: rest => do
    let own ← d.commands.code name
    match meaning with
    | some m => if (own : Int) == code then return some m else d.firstNamed code rest
    | none => d.firstNamed code rest

def command (d : Decompiler) (code : Int) : Except Fault CommandInfo :=
  orFault (itemAt? d.commands.commands code) (Cause.pastEnd code)

/-- The declaration that a code stands for. -/
def declaration? (d : Decompiler) (code : Int) : Option DeclarationCommand :=
  if code < 0 then none
  else (d.commands.commands[code.toNat]?).bind fun c => DeclarationCommand.ofName? c.name

/-- Whether a command assigns a value. -/
def isStore (d : Decompiler) (code : Int) : Except Fault Bool :=
  if (d.declaration? code).isSome then .ok true
  else do return ((← d.commands.code "LET") : Int) == code

end Decompiler

def Argument.code (a : Argument) : Except Fault (List Instr) :=
  match a.data with
  | .code instructions => .ok instructions
  | _ => .error Condition.argumentData

def Argument.text (a : Argument) : Except Fault String :=
  match a.data with
  | .text content => .ok content
  | _ => .error Condition.argumentData

def Command.firstCode (c : Command) (count : Nat) : Except Fault (List Instr) :=
  match c.arguments with
  | first :: rest => do
    require (rest.length + 1 == count) Condition.argumentCount
    first.code
  | [] => .error Condition.argumentCount

def Command.onlyText (c : Command) : Except Fault String :=
  match c.arguments with
  | [a] => a.text
  | _ => .error Condition.argumentCount

def Command.onlyNumber (c : Command) : Except Fault Int :=
  match c.arguments with
  | [a] => .ok a.size
  | _ => .error Condition.argumentCount

def Command.requireBare (c : Command) : Except Fault Unit :=
  require c.arguments.isEmpty Condition.argumentCount

/-! ## Stored values -/

/-- A command that stores a value: what it stores to, how, and the value. -/
structure StoreCommand where
  target : List Instr
  assignment : Assignment
  value : List Instr
  deriving DecidableEq

def StoreCommand.ofCommand (c : Command) : Except Fault StoreCommand :=
  match c.arguments with
  | [target, value] => do
    require (value.assignment == .set) Condition.plainAssignment
    return ⟨← target.code, target.assignment, ← value.code⟩
  | _ => .error Condition.argumentCount

/-- The number that a definition starts with. -/
def definedNumber : List Instr → Except Fault Int
  | [] => .error (Cause.pastEnd 0)
  | .access _ _ index :: _ => .ok index
  | _ => .error Condition.definedVariable

def Decompiler.defineTemporary (d : Decompiler) (name : String) (s : StoreCommand)
    (locals : Temporaries) : Except Fault Temporaries :=
  match DeclarationCommand.ofName? name with
  | some ⟨.temporary, extension, type⟩ => do
    let number ← definedNumber s.target
    locals.define d.names number (nameOf .temporary extension number type) type
  | _ => .ok locals

/-- Whether a definition is written without a value: the table gives the variable an empty text, or
the value is zero in its widest form. -/
def Decompiler.omitsValue (d : Decompiler) (s : StoreCommand) (locals : Temporaries) :
    Except Fault Bool := do
  require (s.assignment == .set) Condition.plainAssignment
  let number ← definedNumber s.target
  let _ ← variableAt d.names locals number
  let startsEmpty := match ← d.names.find? number with
    | some n => n.entry.init == some (.text [])
    | none => false
  return startsEmpty || s.value == [.int .w64 0]

end NovelScript
