import NovelScript.Decompile.Basic
import NovelScript.Decompile.Grouping

/-!
# Decompiling to the engine's own listings

Every command is written on the line that it has. Several on one line are divided by semicolons.
Labels stand before their command, or at the end of the line before if both lines are empty so far.
-/

namespace NovelScript

/-- What a command does in a listing. -/
inductive LineRole where
  | blend
  | otherwise
  | condition (name : String)
  | loop
  | evaluate
  | text
  | textEnd
  | finish
  deriving DecidableEq

/-- The names of these commands, in the order they are tried on a command with a number of
arguments. -/
def LineRole.names (count : Nat) : List (String × Option LineRole) :=
  [("IFBLEND", some .blend), ("ELSE", if count = 0 then some .otherwise else none),
   ("IF", some (.condition "IF")), ("ELSE", some (.condition "ELSE")), ("LOOP", some .loop),
   ("_", some .evaluate), ("WORD", some .text), ("RETURNCODE", some .textEnd),
   ("END", if count = 0 then some .finish else none)]

/-- A listing so far. -/
structure LineState where
  /-- What has been written, with the lines, latest first. -/
  written : List (Int × String) := []
  line : Int := 1
  waiting : List String := []
  locals : Temporaries := []

namespace LineState

def write (s : LineState) (line : Int) (texts : List String) : LineState :=
  { s with written := (texts.map fun t => (line, t)).reverse ++ s.written }

def isEmpty (s : LineState) (line : Int) : Bool := !s.written.any fun (l, _) => l == line

/-- The line that labels are written to. -/
def labelLine (s : LineState) (line : Int) : Int :=
  if !s.isEmpty line || line == 1 || !s.isEmpty (line - 1) then line else line - 1

end LineState

namespace Decompiler

def exprText (d : Decompiler) (locals : Temporaries) (code : List Instr) :
    Except Fault String := do
  return (← decompileExpr (d.context locals) Dialect.listing code).engineSource

/-- Writes a command with a role. -/
def roleLine (d : Decompiler) (s : LineState) (c : Command) (isLast : Bool) :
    LineRole → Except Fault LineState
  | .blend => .ok s
  | .otherwise => .ok (s.write c.line ["ELSE[]"])
  | .condition name => do
    let test ← d.exprText s.locals (← c.firstCode 3)
    return s.write c.line [name ++ "[" ++ test ++ "]"]
  | .loop => do
    let code ← c.firstCode 2
    if code == [.int .w8 (-1)] then return s.write c.line ["LOOP[]"]
    else return s.write c.line ["LOOP[SET=" ++ (← d.exprText s.locals code) ++ "]"]
  | .evaluate => do
    let e ← d.exprText s.locals (← c.firstCode 1)
    return s.write c.line ["_[" ++ e ++ "]"]
  | .text => do return s.write c.line [← c.onlyText]
  | .textEnd => do
    let code ← c.onlyNumber
    if code == 0 then return s
    else if code == 1 then return { s with waiting := s.waiting ++ ["PREP[TEXTVAL=1]"] }
    else .error (Violation.endingCode code)
  | .finish => .ok (if isLast then s else s.write c.line ["END[]"])

/-- Writes an assignment. -/
def storeLine (d : Decompiler) (s : LineState) (c : Command) : Except Fault LineState := do
  let store ← StoreCommand.ofCommand c
  let info ← d.command c.code
  let locals ← d.defineTemporary info.name store s.locals
  let target ← d.exprText locals store.target
  let value ← d.exprText locals store.value
  let s := { s with locals }
  if ((← d.commands.code "LET") : Int) == c.code then
    return s.write c.line [target ++ store.assignment.symbol ++ value]
  else if ← d.omitsValue store locals then
    return s.write c.line [info.name ++ "[" ++ target ++ "]"]
  else return s.write c.line [info.name ++ "[" ++ target ++ "=" ++ value ++ "]"]

def argumentText (d : Decompiler) (locals : Temporaries) (info : CommandInfo) (a : Argument) :
    Except Fault String := do
  let parameter ← orFault (itemAt? info.parameters a.id) (Cause.pastEnd a.id)
  require (!parameter.name.isEmpty) Condition.argumentName
  let code ← a.code
  return parameter.name ++ a.assignment.symbol ++ (← d.exprText locals code)

/-- Writes any other command. -/
def plainLine (d : Decompiler) (s : LineState) (c : Command) : Except Fault LineState := do
  let info ← d.command c.code
  let arguments ← c.arguments.mapM (d.argumentText s.locals info)
  return s.write c.line [info.name ++ "[" ++ " ".intercalate arguments ++ "]"]

/-- Writes a command. -/
def lineOf (d : Decompiler) (s : LineState) (c : Command) (isLast : Bool) :
    Except Fault LineState := do
  match ← d.firstNamed c.code (LineRole.names c.arguments.length) with
  | some role => d.roleLine s c isLast role
  | none =>
    if ← d.isStore c.code then d.storeLine s c
    else d.plainLine s c

/-- Writes a command with its labels. -/
def labelledLine (d : Decompiler) (script : Option Nat) (s : LineState) (c : Command)
    (isLast : Bool) : Labelling LineState := do
  require (s.line ≤ c.line) (Violation.lineOrder c.line s.line)
  let s := { s.write c.line s.waiting with line := c.line, waiting := [] }
  let labels ← WaitingLabels.take script c.offset
  let s := if labels.isEmpty then s
    else s.write (s.labelLine c.line) (labels.map fun name => "#=" ++ name.shown)
  ofResult (d.lineOf s c isLast)

def linesFrom (d : Decompiler) (script : Option Nat) (s : LineState) :
    List Command → Labelling LineState
  | [] => return s
  | c :: rest => do
    let s ← d.labelledLine script s c rest.isEmpty
    d.linesFrom script s rest

/-- What is written on each of a number of lines from one on. The segments are in the order of their
lines, since commands are. -/
def lineTexts (line : Int) : (count : Nat) → (segments : List (Int × String)) → List String
  | 0, _ => []
  | count + 1, segments =>
    let own := segments.takeWhile fun (l, _) => l == line
    ";".intercalate (own.map Prod.snd) :: lineTexts (line + 1) count (segments.drop own.length)

/-- The listing of a script. -/
def listingSource (d : Decompiler) (number : Int) (script : Script) : Labelling String := do
  require (script.version == d.version) (Violation.scriptVersion script.version d.version)
  let own ← ofResult (d.labelledScript number)
  let last ← ofResult (VariableNames.greatest (script.commands.map Command.line))
  let s ← d.linesFrom own {} script.commands
  let left := (← get).byOffset own
  require left.isEmpty (Violation.labelsLeft left)
  return "\n".intercalate (lineTexts 1 last.toNat s.written.reverse)

end Decompiler

end NovelScript
