import NovelScript.Instruction.Listing
import NovelScript.Script.Basic
import NovelScript.Table.Commands

/-!
# Scripts in listings
-/

namespace NovelScript.Script

def listData : ArgumentData → String
  | .none => "None"
  | .text content => Text.quoted content
  | .code instructions => Instr.listAll instructions

def listArgument (a : Argument) : String :=
  s!"RArg(id={a.id}, typ=" ++ a.type.listing ++ ", aop=" ++
    namedNumber "AOp" a.assignment.label a.assignment.code ++
    s!", siz={a.size}, off={a.offset}, dat=" ++ listData a.data ++ ")"

def argumentAt (arguments : List Argument) (i : Nat) : Except Fault Argument :=
  orFault arguments[i]? (Cause.pastEnd i)

/-- The arguments of a command. -/
def listArguments (parameters : List Parameter) (arguments : List Argument) : List String :=
  arguments.zipIdx.map fun (a, j) =>
    let name := match parameters[a.id.toNat]? with
      | some p => p.name ++ " "
      | none => ""
    s!"- [{j}] " ++ name ++ listArgument a

/-! ## Lines

A listing is written line by line. A line may turn out to be a fault, and then it is the last.
-/

def listText (arguments : List Argument) : Except Fault String := do
  match (← argumentAt arguments 0).data with
  | .text content => return "# " ++ content
  | _ => .error Condition.argumentData

def isNamed (codes : CommandCodes) (command : Command) (name : String) : Except Fault Bool := do
  return command.code == ((← codes name : Nat) : Int)

/-- Whether a command has one of two names. The second is looked up only if the first is not it. -/
def isEither (codes : CommandCodes) (command : Command) (first second : String) :
    Except Fault Bool := do
  if ← isNamed codes command first then return true else isNamed codes command second

/-- What a command shows of itself. -/
def listBody (codes : CommandCodes) (parameters : List Parameter) (command : Command) :
    Except Fault (List (Except Fault String)) := do
  let arguments := command.arguments
  match ← isEither codes command "IF" "ELSE", arguments with
  | true, [condition, otherwise, done] =>
    return [.ok ("-  cond: " ++ listArgument condition),
      .ok ("-  else: " ++ listArgument otherwise), .ok ("- ifend: " ++ listArgument done)]
  | _, _ =>
    if ← isNamed codes command "LOOP" then
      return [(argumentAt arguments 0).map ("- count: " ++ listArgument ·),
        (argumentAt arguments 1).map ("- break: " ++ listArgument ·)]
    else if ← isNamed codes command "WORD" then return [listText arguments]
    else return (listArguments parameters arguments).map .ok

/-- The line of a command. -/
def listCommand (table : CommandTable) (showsIndex : Bool) (command : Command) (i : Nat) :
    List (Except Fault String) :=
  match table.commands[command.code.toNat]? with
  | none => [.error (Cause.pastEnd command.code)]
  | some info =>
    let index := if showsIndex then toString i else "-"
    let head := s!"[{index}] off={command.offset} lno={command.line} " ++
      s!"npar={command.parameters} {command.code}:{info.name}"
    match listBody table.code info.parameters command with
    | .ok lines => .ok head :: lines
    | .error f => [.ok head, .error f]

def listingLines (script : Script) (table : CommandTable) (showsIndex : Bool) :
    List (Except Fault String) :=
  .ok (s!"YSTB ver={script.version} key=" ++ Text.hexPadded 8 script.key.toNat ++
    s!" ncmd={script.commands.length}") ::
  script.commands.zipIdx.flatMap fun (c, i) => listCommand table showsIndex c i

/-- The listing of a script. -/
def listing (script : Script) (table : CommandTable) (showsIndex : Bool) : Except Fault String := do
  return String.join ((← (script.listingLines table showsIndex).mapM id).map (· ++ "\n"))

end NovelScript.Script
