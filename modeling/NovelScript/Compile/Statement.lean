import NovelScript.Compile.Draft
import NovelScript.Compile.Expression
import NovelScript.Compile.ParameterCount

/-!
# Compiling statements

A statement becomes the commands of a draft. Blocks become commands that open, divide and close
them, with jumps between these; a command that no line of the source stands for gets the line of the
command before it.

Statements return their commands, and the state counts them, so that a jump can name its target
before the draft is complete.
-/

namespace NovelScript

/-- What the statements of a script are compiled with. -/
structure CompileContext where
  vocabulary : Vocabulary
  countsByType : Bool := false
  /-- The codec that a script calls by a name. -/
  codecNamed : Wording → Codec := Codec.ofWording

/-- A label before a command of the draft. -/
structure DraftLabel where
  name : Wording
  command : Nat
  ifDepth : Nat
  loopDepth : Nat
  deriving DecidableEq

/-- What has been compiled so far. -/
structure Progress where
  names : Names := {}
  count : Nat := 0
  line : Nat := 0
  texts : Nat := 0
  statics : Nat := 0
  temporaries : Nat := 0
  labels : List DraftLabel := []
  codec : Codec

abbrev Compiling := StateT Progress (Except Fault)

/-- How deep a statement stands in blocks. -/
structure Depth where
  ifs : Nat := 0
  loops : Nat := 0
  deriving DecidableEq

def Coded.argument (e : Coded) (assignment : Assignment) : Draft.Argument where
  type := e.type.code
  assignment := assignment.code
  data := .code e.code

namespace Compiling

/-! ## Commands -/

/-- Compiles an expression. -/
def expression (c : CompileContext) (e : Expr) : Compiling Coded := fun p => do
  let (coded, names) ← e.compile c.vocabulary p.names
  return (coded, { p with names })

def argument (c : CompileContext) (e : Expr) : Compiling Draft.Argument := do
  return (← expression c e).argument .set

def find (c : CompileContext) (name : String) : Except Fault (CommandInfo × Nat) :=
  orFault (c.vocabulary.command? name) (Cause.unknownCommand name)

/-- Counts a command, and gives its position and its line. Without a line it gets that of the
command before it. -/
def place (line : Option Nat) : Compiling (Nat × Nat) := fun p =>
  let l := line.getD p.line
  .ok ((p.count, l), { p with count := p.count + 1, line := l })

/-- The position and the start of a command whose arguments are still to come. -/
def heading (c : CompileContext) (line : Option Nat) (name : String) :
    Compiling (Nat × Draft.Command) := do
  let (_, code) ← find c name
  let (position, l) ← place line
  return (position, { code := code, line := l })

/-- Makes a command. -/
def command (c : CompileContext) (line : Option Nat) (name : String)
    (arguments : List Draft.Argument := []) : Compiling (List Draft.Command) := do
  let (_, head) ← heading c line name
  return [{ head with arguments }]

def parameterCount (c : CompileContext) (name : String) (keywords : List String) :
    Except Fault Int :=
  if name == "RETURN" || name == "GOSUB" then
    if c.countsByType then do
      return ((← ParameterCount.ofKeywords keywords).packed : Nat)
    else .ok (if name == "RETURN" then keywords.length else (keywords.length : Int) - 1)
  else .ok 0

def argumentName (keyword : String) : String := if keyword == "LBL" then "#" else keyword

/-- The keywords of a call, unless one of them cannot be passed on. -/
def keywordNames (arguments : List (Option String × Draft.Argument)) :
    Except Fault (List (String × Draft.Argument)) :=
  arguments.mapM fun (keyword, a) =>
    match keyword with
    | some k => if k == "lno" || k == "cmd" then .error Cause.reservedKeyword else .ok (k, a)
    | none => .error Cause.reservedKeyword

/-- Makes a command with keywords. -/
def keywordCommand (c : CompileContext) (line : Nat) (name : String)
    (given : List (Option String × Draft.Argument)) : Compiling (List Draft.Command) := do
  let named ← keywordNames given
  let (info, code) ← find c name
  let arguments ← named.mapM fun (k, a) => do
    let id ← orFault (info.argument? (argumentName k)) (Cause.unknownArgument k)
    return { a with id := (id : Int) }
  let parameters ← parameterCount c name (named.map Prod.fst)
  let (_, l) ← place (some line)
  return [{ code := code, line := l, arguments, parameters }]

/-! ## Keywords of calls -/

def keywordText (keyword : Option String) : String := keyword.getD "None"

/-- Compiles the arguments of a call. -/
def callArguments (c : CompileContext) (statement : Stmt)
    (given : List (Option String × Draft.Argument)) :
    List (Option String × Expr) → Compiling (List (Option String × Draft.Argument))
  | [] => return given
  | (k, e) :: rest => do
    require (!given.any fun g => g.1 == k)
      (statement.fault (Violation.keywordTwice (keywordText k)))
    let a ← argument c e
    callArguments c statement (given ++ [(k, a)]) rest

/-- The arguments of a call with a body. An underscore leaves a place for the body to fill. -/
def bodyArguments (c : CompileContext) (statement : Stmt)
    (given : List (Option String × Option Draft.Argument)) :
    List (Option String × Expr) → Compiling (List (Option String × Option Draft.Argument))
  | [] => return given
  | (k, e) :: rest => do
    require (!given.any fun g => g.1 == k)
      (statement.fault (Violation.keywordTwice (keywordText k)))
    let a ← match e with
      | .name "_" => pure none
      | e => do pure (some (← argument c e))
    bodyArguments c statement (given ++ [(k, a)]) rest

/-- Fills the place of a keyword. -/
def fill (keyword : String) (a : Draft.Argument)
    (given : List (Option String × Option Draft.Argument)) :
    List (Option String × Option Draft.Argument) :=
  given.map fun (k, b) => if k == some keyword then (k, some a) else (k, b)

/-- Fills the places that a call leaves by the assignments in its body. -/
def fillAll (c : CompileContext) (statement : Stmt)
    (given : List (Option String × Option Draft.Argument)) :
    List Stmt → Compiling (List (Option String × Option Draft.Argument))
  | [] => return given
  | .augment _ (.name keyword) op e :: rest => do
    match given.lookup (some keyword) with
    | none => throw (statement.fault (Violation.keywordUnwanted keyword))
    | some (some _) => throw (statement.fault (Violation.keywordTwice keyword))
    | some none =>
      let coded ← expression c e
      let assignment ← orFault op.assignment? (Violation.unknownOperator op.symbol)
      fillAll c statement (fill keyword (coded.argument assignment) given) rest
  | other :: _ => throw (other.fault Violation.notAugmented)

def filled (statement : Stmt) (given : List (Option String × Option Draft.Argument)) :
    Except Fault (List (Option String × Draft.Argument)) :=
  given.mapM fun (k, a) => do
    return (k, ← orFault a (statement.fault (Violation.keywordUnassigned (keywordText k))))

/-! ## Definitions and labels -/

def initialExpr : ValueType → Expr
  | .unknown | .int => .const (.int 0)
  | .float => .const (.float Binary64.zero)
  | .text => .const (.text ∅)

/-- Adds a defined variable to the names. A temporary one may take its name again, a static one may
not take any that is there. -/
def define (statement : Stmt) (d : DeclarationCommand) (name : String) (dims : List Dimension)
    (value : Expr) : Compiling Unit := fun p =>
  if d.scope == .static then do
    require ((p.names.temporaries.lookup name).isNone) (statement.fault Violation.definedLocal)
    let v ← declaredValue d.type (some value)
    return ((), { p with
      names := p.names.addStatic ⟨name, d.extension, dims, v⟩, statics := p.statics + 1 })
  else
    .ok ((), { p with
      names := p.names.addTemporary name d.type, temporaries := p.temporaries + 1 })

/-- Fails if the name of a definition is taken by a variable of another kind, or by a static one. -/
def requireFree (c : CompileContext) (statement : Stmt) (name : String) : Compiling Unit :=
  fun p => do
    require ((p.names.statics.lookup name).isNone) (statement.fault Violation.definedStatic)
    require ((c.vocabulary.folders.lookup name).isNone) (statement.fault Violation.definedFolder)
    require ((c.vocabulary.globals.lookup name).isNone) (statement.fault Violation.definedGlobal)
    require ((c.vocabulary.system.lookup name).isNone) (statement.fault Violation.definedSystem)
    return ((), p)

/-- Defines a variable. -/
def definition (c : CompileContext) (statement : Stmt) (name : String) (target : Expr)
    (value : Option Expr) : Compiling (List Draft.Command) := do
  let d ← orFault (DeclarationCommand.ofName? name) (statement.fault Violation.meaningless)
  require (d.scope == .static || d.scope == .temporary)
    (statement.fault Violation.misplacedDeclaration)
  let (variableName, dims) ← declaredTarget d.type target
  requireFree c statement variableName
  let e := value.getD (initialExpr d.type)
  define statement d variableName dims e
  let t ← argument c target
  let v ← argument c e
  command c (some statement.line) name [t, v]

/-- Sets a label. -/
def label (depth : Depth) (name : Wording) : Compiling (List Draft.Command) := fun p => do
  require (!p.labels.any fun l => l.name == name) (Violation.labelTwice name.shown)
  return ([{ code := -1, presence := .label }],
    { p with
      count := p.count + 1
      labels := ⟨name, p.count, depth.ifs, depth.loops⟩ :: p.labels })

/-- Sets the encoding of texts. -/
def setCodec (c : CompileContext) (name : Wording) : Compiling (List Draft.Command) := fun p =>
  .ok ([], { p with codec := c.codecNamed name })

/-- Assigns a value. -/
def store (c : CompileContext) (line : Nat) (target : Expr) (op : Option BinaryOp) (value : Expr) :
    Compiling (List Draft.Command) := do
  let t ← expression c target
  let assignment ← match op with
    | none => pure Assignment.set
    | some o => liftM (orFault o.assignment? (Violation.unknownOperator o.symbol))
  let v ← argument c value
  command c (some line) "LET" [t.argument assignment, v]

/-! ## Statements without blocks -/

/-- Compiles an expression that stands alone. -/
def expressionStatement (c : CompileContext) (statement : Stmt) (line : Nat) :
    Expr → Compiling (List Draft.Command)
  | .const (.text s _) => command c (some line) "WORD" [{ data := .text s }]
  | .yield (some (.const k)) =>
    match k.whole? with
    | none => throw (statement.fault Violation.meaningless)
    | some n => do
      modify fun p => { p with texts := p.texts + 1 }
      command c (some line) "RETURNCODE" [{ id := (← get).texts, data := .number n }]
  | .call (.name name) [] keywords => do
    keywordCommand c line name (← callArguments c statement [] keywords)
  | .subscript (.name "_") target => do command c (some line) "_" [← argument c target]
  | .subscript (.name name) target => definition c statement name target none
  | _ => throw (statement.fault Violation.meaningless)

/-- An assignment to one target: a label, the codec, a definition, or a stored value. -/
def assignment (c : CompileContext) (depth : Depth) (statement : Stmt) (line : Nat)
    (target value : Expr) : Compiling (List Draft.Command) :=
  match target, value with
  | .name "LBL", .const (.text name _) => label depth name
  | .name "ENC", .const (.text name _) => setCodec c name
  | .name _, _ => throw (statement.fault Violation.meaningless)
  | .subscript (.name "LET") target, _ => store c line target none value
  | .subscript (.name name) target, _ => definition c statement name target (some value)
  | _, _ => store c line target none value

def augmentedTarget : Expr → Expr
  | .subscript (.name "LET") target => target
  | target => target

/-! ## Blocks -/

/-- Opens a chain of conditions. -/
def openChain (head : Draft.Command) (test : Coded) (next : Option Nat) (close : Nat) :
    Draft.Command :=
  { head with arguments := [test.argument .set,
      { data := match next with
          | some n => .jump n
          | none => .none },
      { data := .jump close }] }

/-- Goes on with the next condition. -/
def continueChain (head : Draft.Command) (test : Coded) (next : Option Nat) : Draft.Command :=
  { head with arguments := [test.argument .set,
      { data := match next with
          | some n => .jump n
          | none => .code [] },
      { data := .code [] }] }

mutual

/-- Compiles a statement. -/
def statement (c : CompileContext) (depth : Depth) : Stmt → Compiling (List Draft.Command)
  | .pass _ => return []
  | .branch line test body elseBody => do
    let inner := { depth with ifs := depth.ifs + 1 }
    let t ← expression c test
    let (_, head) ← heading c (some line) "IF"
    let first ← statements c inner body
    let (next, rest) ← chain c inner elseBody
    let (close, tail) ← heading c none "IFEND"
    return [openChain head t next close] ++ first ++ rest ++ [tail]
  | .loop line test body _ => do
    let t ← expression c test
    let (_, head) ← heading c (some line) "LOOP"
    let inside ← statements c { depth with loops := depth.loops + 1 } body
    let (close, tail) ← heading c none "LOOPEND"
    return [{ head with arguments := [t.argument .set, { data := .jump close }] }] ++ inside ++
      [tail]
  | .context line [(.call (.name name) [] keywords, bound)] body => do
    let whole := Stmt.context line [(.call (.name name) [] keywords, bound)] body
    let given ← bodyArguments c whole [] keywords
    let given ← fillAll c whole given body
    keywordCommand c line name (← filled whole given)
  | .expression line e => expressionStatement c (.expression line e) line e
  | .assign line [target] value =>
    assignment c depth (.assign line [target] value) line target value
  | .augment line target op value => store c line (augmentedTarget target) (some op) value
  | other => throw (other.fault Violation.meaningless)

/-- Compiles statements. -/
def statements (c : CompileContext) (depth : Depth) :
    List Stmt → Compiling (List Draft.Command)
  | [] => return []
  | s :: rest => do
    let first ← statement c depth s
    return first ++ (← statements c depth rest)

/-- The commands of what follows the body of a condition, and the position of the first command
that a failing condition goes on at, if there is one. -/
def chain (c : CompileContext) (depth : Depth) :
    List Stmt → Compiling (Option Nat × List Draft.Command)
  | [] => return (none, [])
  | [.branch _ test body elseBody] => do
    let blend ← command c none "IFBLEND"
    let t ← expression c test
    let (position, head) ← heading c none "ELSE"
    let first ← statements c depth body
    let (next, rest) ← chain c depth elseBody
    return (some position, blend ++ [continueChain head t next] ++ first ++ rest)
  | s :: rest => do
    let blend ← command c none "IFBLEND"
    let (position, head) ← heading c none "ELSE"
    let first ← statement c depth s
    let others ← statements c depth rest
    return (some position, blend ++ [head] ++ first ++ others)

end

end Compiling

end NovelScript
