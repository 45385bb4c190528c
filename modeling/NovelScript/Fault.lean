import NovelScript.Text.Quoted

/-!
# Faults

Everything that can go wrong, by its cause. A `Violation` is a checked condition that does not hold;
`Violation.message` words it. A `Fault` is a cause together with the notes that callers added on the
way out, innermost first.
-/

namespace NovelScript

/-- Conditions that are checked without a wording of their own. -/
inductive Condition where
  | systemExtension
  | oneQuoteKind
  | matchingQuotes
  | literalReadsBack
  | sectionSizes
  | sectionLength
  | expressionLength
  | argumentCount
  | argumentData
  | argumentName
  | initialValue
  | parameterName
  | decodedOperand
  | operandPresent
  | indexPresent
  | oneResult
  /-- The innermost open block is of the kind that a command continues or closes. -/
  | blockKind
  | plainAssignment
  | definedVariable
  | assignable
  | typedVariable
  | systemNumber
  | catalogueEntry
  | variablePosition
  /-- A kept script that is not compressed is as long as the one it is used for. -/
  | packedLength
  deriving DecidableEq

/-- A condition that does not hold. -/
inductive Violation where
  | unmet (condition : Condition)
  | shortRead (want : Int) (got pos : Nat)
  | unreadRest (pos size : Nat) (version : Int)
  | signature (format : String) (found : Bytes)
  | unsupportedVersion (version : Int)
  | padding (word : Nat)
  | innerPadding (word : Nat)
  | paddingBytes (bytes : Bytes)
  | paddingWords (words : List Nat)
  | scriptNumber (found expected : Nat)
  | labelHash (expected actual : Nat) (name : Bytes)
  | tooManyVariables (count : Nat)
  /-- The directory of an archive is smaller than the header of the file. -/
  | directorySize
  | directoryShort (want got : Nat)
  | nameHash (expected actual : Nat) (name : Bytes)
  | readCompression (mark : Int) (name : String)
  | makeCompression (mark : Int) (name : String)
  | entryShort (want got : Nat) (name : String)
  | entryHash (expected actual : Nat) (name : String)
  | inflatedSize (want : Nat) (got : Nat) (name : String)
  | givenSize (length : Nat) (size : Int) (name : String)
  | escape (literal : String)
  | notDeclaration (statement : String)
  | declarationScope (scope statement : String)
  | typeSuffix (target : String)
  | dimensions (target : String)
  | meaningless (source : String)
  | unsupportedLiteral (source : String)
  | unknownSuffix (suffix source : String)
  | suffixType (name suffix type : String)
  | indexType (source : String)
  | conversionArity (source : String)
  | unknownConversion (source : String)
  | alreadyText (source : String)
  | alreadyNumber (source : String)
  | logicType (source : String)
  | textWithNumber (source : String)
  | signOfText (source : String)
  | unknownSign (source : String)
  | unknownOperator (operator : String)
  | labelTwice (label : String)
  | keywordTwice (keyword statement : String)
  | keywordUnwanted (keyword statement : String)
  | keywordUnassigned (keyword statement : String)
  /-- The body of a `with` holds something else than augmented assignments. -/
  | notAugmented (statement : String)
  | misplacedDeclaration (statement : String)
  | definedStatic (statement : String)
  | definedFolder (statement : String)
  | definedGlobal (statement : String)
  | definedLocal (statement : String)
  | definedSystem (statement : String)
  | commandTableVersion (found expected : Int)
  | labelTableVersion (found expected : Int)
  | scriptVersion (found expected : Int)
  | redefinedNonlocal (number : Int)
  | redefinedLocal (number : Int)
  | markType (mark : String) (number : Int) (found : String)
  | lineOrder (line previous : Int)
  | endingCode (code : Int)
  | labelsLeft (labels : List (Int × List Wording))
  | sameGlobal (name : String)
  | folderAndGlobal (name : String)
  | leadBytesMissing
  | spareCharacters
  deriving DecidableEq

namespace Violation

def labelsText (labels : List (Int × List Wording)) : String :=
  ", ".intercalate <| labels.map fun (pos, names) =>
    toString pos ++ ": " ++ Text.bracketed (names.map Text.quotedWording)

/-- The text of a violation. -/
def message : Violation → String
  | unmet _ => ""
  | shortRead want got pos => s!"read: want={want}, got={got}, at={pos}"
  | unreadRest pos size version => s!"not entirely consumed, idx={pos}, len={size}, ver={version}"
  | signature format found => "not " ++ format ++ " magic: " ++ Text.quotedBytes found
  | unsupportedVersion version => s!"unsupported version: {version}"
  | padding word => "nonzero padding: " ++ Text.hexPadded 8 word
  | innerPadding word => "nonzero in padding: " ++ Text.hexPadded 8 word
  | paddingBytes bytes => "nonzero in padding: " ++ Text.quotedBytes bytes
  | paddingWords words => "nonzero in padding: " ++ Text.bracketed (words.map toString)
  | scriptNumber found expected => s!"iscr({found}) != i{expected}"
  | labelHash expected actual name =>
    "hash(name): expect=" ++ Text.hexPadded 8 expected ++ ", actual=" ++ Text.hexPadded 8 actual ++
      ", name: " ++ Text.quotedBytes name
  | tooManyVariables count => s!"too many vars: {count}"
  | directorySize => "wrong version ?"
  | directoryShort want got => s!"ents: want {want}, got {got}"
  | nameHash expected actual name =>
    "hash(name): expect " ++ Text.hexPadded 8 expected ++ ", actual " ++ Text.hexPadded 8 actual ++
      ", name=" ++ Text.quotedBytes name
  | readCompression mark name => s!"unknown compression {mark}, file: {name}"
  | makeCompression mark name => s!"unknown compression: {mark}, file: {name}"
  | entryShort want got name => s!"file: want {want}, got {got}, file: {name}"
  | entryHash expected actual name =>
    "hash(file): expect " ++ Text.hexPadded 8 expected ++ ", actual " ++ Text.hexPadded 8 actual ++
      ", file: " ++ name
  | inflatedSize want got name => s!"comp: want {want}, got {got}, file: {name}"
  | givenSize length size name => s!"len(d)={length}, ul={size}, file: {name}"
  | escape literal => literal
  | notDeclaration statement => s!"not a declaration: {statement}"
  | declarationScope scope statement => s!"{scope} file: {statement}"
  | typeSuffix target => s!"type suffix: {target}"
  | dimensions target => s!"dims: {target}"
  | meaningless source => source
  | unsupportedLiteral source => s!"unsupported literal: {source}"
  | unknownSuffix suffix source => s!"unknown suffix {suffix}: {source}"
  | suffixType name suffix type => s!"ref {name}: suffix {suffix}, but type {type}"
  | indexType source => s!"non-int index: {source}"
  | conversionArity source => s!"invalid conversion: {source}"
  | unknownConversion source => s!"unknown conversion: {source}"
  | alreadyText source => s!"already str: {source}"
  | alreadyNumber source => s!"already num: {source}"
  | logicType source => s!"non-int in logic: {source}"
  | textWithNumber source => s!"str op int: {source}"
  | signOfText source => s!"neg str: {source}"
  | unknownSign source => s!"unknown op: {source}"
  | unknownOperator operator => s!"unknown operator: {operator}"
  | labelTwice label => s!"already defined LBL: {label}"
  | keywordTwice keyword statement => s!"{keyword} already set: {statement}"
  | keywordUnwanted keyword statement => s!"{keyword} unwanted: {statement}"
  | keywordUnassigned keyword statement => s!"no assign for {keyword}: {statement}"
  | notAugmented statement => s!"must be an ?= assign: {statement}"
  | misplacedDeclaration statement => s!"in non-global file: {statement}"
  | definedStatic statement => s!"already defined S: {statement}"
  | definedFolder statement => s!"already defined F: {statement}"
  | definedGlobal statement => s!"already defined G: {statement}"
  | definedLocal statement => s!"already defined L: {statement}"
  | definedSystem statement => s!"system var: {statement}"
  | commandTableVersion found expected => s!"yscm.ver={found}, ysvr.ver={expected}"
  | labelTableVersion found expected => s!"yslb.ver={found}, ysvr.ver={expected}"
  | scriptVersion found expected => s!"ystb.ver={found} self.ver={expected}"
  | redefinedNonlocal number => s!"redefine nonlocal #{number}"
  | redefinedLocal number => s!"redefine local #{number}"
  | markType mark number found => s!"want {mark}, but #{number} is {found}"
  | lineOrder line previous => s!"lno not increasing: c.lno={line}, prev_lno={previous}"
  | endingCode code => s!"unknown returncode {code}"
  | labelsLeft labels =>
    "lables not consumed: defaultdict(<class 'list'>, \x7b" ++ labelsText labels ++ "\x7d)"
  | sameGlobal name => s!"same name G: {name}"
  | folderAndGlobal name => s!"both in F and G: {name}"
  | leadBytesMissing => "already patched or bad exe"
  | spareCharacters => "unable to map all failed characters"

end Violation

/-- Why work fails. -/
inductive Cause where
  | violated (violation : Violation)
  | unterminated
  | unknownOpcode (word : Nat)
  | unknownMark (number : Int)
  | unknownType (number : Int)
  | unknownAssignment (number : Int)
  | unknownScope (number : Int)
  | unknownExtension (number : Int)
  | noGreatest
  | notLiteral
  | tableLength (length : Nat)
  | notNumeral (numeral : String)
  | longNumber
  | unknownVariable (name : String)
  | unknownNumber (number : Int)
  | unknownCommand (name : String)
  | unknownArgument (name : String)
  | unknownDeclaration (name : String)
  | pastEnd (position : Int)
  | emptyStack
  | reservedKeyword
  | notKey
  | notText
  | encodeOnly
  | missingCode (name : String)
  | overflow
  | unknownCodec (name : String)
  | zeroInName (name : String)
  | noFile (path : String)
  | isFolder (path : String)
  | notFolder (path : String)
  | occupied (path : String)
  | zeroInPath (path : String)
  | longName (path : String)
  | emptyRecord
  | damagedRecord
  | undecodable
  | unencodable
  | badGrammar
  | badRecord
  | badStream
  deriving DecidableEq

/-- The kinds of causes. -/
inductive Kind where
  | violation | value | key | index | argument | member | overflow | codec | noFile | isFolder
  | notFolder | occupied | system | ended | damaged | decoding | encoding | grammar | record
  | stream
  deriving DecidableEq

def Cause.kind : Cause → Kind
  | violated _ => .violation
  | unterminated | unknownOpcode _ | unknownMark _ | unknownType _ | unknownAssignment _
  | unknownScope _ | unknownExtension _ | noGreatest | notLiteral | tableLength _
  | notNumeral _ | longNumber | zeroInName _ | zeroInPath _ => .value
  | unknownVariable _ | unknownNumber _ | unknownCommand _ | unknownArgument _
  | unknownDeclaration _ => .key
  | pastEnd _ | emptyStack => .index
  | reservedKeyword | notKey | notText | encodeOnly => .argument
  | missingCode _ => .member
  | overflow => .overflow
  | unknownCodec _ => .codec
  | noFile _ => .noFile
  | isFolder _ => .isFolder
  | notFolder _ => .notFolder
  | occupied _ => .occupied
  | longName _ => .system
  | emptyRecord => .ended
  | damagedRecord => .damaged
  | undecodable => .decoding
  | unencodable => .encoding
  | badGrammar => .grammar
  | badRecord => .record
  | badStream => .stream

/-- A cause with the notes added on the way out. -/
structure Fault where
  cause : Cause
  notes : List String := []
  deriving DecidableEq

namespace Fault

def withNote (f : Fault) (note : String) : Fault :=
  { f with notes := f.notes ++ [note] }

end Fault

instance : Coe Cause Fault := ⟨fun c => ⟨c, []⟩⟩

instance : Coe Violation Fault := ⟨fun v => ⟨.violated v, []⟩⟩

instance : Coe Condition Fault := ⟨fun c => ⟨.violated (.unmet c), []⟩⟩

@[macro_inline]
def require {m : Type → Type} [Monad m] [MonadExceptOf Fault m] (holds : Bool) (fault : Fault) :
    m Unit :=
  if holds then pure () else throw fault

@[macro_inline]
def orFault {α : Type} (value : Option α) (fault : Fault) : Except Fault α :=
  match value with
  | some a => .ok a
  | none => .error fault

def ofResult {σ α : Type} (result : Except Fault α) : EStateM Fault σ α :=
  match result with
  | .ok a => pure a
  | .error f => throw f

/-- Adds a note to a failure. -/
def noting {α : Type} (note : String) (result : Except Fault α) : Except Fault α :=
  match result with
  | .ok a => .ok a
  | .error f => .error (f.withNote note)

end NovelScript
