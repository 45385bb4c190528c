import NovelScript.Compile.Assembly
import NovelScript.Compile.Statement

/-!
# Compiling scripts

A script is compiled on its own. What is left to the linker are its symbols: where the instructions
name a variable, they carry the position of its symbol, and the result tells all these places.
-/

namespace NovelScript

/-- A label at its position. -/
structure CompiledLabel where
  position : Nat
  name : Wording
  ifDepth : Nat
  loopDepth : Nat
  deriving DecidableEq

/-- A symbol with the places that name it. -/
structure SymbolUse where
  offsets : List Nat
  symbol : Symbol
  deriving DecidableEq

/-- A script before it is linked. -/
structure CompiledScript where
  texts : Nat
  statics : Nat
  temporaries : Nat
  labels : List CompiledLabel
  symbols : List SymbolUse
  segments : List Bytes
  deriving DecidableEq, Inhabited

structure CompileOptions where
  version : Int
  /-- The version that the header shows, if not the one that is compiled for. -/
  shownVersion : Option Int := none
  codec : Codec
  countsByType : Bool := false
  codecNamed : Wording → Codec := Codec.ofWording

def CompileOptions.context (options : CompileOptions) (vocabulary : Vocabulary) : CompileContext :=
  ⟨vocabulary, options.countsByType, options.codecNamed⟩

def numberOffset : Nat := 4

/-- Checks the number of an access. -/
def checkSymbol (count : Nat) : Instr → Except Fault Unit
  | .access _ _ index =>
    require (index < firstUserNumber + count) (Cause.pastEnd (index - firstUserNumber))
  | _ => .ok ()

/-- Adds a place to those of the symbol that an instruction names, if it names one. -/
def noteUse (offset : Nat) (i : Instr) (uses : Array (List Nat)) : Array (List Nat) :=
  match i with
  | .access _ _ index =>
    if index < firstUserNumber then uses
    else uses.modify (index - firstUserNumber).toNat ((offset + numberOffset) :: ·)
  | _ => uses

/-- The places that name each symbol. -/
def symbolUses (count : Nat) (instructions : List (Nat × Nat × Instr)) : Array (List Nat) :=
  instructions.foldr (fun (offset, _, i) uses => noteUse offset i uses)
    (Array.replicate count [])

def DraftLabel.compiled (version : Int) (places : Array Draft.Place) (l : DraftLabel) :
    CompiledLabel :=
  let p := places.getD l.command {}
  ⟨if Draft.isSplit version then p.index else p.offset, l.name, l.ifDepth, l.loopDepth⟩

/-- Compiles a script. -/
def compileScript (options : CompileOptions) (vocabulary : Vocabulary) (source : List Stmt) :
    Except Fault CompiledScript := do
  let (commands, p) ← Compiling.statements (options.context vocabulary) {} source
    { codec := options.codec }
  let symbols := p.names.symbols.reverse
  let assembly ← Draft.assemble options.version options.shownVersion p.codec
    (checkSymbol symbols.length) commands
  let uses := symbolUses symbols.length assembly.instructions
  let places := (assembly.placed.map Draft.Placed.place).toArray
  return {
    texts := p.texts
    statics := p.statics
    temporaries := p.temporaries
    labels := p.labels.reverse.map (DraftLabel.compiled options.version places)
    symbols := List.zipWith SymbolUse.mk uses.toList symbols
    segments := assembly.segments }

end NovelScript
