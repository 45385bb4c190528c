import NovelScript.Files.Session
import NovelScript.Reader

/-!
# Substitution codecs

A game that can show only the characters of one code page can be given others: each character that
the code page lacks takes the place of one that it has and that no text of the game uses. The game
then needs fonts that draw the one as the other, and a table that says which.
-/

namespace NovelScript

/-- Characters that take the place of others, by their numbers: the missing one, and the one whose
place it takes. -/
structure Substitution where
  base : Codec
  pairs : List (Nat × Nat)

namespace Substitution

/-! ## Making one -/

/-- The first character whose place can be taken. -/
def firstSpare : Nat := 256

/-- Behind the last character that takes part. -/
def limit : Nat := 65536

def canEncode (codec : Codec) (c : Char) : Except Fault Bool :=
  match codec.encode c.toString with
  | .ok _ => .ok true
  | .error f => if f.cause = .unencodable then .ok false else .error f

/-- Whether a character can stand for another. -/
def isSpare (codec : Codec) (n : Nat) : Except Fault Bool :=
  if n.isValidChar then
    let c := (Char.ofNat n).toString
    match codec.encode c with
    | .ok bytes => do return (← codec.decode bytes) == c
    | .error f => if f.cause = .unencodable then .ok false else .error f
  else .ok false

/-- Gives missing characters the places of spare ones, in order; `count` numbers are left. -/
def assign (codec : Codec) (used : List Nat) : (count : Nat) → (missing : List Nat) →
    Except Fault (List (Nat × Nat))
  | _, [] => .ok []
  | 0, _ :: _ => .error Violation.spareCharacters
  | count + 1, m :: missing =>
    let n := limit - (count + 1)
    if used.contains n then assign codec used count (m :: missing)
    else do
      if ← isSpare codec n then return (m, n) :: (← assign codec used count missing)
      else assign codec used count (m :: missing)

def distinct : List Char → List Char
  | a :: b :: rest => if a = b then distinct (b :: rest) else a :: distinct (b :: rest)
  | cs => cs

/-- The characters of texts, sorted. -/
def charactersOf (texts : List String) : List Char :=
  distinct ((texts.flatMap String.toList).mergeSort fun a b => decide (a ≤ b))

/-- The substitution for the characters of texts, and the characters that the codec lacks. The
last of these gets the first place. -/
def missingIn (codec : Codec) (texts : List String) : Except Fault (List Char × List Char) := do
  let marked ← (charactersOf texts).mapM fun c => do return (c, ← canEncode codec c)
  return ((marked.filter Prod.snd).map Prod.fst, (marked.filter fun m => !m.2).map Prod.fst)

/-- Places for the missing characters. -/
def ofMissing (codec : Codec) (present missing : List Char) : Except Fault Substitution := do
  let pairs ← assign codec (present.map Char.toNat) (limit - firstSpare)
    (missing.map Char.toNat).reverse
  match pairs.find? fun (m, _) => limit ≤ m with
  | some (m, _) => .error (Cause.pastEnd m)
  | none => return ⟨codec, pairs⟩

/-! ## Using it -/

def substituteChar (s : Substitution) (c : Char) : Char :=
  match s.pairs.lookup c.toNat with
  | some n => Char.ofNat n
  | none => c

/-- A text with its characters exchanged. -/
def substitute (s : Substitution) (text : String) : String :=
  String.ofList (text.toList.map s.substituteChar)

/-- The codec that substitutes and then encodes. It cannot decode. -/
def codec (s : Substitution) : Codec where
  encode text := s.base.encode (s.substitute text)
  decode _ := .error Cause.encodeOnly

/-- The table of the substitution: of each pair the place that is taken, then the character. -/
def table (s : Substitution) : Except Fault Bytes := do
  return (← s.pairs.mapM fun (m, n) => putRecord [(2, (n : Int)), (2, (m : Int))]).flatten

/-! ## Files -/

structure Sources where
  folders : List String
  codec : Codec
  endings : List String

/-- Reads the texts of all sources. -/
def readSources {ρ : Type} (s : Sources) : Session ρ (List String) := do
  let texts ← s.folders.mapM fun root => do
    let folders ← Session.walk root
    let own ← folders.mapM fun (folder, names) =>
      (names.filter fun n => s.endings.any fun e => e.toList.isSuffixOf n.toList).mapM fun n =>
        Session.readText s.codec (Path.join folder n)
    return own.flatten
  return texts.flatten

/-- Makes the substitution for files, and reports the characters that are missing. The codec must be
known, also if the files have no characters. -/
def ofFiles {ρ : Type} (codec : Codec) (s : Sources) : Session ρ Substitution := do
  let texts ← readSources s
  let (present, missing) ← ofResult (missingIn codec texts)
  Session.say (String.ofList missing)
  let substitution ← ofResult (ofMissing codec present missing)
  Session.requireKnown codec
  return substitution

end Substitution

end NovelScript
