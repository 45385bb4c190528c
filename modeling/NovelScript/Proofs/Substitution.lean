import Mathlib.Data.List.Nodup
import NovelScript.Proofs.Session
import NovelScript.Substitution

/-!
# Substitutions are faithful

A substitution that is made for some texts leaves alone the characters of these texts that the codec
has. Every other character gets a place of its own, of a character that the codec reads back and
that the texts do not have (`faithfulOn_of_ofFiles`). So two characters of the texts are never
written alike, unless the codec itself does so.
-/

namespace NovelScript

open List

/-- A codec has a character. -/
def Codec.Has (codec : Codec) (c : Char) : Prop := ∃ bytes, codec.encode c.toString = .ok bytes

/-- A codec reads a character back. -/
def Codec.KeepsChar (codec : Codec) (c : Char) : Prop :=
  ∃ bytes, codec.encode c.toString = .ok bytes ∧ codec.decode bytes = .ok c.toString

namespace Substitution

variable {codec : Codec}
variable {c : Char} {texts : List String} {present missing : List Char}

/-! ## Assigning places -/

theorem keepsChar_of_isSpare {n : Nat} (h : isSpare codec n = .ok true) :
    (Char.ofNat n).toNat = n ∧ codec.KeepsChar (Char.ofNat n) := by
  unfold isSpare at h
  split at h
  · next hvalid =>
    refine ⟨by rw [Char.ofNat, dif_pos hvalid]; rfl, ?_⟩
    dsimp only at h
    split at h
    · next bytes hbytes =>
      obtain ⟨text, htext, hsame⟩ := of_bind h
      exact ⟨bytes, hbytes, htext.trans (congrArg _ (eq_of_beq (Except.ok.inj hsame)))⟩
    · split at h <;> cases h
  · cases h

/-- Missing characters have spare places, which go up from a number on. -/
structure AssignedFrom (codec : Codec) (used : List Nat) (first : Nat) (missing : List Nat)
    (pairs : List (Nat × Nat)) : Prop where
  keys : pairs.map Prod.fst = missing
  increasing : (pairs.map Prod.snd).Pairwise (· < ·)
  spare : ∀ p ∈ pairs, first ≤ p.2 ∧ p.2 < limit ∧ p.2 ∉ used ∧ isSpare codec p.2 = .ok true

/-- Every missing character gets a place of its own. -/
theorem assignedFrom_of_assign {used missing : List Nat} {count : Nat} {pairs : List (Nat × Nat)}
    (hcount : count ≤ limit) (h : assign codec used count missing = .ok pairs) :
    AssignedFrom codec used (limit - count) missing pairs := by
  have hnil (first : Nat) : AssignedFrom codec used first [] [] := ⟨rfl, .nil, by simp⟩
  induction count generalizing missing pairs with
  | zero =>
    cases missing <;> cases h
    exact hnil _
  | succ count ih =>
    -- A point that is passed over does not count for those behind it.
    have hpassed {missing : List Nat} {pairs : List (Nat × Nat)}
        (h : assign codec used count missing = .ok pairs) :
        AssignedFrom codec used (limit - (count + 1)) missing pairs := by
      obtain ⟨hkeys, hup, hspare⟩ := ih (by omega) h
      exact ⟨hkeys, hup, fun p hp => (hspare p hp).imp_left (by omega)⟩
    cases missing with
    | nil =>
      cases h
      exact hnil _
    | cons m missing =>
      dsimp only [assign] at h
      split at h
      · exact hpassed h
      · next hused =>
        obtain ⟨taken, htaken, h₁⟩ := of_bind h
        cases taken with
        | false => exact hpassed h₁
        | true =>
          obtain ⟨rest, hrest, h₂⟩ := of_bind h₁
          cases h₂
          have hfirst := (ih (by omega) hrest).spare
          obtain ⟨hkeys, hup, hspare⟩ := hpassed hrest
          refine ⟨congrArg _ hkeys, .cons ?_ hup, forall_mem_cons.mpr ⟨?_, hspare⟩⟩
          · intro n hn
            obtain ⟨p, hp, rfl⟩ := mem_map.mp hn
            have := (hfirst p hp).1
            omega
          · exact ⟨by omega, by omega, by simpa using hused, htaken⟩

/-! ## The characters of texts -/

theorem mem_distinct (c : Char) (cs : List Char) : c ∈ distinct cs ↔ c ∈ cs := by
  fun_induction distinct cs with
  | case1 a rest ih | case2 a b rest h ih => simp [ih]
  | case3 => rfl

theorem mem_charactersOf : c ∈ charactersOf texts ↔ c ∈ texts.flatMap String.toList := by
  rw [charactersOf, mem_distinct, mem_mergeSort]

theorem has_of_canEncode {b : Bool} (h : canEncode codec c = .ok b) : b = true ↔ codec.Has c := by
  unfold canEncode at h
  split at h
  · next bytes hbytes =>
    cases h
    exact ⟨fun _ => ⟨bytes, hbytes⟩, fun _ => rfl⟩
  · next f hf =>
    split at h
    · cases h
      refine ⟨fun h => absurd h Bool.false_ne_true, fun hhas => ?_⟩
      obtain ⟨bytes, hbytes⟩ := hhas
      cases hf.symm.trans hbytes
    · cases h

/-- The characters of texts are those that the codec has and those that are missing. -/
theorem mem_of_missingIn (h : missingIn codec texts = .ok (present, missing)) (c : Char) :
    (c ∈ present ↔ c ∈ texts.flatMap String.toList ∧ codec.Has c) ∧
      (c ∈ missing ↔ c ∈ texts.flatMap String.toList ∧ ¬codec.Has c) := by
  obtain ⟨marked, hmarked, h₁⟩ := of_bind h
  cases h₁
  have hmarks := mapM_eq_ok.mp hmarked
  have hmem (b : Bool) : (c, b) ∈ marked ↔
      c ∈ texts.flatMap String.toList ∧ (b = true ↔ codec.Has c) := by
    rw [← mem_charactersOf]
    constructor
    · intro hm
      obtain ⟨c', hc', hmark⟩ := exists_of_mem_forall₂_right hmarks hm
      obtain ⟨b', hb', hsame⟩ := of_bind hmark
      cases hsame
      exact ⟨hc', has_of_canEncode hb'⟩
    · rintro ⟨hc, hb⟩
      obtain ⟨i, hi⟩ := mem_iff_getElem?.mp hc
      obtain ⟨m, hm, hmark⟩ := exists_getElem?_of_forall₂ hmarks hi
      obtain ⟨b', hb', hsame⟩ := of_bind hmark
      cases hsame
      cases Bool.eq_iff_iff.mpr (hb.trans (has_of_canEncode hb').symm)
      exact mem_of_getElem? hm
  simp [hmem]

/-! ## Substitutions -/

/-- What a substitution does to the characters of texts. -/
structure FaithfulOn (s : Substitution) (corpus : List Char) : Prop where
  has : ∀ c ∈ corpus, s.base.Has (s.substituteChar c)
  keeps : ∀ c ∈ corpus, s.base.Has c → s.substituteChar c = c
  moves : ∀ c ∈ corpus, ¬s.base.Has c →
    firstSpare ≤ (s.substituteChar c).toNat ∧ (s.substituteChar c).toNat < limit ∧
      s.substituteChar c ∉ corpus ∧ s.base.KeepsChar (s.substituteChar c)
  injective : ∀ c ∈ corpus, ∀ c' ∈ corpus, s.substituteChar c = s.substituteChar c' → c = c'
  /-- Different characters get different bytes, if those of the codec do. -/
  bytes : (∀ (a b : Char) (bytes : Bytes), s.base.encode a.toString = .ok bytes →
      s.base.encode b.toString = .ok bytes → a = b) →
    ∀ c ∈ corpus, ∀ c' ∈ corpus, c ≠ c' →
      ∃ bytes bytes', s.codec.encode c.toString = .ok bytes ∧
        s.codec.encode c'.toString = .ok bytes' ∧ bytes ≠ bytes'

theorem substitute_toString (s : Substitution) (c : Char) :
    s.substitute c.toString = (s.substituteChar c).toString := by
  simp [substitute, Char.toString]

section

variable {pairs : List (Nat × Nat)} {used : List Nat} {missing : List Char}
  (h : AssignedFrom codec used firstSpare (missing.map Char.toNat).reverse pairs)

include h

/-- A missing character is exchanged for its place. -/
theorem exists_place {c : Char} (hc : c ∈ missing) :
    ∃ n, (c.toNat, n) ∈ pairs ∧ substituteChar ⟨codec, pairs⟩ c = Char.ofNat n := by
  cases hfound : pairs.lookup c.toNat with
  | none =>
    have hkey : c.toNat ∈ pairs.map Prod.fst := by
      rw [h.keys, mem_reverse]
      exact mem_map_of_mem hc
    obtain ⟨p, hp, hsame⟩ := mem_map.mp hkey
    simpa [hsame] using lookup_eq_none_iff.mp hfound p hp
  | some n =>
    obtain ⟨before, after, hsplit, -⟩ := lookup_eq_some_iff.mp hfound
    exact ⟨n, by simp [hsplit], by simp [substituteChar, hfound]⟩

/-- Other characters are kept. -/
theorem substituteChar_of_not_mem {c : Char} (hc : c ∉ missing) :
    substituteChar ⟨codec, pairs⟩ c = c := by
  have hnone : pairs.lookup c.toNat = none := by
    rw [lookup_eq_none_iff]
    intro p hp
    have hkey : p.1 ∈ pairs.map Prod.fst := mem_map_of_mem hp
    rw [h.keys, mem_reverse] at hkey
    obtain ⟨c', hc', hsame⟩ := mem_map.mp hkey
    rw [← hsame, bne_iff_ne]
    intro heq
    exact hc (Char.toNat_inj.mp heq ▸ hc')
  simp [substituteChar, hnone]

/-- No two characters share a place. -/
theorem eq_of_places {c c' : Char} (hc : c ∈ missing) (hc' : c' ∈ missing)
    (hsame : substituteChar ⟨codec, pairs⟩ c = substituteChar ⟨codec, pairs⟩ c') : c = c' := by
  obtain ⟨n, hn, hto⟩ := exists_place h hc
  obtain ⟨n', hn', hto'⟩ := exists_place h hc'
  have hplace : n = n' := by
    have hchar : Char.ofNat n = Char.ofNat n' := by rw [← hto, hsame, hto']
    exact (keepsChar_of_isSpare (h.spare _ hn).2.2.2).1.symm.trans
      (hchar ▸ (keepsChar_of_isSpare (h.spare _ hn').2.2.2).1)
  have hnodup : (pairs.map Prod.snd).Nodup := h.increasing.imp Nat.ne_of_lt
  exact Char.toNat_inj.mp (congrArg Prod.fst (inj_on_of_nodup_map hnodup hn hn' hplace))

end

theorem faithfulOn_of_ofMissing {s : Substitution} {corpus : List Char}
    (hpresent : ∀ c, c ∈ present ↔ c ∈ corpus ∧ codec.Has c)
    (hmissing : ∀ c, c ∈ missing ↔ c ∈ corpus ∧ ¬codec.Has c)
    (h : ofMissing codec present missing = .ok s) : s.base = codec ∧ s.FaithfulOn corpus := by
  obtain ⟨pairs, hpairs, h₁⟩ := of_bind h
  have hassigned : AssignedFrom codec _ firstSpare _ pairs :=
    assignedFrom_of_assign (Nat.sub_le _ _) hpairs
  split at h₁
  · cases h₁
  cases h₁
  have hkeeps (c : Char) (hhas : codec.Has c) : substituteChar ⟨codec, pairs⟩ c = c :=
    substituteChar_of_not_mem hassigned fun hc => ((hmissing c).mp hc).2 hhas
  -- A missing character goes to a spare one that no text uses.
  have hmoves (c : Char) (hc : c ∈ corpus) (hlacks : ¬codec.Has c) :
      firstSpare ≤ (substituteChar ⟨codec, pairs⟩ c).toNat ∧
        (substituteChar ⟨codec, pairs⟩ c).toNat < limit ∧
        substituteChar ⟨codec, pairs⟩ c ∉ corpus ∧
        codec.KeepsChar (substituteChar ⟨codec, pairs⟩ c) := by
    obtain ⟨n, hn, hto⟩ := exists_place hassigned ((hmissing c).mpr ⟨hc, hlacks⟩)
    obtain ⟨hfirst, hlast, hunused, hspare⟩ := hassigned.spare _ hn
    obtain ⟨hnumber, hkept⟩ := keepsChar_of_isSpare hspare
    rw [hto, hnumber]
    refine ⟨hfirst, hlast, fun hother => hunused ?_, hkept⟩
    obtain ⟨bytes, hbytes, -⟩ := hkept
    exact mem_map.mpr ⟨_, (hpresent _).mpr ⟨hother, bytes, hbytes⟩, hnumber⟩
  have hinjective (c : Char) (hc : c ∈ corpus) (c' : Char) (hc' : c' ∈ corpus)
      (hsame : substituteChar ⟨codec, pairs⟩ c = substituteChar ⟨codec, pairs⟩ c') : c = c' := by
    -- Kept characters are in the corpus and spare ones are not, so only equal kinds can meet.
    by_cases hhas : codec.Has c <;> by_cases hhas' : codec.Has c'
    · rwa [hkeeps c hhas, hkeeps c' hhas'] at hsame
    · rw [hkeeps c hhas] at hsame
      exact absurd (hsame ▸ hc) (hmoves c' hc' hhas').2.2.1
    · rw [hkeeps c' hhas'] at hsame
      exact absurd (hsame ▸ hc') (hmoves c hc hhas).2.2.1
    · exact eq_of_places hassigned ((hmissing c).mpr ⟨hc, hhas⟩) ((hmissing c').mpr ⟨hc', hhas'⟩)
        hsame
  have hhas (c : Char) (hc : c ∈ corpus) : codec.Has (substituteChar ⟨codec, pairs⟩ c) := by
    by_cases hhas : codec.Has c
    · rwa [hkeeps c hhas]
    · exact (hmoves c hc hhas).2.2.2.imp fun _ => And.left
  refine ⟨rfl, hhas, fun c _ => hkeeps c, hmoves, hinjective, ?_⟩
  intro hcodec c hc c' hc' hne
  obtain ⟨bytes, hbytes⟩ := hhas c hc
  obtain ⟨bytes', hbytes'⟩ := hhas c' hc'
  rw [← substitute_toString] at hbytes hbytes'
  refine ⟨bytes, bytes', hbytes, hbytes', ?_⟩
  rintro rfl
  rw [substitute_toString] at hbytes hbytes'
  exact hne (hinjective c hc c' hc' (hcodec _ _ _ hbytes hbytes'))

/-- A substitution that is made for files is faithful on the characters of their texts. -/
theorem faithfulOn_of_ofFiles {ρ : Type} {sources : Sources} {w w' : World ρ} {s : Substitution}
    (h : ofFiles codec sources w = .ok s w') :
    ∃ texts w₁, readSources sources w = .ok texts w₁ ∧ s.base = codec ∧
      s.FaithfulOn (texts.flatMap String.toList) := by
  obtain ⟨texts, w₁, htexts, h₁⟩ := runBind_eq_ok.mp h
  obtain ⟨⟨present, missing⟩, w₂, hresult, h₂⟩ := runBind_eq_ok.mp h₁
  obtain ⟨hdivided, -⟩ := ofResult_eq_ok.mp hresult
  obtain ⟨_, w₃, -, h₃⟩ := runBind_eq_ok.mp h₂
  obtain ⟨s', w₄, hmade, h₄⟩ := runBind_eq_ok.mp h₃
  obtain ⟨_, w₅, -, h₅⟩ := runBind_eq_ok.mp h₄
  obtain ⟨rfl, rfl⟩ := runPure_eq_ok.mp h₅
  exact ⟨texts, _, htexts, faithfulOn_of_ofMissing (fun c => (mem_of_missingIn hdivided c).1)
    (fun c => (mem_of_missingIn hdivided c).2) (ofResult_eq_ok.mp hmade).1⟩

/-- A codec of two letters. -/
def twoLetters : Codec :=
  .ofPartial (fun cs => cs.mapM (List.lookup · [('a', 0x61), ('Ā', 0x80)]))
    fun bytes => bytes.mapM (List.lookup · [(0x61, 'a'), (0x80, 'Ā')])

/-- A script with a letter of this codec and another character. -/
def sampleWorld : World Unit where
  tree := ⟨[["src"]], [(["src", "a.yuri"], ⟨.bytes [0x61, 0xC3, 0xA9], 0⟩)]⟩

theorem faithfulOn_of_ofFiles_sampleWorld :
    ∃ s w, ofFiles twoLetters ⟨["src"], Codec.utf8, [".yuri"]⟩ sampleWorld = .ok s w ∧
      s.pairs = [(233, 256)] ∧ s.FaithfulOn ['a', 'é'] := by
  have hread : readSources ⟨["src"], Codec.utf8, [".yuri"]⟩ sampleWorld =
      .ok ["aé"] sampleWorld := by decide +kernel
  have hcharacters : charactersOf ["aé"] = ['a', 'é'] := by
    rw [charactersOf, List.mergeSort_of_pairwise] <;> decide
  have hdivided : missingIn twoLetters ["aé"] = .ok (['a'], ['é']) := by
    rw [missingIn, hcharacters]
    decide +kernel
  have hmade : ofFiles twoLetters ⟨["src"], Codec.utf8, [".yuri"]⟩ sampleWorld =
      .ok ⟨twoLetters, [(233, 256)]⟩ { sampleWorld with log := ["é"] } := by
    rw [ofFiles, runBind_of_ok hread, hdivided]
    rfl
  obtain ⟨texts, w₁, htexts, -, hfaithful⟩ := faithfulOn_of_ofFiles hmade
  cases htexts.symm.trans hread
  exact ⟨_, _, hmade, rfl, hfaithful⟩

end Substitution

end NovelScript
