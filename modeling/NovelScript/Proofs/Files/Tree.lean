import NovelScript.Files.Spot
import NovelScript.Proofs.Outcome

/-!
# Places in a file tree

A path that leads somewhere leads to the place that it means as it is written. A file that is put at
a place is what the paths to it lead to afterwards. Paths that differ only in their endings lead to
places side by side (`Tree.locate_sibling`), and a path leads the same way in two trees that differ
only in files which it does not come through (`Tree.Thinned`).
-/

namespace NovelScript

open List NovelScript.Path

variable {ρ : Type}
variable {path part ending : String} {p q : Place}
variable {t t' : Tree ρ} {spot start : Spot ρ} {found : Option (File ρ)}
  (files : List (Place × File ρ))

/-! ## Places -/

/-- What is at the end of a path stands at a place, and if it is a file, it is the one there. -/
def Spot.StandsAt (files : List (Place × File ρ)) (p : Place) : Spot ρ → Prop
  | .folder q => q = p
  | .file q f => q = p ∧ files.lookup p = some f
  | .free q => q = p

theorem Tree.standsAt_follow {spot' : Spot ρ} (hspot : spot.StandsAt t.files p)
    (h : t.follow path spot part = .ok spot') : spot'.StandsAt t.files (enter p part) := by
  cases spot with
  | file | free => cases h
  | folder q =>
    have hq : q = p := hspot
    subst hq
    rw [follow] at h
    unfold enter
    by_cases hsame : part = "" ∨ part = "."
    · rw [if_pos hsame] at h
      cases h
      rw [if_pos (by simpa using hsame)]
      rfl
    · rw [if_neg hsame] at h
      rw [if_neg (by simpa using hsame)]
      by_cases hup : part = ".."
      · rw [if_pos hup] at h ⊢
        cases h
        rfl
      · rw [if_neg hup] at h ⊢
        split at h
        · cases h
        · cases h
          unfold spotAt
          split
          · rfl
          · cases hfile : t.file? (q ++ [part]) with
            | none => exact rfl
            | some f => exact ⟨rfl, hfile⟩

/-- Following parts one by one leads where the parts lead. -/
theorem Tree.standsAt_foldlM (parts : List String) (hstart : start.StandsAt t.files p)
    (h : parts.foldlM (t.follow path) start = .ok spot) :
    spot.StandsAt t.files (parts.foldl enter p) := by
  induction parts generalizing p start with
  | nil =>
    cases h
    exact hstart
  | cons part rest ih =>
    obtain ⟨next, hnext, h⟩ := of_bind h
    exact ih (standsAt_follow hstart hnext) h

/-- The system takes the path: it has no null character and is not too long. -/
def Path.Fits (path : String) : Prop :=
  path.toList.contains '\x00' = false ∧ path.utf8ByteSize ≤ maxPath

/-- A path is followed part by part from its start. -/
theorem Tree.locate_eq (hfits : Path.Fits path) (hnonempty : path ≠ "") :
    t.locate path = (Path.parts path).foldlM (t.follow path) (.folder (Path.start path)) := by
  have hempty : path.isEmpty = false := by
    rw [Bool.eq_false_iff, ne_eq, String.isEmpty_iff]
    exact hnonempty
  rw [locate, (require_eq_ok (u := ())).mpr (by rw [hfits.1]; rfl), ok_bind,
    (require_eq_ok (u := ())).mpr (by rw [hempty]; rfl), ok_bind,
    (require_eq_ok (u := ())).mpr (decide_eq_true hfits.2), ok_bind]

/-- Only a missing file is told of a path that the system takes. -/
theorem Path.fits_of_locate (hnonempty : path ≠ "")
    (h : ∀ f, t.locate path = .error f → f.cause.kind = .noFile) : Path.Fits path := by
  have hempty : path.isEmpty = false := by
    rw [Bool.eq_false_iff, ne_eq, String.isEmpty_iff]
    exact hnonempty
  have hzero : path.toList.contains '\x00' = false := by
    rw [Bool.eq_false_iff]
    intro hzero
    have hfails : t.locate path = .error (Cause.zeroInPath path) := by
      rw [Tree.locate, hzero]
      rfl
    cases h _ hfails
  refine ⟨hzero, ?_⟩
  by_contra hlong
  have hfails : t.locate path = .error (Cause.longName path) := by
    rw [Tree.locate, hzero, hempty, decide_eq_false hlong]
    rfl
  cases h _ hfails

section

variable (h : t.locate path = .ok spot)
include h

theorem Path.fits_of_ok : Path.Fits path ∧ path ≠ "" := by
  have hnonempty : path ≠ "" := by
    rintro rfl
    cases h
  refine ⟨fits_of_locate (t := t) hnonempty fun f hf => ?_, hnonempty⟩
  rw [h] at hf
  cases hf

theorem Tree.foldlM_of_locate :
    (Path.parts path).foldlM (t.follow path) (.folder (Path.start path)) = .ok spot := by
  obtain ⟨hfits, hnonempty⟩ := fits_of_ok h
  rwa [locate_eq hfits hnonempty] at h

/-- A path that leads somewhere leads to the place it means. -/
theorem Tree.standsAt_of_locate : spot.StandsAt t.files (Path.place path) := by
  have hstart : (Spot.folder (Path.start path) : Spot ρ).StandsAt t.files (Path.start path) := rfl
  exact standsAt_foldlM _ hstart (foldlM_of_locate h)

end

/-- Files with one at a place, in the place of the one that was there. -/
def putFile (files : List (Place × File ρ)) (p : Place) (f : File ρ) :
    List (Place × File ρ) :=
  (files.filter fun (q, _) => q != p) ++ [(p, f)]

theorem mem_putFile {files : List (Place × File ρ)} {f : File ρ} {e : Place × File ρ}
    (h : e ∈ putFile files p f) : e ∈ files ∨ e = (p, f) := by
  rcases mem_append.mp h with h | h
  · exact .inl (mem_of_mem_filter h)
  · exact .inr (mem_singleton.mp h)

/-- A file that was put is found. -/
theorem lookup_putFile_self (p : Place) (f : File ρ) : (putFile files p f).lookup p = some f := by
  unfold putFile
  rw [lookup_append, lookup_eq_none_iff.mpr, Option.none_or]
  · simp
  · intro e he
    have := (mem_filter.mp he).2
    simpa [bne_comm] using this

theorem Tree.files_addFolder (t : Tree ρ) (p : Place) : (t.addFolder p).files = t.files := by
  unfold addFolder
  split <;> rfl

theorem lookup_filter (keeps : Place → Bool) (p : Place) :
    (files.filter fun e => keeps e.1).lookup p = if keeps p then files.lookup p else none := by
  induction files with
  | nil => simp
  | cons e rest ih =>
    obtain ⟨q, f⟩ := e
    rw [filter_cons, lookup_cons]
    by_cases hp : p = q
    · subst hp
      cases hkeeps : keeps p <;> simp [ih, hkeeps]
    · cases hkeeps : keeps q <;> simp [ih, lookup_cons, beq_eq_false_iff_ne.mpr hp]

/-- What is at a place that is no folder. -/
def Spot.ofFile? (p : Place) : Option (File ρ) → Spot ρ
  | none => .free p
  | some f => .file p f

/-- A path to a file, old or new, leads to its own place. -/
theorem Tree.place_of_locate (h : t.locate path = .ok (.ofFile? p found)) :
    p = Path.place path := by
  have hstands := standsAt_of_locate h
  cases found with
  | none => exact hstands
  | some f => exact hstands.1

/-- A file can be written at a path: a file is there or nothing. -/
def Tree.HasRoom (t : Tree ρ) (path : String) : Prop :=
  ∃ found, t.locate path = .ok (.ofFile? (Path.place path) found)

/-- What a spot of one tree is in another one with the same folders. -/
def Spot.within (t : Tree ρ) : Spot ρ → Spot ρ
  | .folder p => .folder p
  | .file p _ | .free p => .ofFile? p (t.file? p)

@[simp]
theorem Spot.within_ofFile? (t : Tree ρ) (p : Place) (found : Option (File ρ)) :
    (Spot.ofFile? p found).within t = .ofFile? p (t.file? p) := by
  cases found <;> rfl

theorem Tree.follow_within (hfolders : t'.folders = t.folders) {next : Spot ρ}
    (h : t.follow path (.folder q) part = .ok next) :
    t'.follow path (.folder q) part = .ok (next.within t') := by
  have hspot (p : Place) : t'.spotAt p = (t.spotAt p).within t' := by
    have hsame : t'.isFolder p = t.isFolder p := by rw [isFolder, isFolder, hfolders]
    rw [spotAt, spotAt, hsame]
    split_ifs
    · rfl
    · cases t.file? p <;> cases hfile : t'.file? p <;> simp [Spot.within, Spot.ofFile?, hfile]
  rw [follow] at h ⊢
  split_ifs at h ⊢ <;> cases h
  · rfl
  · rfl
  · rw [hspot]

/-- With the same folders a path leads to the same place. -/
theorem Tree.locate_within (hfolders : t'.folders = t.folders) (h : t.locate path = .ok spot) :
    t'.locate path = .ok (spot.within t') := by
  have hparts (parts : List String) (q : Place)
      (hway : parts.foldlM (t.follow path) (.folder q) = .ok spot) :
      parts.foldlM (t'.follow path) (.folder q) = .ok (spot.within t') := by
    induction parts generalizing q with
    | nil =>
      cases hway
      rfl
    | cons part rest ih =>
      rw [foldlM_cons] at hway ⊢
      obtain ⟨next, hnext, hrest⟩ := of_bind hway
      rw [follow_within hfolders hnext, ok_bind]
      -- Nothing can follow a part that leads to no folder.
      cases next with
      | folder r => exact ih r hrest
      | file | free =>
        cases rest with
        | cons => cases hrest
        | nil =>
          cases hrest
          rfl
  obtain ⟨hfits, hnonempty⟩ := fits_of_ok h
  rw [locate_eq hfits hnonempty] at h ⊢
  exact hparts _ _ h

/-- Where a file was put, its path leads to it. -/
theorem Tree.locate_put (h : t.locate path = .ok (.ofFile? p found)) (f : File ρ) :
    (t.put p f).locate path = .ok (.file p f) := by
  have hfile : (t.put p f).file? p = some f := lookup_putFile_self t.files p f
  have hfolders : (t.put p f).folders = t.folders := rfl
  have hlocate := locate_within hfolders h
  rwa [Spot.within_ofFile?, hfile] at hlocate

/-- A file that is put elsewhere is not in the way. -/
theorem Tree.locate_put_of_ne {g : File ρ} (h : t.locate path = .ok (.file q g)) (hne : q ≠ p)
    (f : File ρ) : (t.put p f).locate path = .ok (.file q g) := by
  have hfile : (t.put p f).file? q = some g := by
    obtain ⟨rfl, hfile⟩ := standsAt_of_locate h
    show ((t.files.filter fun e => e.1 != p) ++ [(p, f)]).lookup _ = _
    rw [lookup_append, lookup_filter t.files (· != p), if_pos (bne_iff_ne.mpr hne), hfile]
    rfl
  have hfolders : (t.put p f).folders = t.folders := rfl
  rw [locate_within hfolders h, Spot.within, hfile]
  rfl

/-! ## Paths that differ in their endings -/

/-- An ending of file names: it starts no new part, and no name that ends so is a dot or two. -/
def Path.IsEnding (ending : String) : Prop :=
  '/' ∉ ending.toList ∧ ∃ c, ending.toList.getLast? = some c ∧ c ≠ '.'

theorem Text.exists_partsAt_append (separator : Char) (text : List Char) :
    ∃ parts last, ∀ ending, separator ∉ ending →
      partsAt separator (text ++ ending) = parts ++ [last ++ ending] := by
  induction text with
  | nil =>
    refine ⟨[], [], fun ending h => ?_⟩
    induction ending with
    | nil => rfl
    | cons c rest ih =>
      rw [mem_cons, not_or] at h
      rw [nil_append] at ih ⊢
      rw [partsAt, if_neg (Ne.symm h.1), ih h.2]
      rfl
  | cons c rest ih =>
    obtain ⟨parts, last, ih⟩ := ih
    -- An ending without separators only makes the last part longer.
    by_cases hc : c = separator
    · refine ⟨[] :: parts, last, fun ending h => ?_⟩
      rw [cons_append, partsAt, if_pos hc, ih ending h]
      rfl
    · cases parts with
      | nil =>
        refine ⟨[], c :: last, fun ending h => ?_⟩
        rw [cons_append, partsAt, if_neg hc, ih ending h]
        rfl
      | cons part parts =>
        refine ⟨(c :: part) :: parts, last, fun ending h => ?_⟩
        rw [cons_append, partsAt, if_neg hc, ih ending h]
        rfl

/-- The parts of a path with an ending: only the last one has to do with the ending. -/
theorem Path.exists_parts_append (path : String) :
    ∃ parts last, ∀ ending, '/' ∉ ending.toList →
      Path.parts (path ++ ending) = parts ++ [last ++ ending] := by
  obtain ⟨parts, last, h⟩ := Text.exists_partsAt_append '/' path.toList
  refine ⟨parts.map String.ofList, String.ofList last, fun ending hending => ?_⟩
  rw [Path.parts, String.toList_append, h _ hending, map_append, map_singleton,
    String.ofList_append, String.ofList_toList]

theorem Path.start_append (path : String) (h : '/' ∉ ending.toList) :
    Path.start (path ++ ending) = Path.start path := by
  have hhead : (path ++ ending).toList.head? = some '/' ↔ path.toList.head? = some '/' := by
    rw [String.toList_append]
    cases path.toList with
    | nil =>
      rw [nil_append]
      refine ⟨fun hslash => absurd (mem_of_mem_head? hslash) h, nofun⟩
    | cons c rest => rfl
  have hsame : isAbsolute (path ++ ending) = isAbsolute path := by
    rw [Bool.eq_iff_iff, isAbsolute, isAbsolute, beq_iff_eq, beq_iff_eq, hhead]
  rw [Path.start, Path.start, hsame]

theorem Path.IsEnding.append_ne (h : Path.IsEnding ending) (name : String) :
    ¬(name ++ ending = "" ∨ name ++ ending = ".") ∧ name ++ ending ≠ ".." := by
  obtain ⟨-, c, hlast, hc⟩ := h
  have hend : (name ++ ending).toList.getLast? = some c := by
    rw [String.toList_append, getLast?_append, hlast]
    rfl
  refine ⟨?_, ?_⟩
  · rintro (heq | heq) <;> rw [heq] at hend
    · cases hend
    · exact hc (Option.some.inj hend).symm
  · intro heq
    rw [heq] at hend
    exact hc (Option.some.inj hend).symm

theorem Path.place_append {last : String} {parts : List String} (h : Path.IsEnding ending)
    (hparts : Path.parts (path ++ ending) = parts ++ [last ++ ending]) :
    Path.place (path ++ ending) = parts.foldl enter (Path.start path) ++ [last ++ ending] := by
  obtain ⟨hsame, hup⟩ := h.append_ne last
  rw [Path.place, start_append path h.1, hparts, foldl_append, foldl_cons,
    foldl_nil, enter, if_neg (by simpa using hsame), if_neg hup]

/-- Endings of one path only change the last name of its place. -/
theorem Path.exists_place_append (path : String) :
    ∃ folder name, ∀ ending, Path.IsEnding ending →
      Path.place (path ++ ending) = folder ++ [name ++ ending] := by
  obtain ⟨parts, last, hparts⟩ := exists_parts_append path
  exact ⟨_, last, fun ending h => place_append h (hparts ending h.1)⟩

/-- A name with an ending is entered as it is. -/
theorem Tree.follow_eq (name : String) (hending : Path.IsEnding ending)
    (hshort : (name ++ ending).utf8ByteSize ≤ maxName) :
    t.follow path (.folder q) (name ++ ending) = .ok (t.spotAt (q ++ [name ++ ending])) := by
  obtain ⟨hsame, hup⟩ := hending.append_ne name
  rw [follow, if_neg hsame, if_neg hup, if_neg (Nat.not_lt.mpr hshort)]

theorem Tree.foldlM_follow (path' : String) (parts : List String)
    (h : parts.foldlM (t.follow path) start = .ok spot) :
    parts.foldlM (t.follow path') start = .ok spot := by
  induction parts generalizing start with
  | nil => exact h
  | cons part rest ih =>
    rw [foldlM_cons] at h ⊢
    obtain ⟨next, hnext, h⟩ := of_bind h
    refine bind_eq_ok.mpr ⟨next, ?_, ih h⟩
    cases start with
    | folder q =>
      rw [follow] at hnext ⊢
      split_ifs at hnext ⊢ <;> exact hnext
    | file | free => cases hnext

/-- Where a path leads to a place that is no folder, the same path with another ending leads to the
place beside it. -/
theorem Tree.locate_sibling {ending' : String} (hending : Path.IsEnding ending)
    (hending' : Path.IsEnding ending') (h : t.locate (path ++ ending) = .ok (.ofFile? p found))
    (hfits : Path.Fits (path ++ ending'))
    (hshort : ∀ name, (Path.place (path ++ ending')).getLast? = some name →
      name.utf8ByteSize ≤ maxName) :
    t.locate (path ++ ending') = .ok (t.spotAt (Path.place (path ++ ending'))) := by
  obtain ⟨parts, last, hparts⟩ := exists_parts_append path
  have hplace := place_append hending' (hparts ending' hending'.1)
  have hway := foldlM_of_locate h
  rw [start_append path hending.1, hparts ending hending.1, foldlM_append] at hway
  obtain ⟨around, haround, hlast⟩ := of_bind hway
  obtain ⟨next, hnext, -⟩ := of_bind hlast
  cases around with
  | file | free => cases hnext
  | folder q =>
    have hstart : (Spot.folder (Path.start path) : Spot ρ).StandsAt t.files (Path.start path) := rfl
    have hq : q = parts.foldl enter (Path.start path) := standsAt_foldlM parts hstart haround
    have hnonempty : path ++ ending' ≠ "" := fun hempty => (hending'.append_ne path).1 (.inl hempty)
    rw [locate_eq hfits hnonempty, start_append path hending'.1, hparts ending' hending'.1,
      foldlM_append, foldlM_follow _ parts haround, ok_bind, foldlM_cons, hplace, ← hq]
    rw [follow_eq last hending' (hshort _ (by rw [hplace, getLast?_concat]))]
    rfl

/-! ## Trees as they can be -/

/-- No file stands where a folder is, and no name is too long. -/
def Tree.Sane (t : Tree ρ) : Prop :=
  ∀ e ∈ t.files, t.isFolder e.1 = false ∧
    ∀ name ∈ e.1.getLast?, name.utf8ByteSize ≤ maxName

theorem Tree.spotAt_eq_ofFile? (h : t.isFolder p = false) :
    t.spotAt p = .ofFile? p (t.file? p) := by
  rw [spotAt, if_neg (by simp [h])]
  cases t.file? p <;> rfl

theorem Tree.isFolder_addFolder (t : Tree ρ) (p q : Place) :
    (t.addFolder p).isFolder q = (t.isFolder q || q == p) := by
  unfold addFolder
  split
  · next hlisted =>
    by_cases hq : q = p
    · subst hq
      rw [isFolder, hlisted, beq_self_eq_true, Bool.or_true, Bool.or_true]
    · simp [hq]
  · simp only [isFolder, contains_eq_mem, mem_append, mem_singleton]
    by_cases hq : q = p <;> simp [hq]

/-- Where a file may stand there is no folder, and its name is not too long. -/
theorem Tree.isFolder_of_locate (h : t.locate path = .ok (.ofFile? p found)) :
    t.isFolder p = false ∧ t.file? p = found ∧
      ∀ name, p.getLast? = some name → name.utf8ByteSize ≤ maxName := by
  have hparts (parts : List String) (q : Place)
      (h : parts.foldlM (t.follow path) (.folder q) = .ok (.ofFile? p found)) :
      t.isFolder p = false ∧ t.file? p = found ∧
        ∀ name, p.getLast? = some name → name.utf8ByteSize ≤ maxName := by
    induction parts generalizing q with
    | nil => cases found <;> cases h
    | cons part rest ih =>
      obtain ⟨next, hnext, hrest⟩ := of_bind h
      rw [follow] at hnext
      split_ifs at hnext with hsame hup hlong
      · cases hnext
        exact ih q hrest
      · cases hnext
        exact ih _ hrest
      · cases hnext
        cases hfolder : t.isFolder (q ++ [part]) with
        | true =>
          rw [spotAt, if_pos hfolder] at hrest
          exact ih _ hrest
        | false =>
          rw [spotAt_eq_ofFile? hfolder] at hrest
          -- Nothing can follow a part that leads to no folder.
          cases rest with
          | cons => cases hfile : t.file? (q ++ [part]) <;> rw [hfile] at hrest <;> cases hrest
          | nil =>
            have hsame : p = q ++ [part] ∧ found = t.file? (q ++ [part]) := by
              cases hfile : t.file? (q ++ [part]) <;> rw [hfile] at hrest <;> cases found <;>
                cases hrest <;> exact ⟨rfl, rfl⟩
            obtain ⟨rfl, rfl⟩ := hsame
            refine ⟨hfolder, rfl, fun name hname => ?_⟩
            rw [getLast?_concat] at hname
            cases hname
            exact Nat.not_lt.mp hlong
  exact hparts _ _ (foldlM_of_locate h)

/-- Putting a file where its path leads keeps the tree sane. -/
theorem Tree.Sane.put (h : t.Sane) (hlocate : t.locate path = .ok (.ofFile? p found)) (f : File ρ) :
    (t.put p f).Sane := by
  obtain ⟨hfolder, -, hshort⟩ := isFolder_of_locate hlocate
  intro e he
  rcases mem_putFile he with he | rfl
  · exact h e he
  · exact ⟨hfolder, hshort⟩

/-- Making a folder at a free place keeps the tree sane. -/
theorem Tree.Sane.addFolder (h : t.Sane) {way : String} (hlocate : t.locate way = .ok (.free p)) :
    (t.addFolder p).Sane := by
  have hlocate : t.locate way = .ok (.ofFile? p none) := hlocate
  obtain ⟨-, hfile, -⟩ := isFolder_of_locate hlocate
  intro e he
  rw [files_addFolder] at he
  have hne : e.1 ≠ p := by
    rintro rfl
    simpa using lookup_eq_none_iff.mp hfile e he
  rw [isFolder_addFolder, beq_eq_false_iff_ne.mpr hne, Bool.or_false]
  exact h e he

/-! ## Trees that differ in a few files -/

/-- A tree is another one without the files at some places. -/
structure Tree.Thinned (away : Place → Prop) (t t₀ : Tree ρ) : Prop where
  folders : t₀.folders = t.folders
  gone : ∀ p, away p → t₀.file? p = none
  rest : ∀ p, ¬away p → t₀.file? p = t.file? p

section

variable {away : Place → Prop} {t t₀ : Tree ρ}
variable {path : String} {p : Place}

theorem Tree.Thinned.isFolder (h : Thinned away t t₀) (p : Place) :
    t₀.isFolder p = t.isFolder p := by
  rw [Tree.isFolder, Tree.isFolder, h.folders]

/-- A file that is left in the thinner tree stands in the whole one. -/
theorem Tree.Thinned.locate_file (h : Thinned away t t₀) {f : File ρ}
    (hlocate : t₀.locate path = .ok (.file p f)) : t.locate path = .ok (.file p f) := by
  have hfile : t₀.file? p = some f := by
    obtain ⟨rfl, hfile⟩ := standsAt_of_locate hlocate
    exact hfile
  have hp : ¬away p := by
    intro hp
    rw [h.gone p hp] at hfile
    cases hfile
  rw [locate_within h.folders.symm hlocate, Spot.within, ← h.rest p hp, hfile]
  rfl

theorem Tree.Thinned.addFolder (h : Thinned away t t₀) (p : Place) :
    Thinned away (t.addFolder p) (t₀.addFolder p) where
  folders := by
    unfold Tree.addFolder
    rw [h.folders]
    split
    · exact h.folders
    · rfl
  gone q hq := by
    rw [Tree.file?, Tree.files_addFolder]
    exact h.gone q hq
  rest q hq := by
    rw [Tree.file?, Tree.file?, Tree.files_addFolder, Tree.files_addFolder]
    exact h.rest q hq

theorem Tree.Thinned.spotAt_of_not (h : Thinned away t t₀) (hp : ¬away p) :
    t.spotAt p = t₀.spotAt p := by
  rw [Tree.spotAt, Tree.spotAt, h.isFolder, h.rest p hp]

/-- A path on which something is missing in a tree with fewer files leads no further in the whole
tree if it can be made a way without the places that differ. -/
theorem Tree.Thinned.locate_error (h : Thinned away t t₀) {t₁ : Tree ρ} {found : Option (File ρ)}
    {f : Fault} (hthrough : t₁.locate path = .ok (.ofFile? p found))
    (haway : ∀ q, away q → t₁.isFolder q = false) (hlocate : t₀.locate path = .error f) :
    t.locate path = .error f := by
  have hparts (parts : List String) (q : Place)
      (hway : parts.foldlM (t₁.follow path) (.folder q) = .ok (.ofFile? p found))
      (hfails : parts.foldlM (t₀.follow path) (.folder q) = .error f) :
      parts.foldlM (t.follow path) (.folder q) = .error f := by
    induction parts generalizing q with
    | nil => cases hfails
    | cons part rest ih =>
      rw [foldlM_cons, Tree.follow] at hway hfails ⊢
      split_ifs at hway hfails ⊢
      · exact ih q hway hfails
      · exact ih _ hway hfails
      · exact hfails
      · rw [ok_bind] at hway hfails ⊢
        cases hfolder : t₁.isFolder (q ++ [part]) with
        | true =>
          -- A folder on the way is none of the places that differ.
          have hnot : ¬away (q ++ [part]) := fun hq => by simp [haway _ hq] at hfolder
          rw [h.spotAt_of_not hnot]
          rw [Tree.spotAt, if_pos hfolder] at hway
          cases hspot : t₀.spotAt (q ++ [part]) with
          | folder r =>
            rw [hspot] at hfails
            have hr : r = q ++ [part] := by
              rw [Tree.spotAt] at hspot
              split at hspot
              · cases hspot
                rfl
              · split at hspot <;> cases hspot
            subst hr
            exact ih _ hway hfails
          | file | free =>
            rw [hspot] at hfails
            cases rest with
            | nil => cases hfails
            | cons => exact hfails
        | false =>
          rw [Tree.spotAt_eq_ofFile? hfolder] at hway
          cases rest with
          | nil => cases hfails
          | cons => cases hfile : t₁.file? (q ++ [part]) <;> rw [hfile] at hway <;> cases hway
  obtain ⟨hfits, hnonempty⟩ := fits_of_ok hthrough
  rw [Tree.locate_eq hfits hnonempty] at hthrough hlocate ⊢
  exact hparts _ _ hthrough hlocate

end

end NovelScript
