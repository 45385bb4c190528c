import Mathlib.Data.List.Nodup
import NovelScript.Proofs.Project.Resolution
import NovelScript.Proofs.Text.Lines

/-!
# Names of a project

Which names a project may give to its variables, and what a name of a folder stands for. A name of a
global variable is looked for in the files before, not in its own file, so names of different files
are told apart, also from those of folders, and a script tells its static variables from everything
else that it can see (`names_apart_of_build`).

Of several files for one folder only the last counts. What it declares can be used in the folder and
below it, and is that of the innermost folder with the name (`folderVariable_found`).
-/

namespace NovelScript.Project

open List Session

variable {o : BuildOptions} {w w' : World CacheRecord} {name : String} {declared : List Declared}
  {types types' : List (String × ValueType)} {files : List SourceFile}
  {folders : List FolderDeclarations} {script : CompiledScript} {v : Vocabulary}
  {options : CompileOptions} {source : List Stmt}
  {Allowed : BuildOptions → World CacheRecord → Prop}

/-! ## Dictionaries -/

section

variable {α : Type} (entries : List (String × α)) (key : String)

theorem lookup_map_entry (value : α) (name : String) :
    (entries.map fun (n, v) => if n == key then (n, value) else (n, v)).lookup name =
      (entries.lookup name).map fun v => if name = key then value else v := by
  induction entries with
  | nil => rfl
  | cons e rest ih =>
    obtain ⟨n, v⟩ := e
    have hentry : (if n == key then (n, value) else (n, v)) =
        (n, if n = key then value else v) := by
      by_cases hkey : n = key <;> simp [hkey]
    simp only [map_cons, hentry, lookup_cons]
    cases hname : name == n with
    | true => rw [eq_of_beq hname]; rfl
    | false => exact ih

theorem any_entry_iff :
    (entries.any fun (n, _) => n == key) = true ↔ entries.lookup key ≠ none := by
  grind [lookup_eq_none_iff]

theorem lookup_setEntry (value : α) (name : String) :
    (setEntry entries key value).lookup name =
      if name = key then some value else entries.lookup name := by
  unfold setEntry
  by_cases hname : name = key
  · rw [if_pos hname]
    subst hname
    split
    · next hany =>
      obtain ⟨v, hv⟩ := Option.ne_none_iff_exists'.mp ((any_entry_iff _ _).mp hany)
      rw [lookup_map_entry, hv]
      simp
    · next hany =>
      rw [any_entry_iff, not_not] at hany
      rw [lookup_append, hany]
      simp
  · rw [if_neg hname]
    split
    · rw [lookup_map_entry]
      simp [hname]
    · simp [lookup_append, lookup_cons, beq_eq_false_iff_ne.mpr hname]

/-- The last entry of a name counts. -/
theorem lookup_setEntries (entries others : List (String × α)) (name : String) :
    (setEntries entries others).lookup name =
      (others.reverse.lookup name).or (entries.lookup name) := by
  induction others generalizing entries with
  | nil => rfl
  | cons e rest ih =>
    obtain ⟨n, v⟩ := e
    have hstep : setEntries entries ((n, v) :: rest) = setEntries (setEntry entries n v) rest := rfl
    rw [hstep, ih, lookup_setEntry, reverse_cons, lookup_append, Option.or_assoc]
    congr 1
    by_cases h : name = n
    · simp [h]
    · simp [h, lookup_cons, beq_eq_false_iff_ne.mpr h]

end

theorem lookup_typePairs_eq_none : (typePairs declared).reverse.lookup name = none ↔
    ∀ d ∈ declared, d.name ≠ name := by
  simp only [lookup_eq_none_iff, mem_reverse, typePairs, forall_mem_map, bne_iff_ne, ne_comm]

/-! ## Names that are declared outside of scripts -/

variable {folder outer : String}

/-- A folder is another one, or the other one is below it. -/
def IsAround (outer folder : String) :
    Prop := outer = folder ∨ ∃ rest, folder = outer ++ "/" ++ rest

theorem parts_append (outer rest : String) :
    Path.parts (outer ++ "/" ++ rest) = Path.parts outer ++ Path.parts rest := by
  have hchars : (outer ++ "/" ++ rest).toList = outer.toList ++ '/' :: rest.toList := by simp
  rw [Path.parts, hchars, Text.partsAt_eq_splitOn, splitOn_append_cons_self, map_append,
    ← Text.partsAt_eq_splitOn, ← Text.partsAt_eq_splitOn]
  rfl

theorem intercalate_parts (path : String) : "/".intercalate (Path.parts path) = path := by
  refine String.toList_injective ?_
  rw [String.toList_intercalate, Path.parts, map_map, Text.partsAt_eq_splitOn]
  have hid : String.toList ∘ String.ofList = id := funext fun _ => String.toList_ofList
  rw [hid, map_id]
  exact intercalate_splitOn _

theorem isAround_take (parts : List String) {m n : Nat} (h : m ≤ n) :
    IsAround ("/".intercalate (parts.take (m + 1))) ("/".intercalate (parts.take (n + 1))) := by
  have hsplit : parts.take (n + 1) = parts.take (m + 1) ++ (parts.take (n + 1)).drop (m + 1) := by
    conv_lhs => rw [← take_append_drop (m + 1) (parts.take (n + 1))]
    rw [take_take, Nat.min_eq_left (by omega)]
  by_cases hrest : (parts.take (n + 1)).drop (m + 1) = []
  · rw [hrest, append_nil] at hsplit
    exact .inl (by rw [hsplit])
  · have hfirst : parts.take (m + 1) ≠ [] := by
      rintro hnil
      rw [take_eq_nil_iff] at hnil
      simp [hnil.resolve_left (by omega)] at hrest
    rw [hsplit, String.intercalate_append_of_ne_nil hfirst hrest]
    exact .inr ⟨_, rfl⟩

/-- The folders around are those above, with the folder itself. -/
theorem mem_foldersAround_iff : outer ∈ foldersAround folder ↔ IsAround outer folder := by
  have hwhole : "/".intercalate ((Path.parts folder).take ((Path.parts folder).length + 1)) =
      folder := by
    rw [take_of_length_le (by omega), intercalate_parts]
  constructor
  · intro h
    obtain ⟨n, hn, rfl⟩ := mem_map.mp h
    have haround := isAround_take (Path.parts folder) (mem_range.mp hn).le
    rwa [hwhole] at haround
  · intro h
    -- the parts of the outer folder are the first ones
    have hparts : ∃ rest, Path.parts folder = Path.parts outer ++ rest := by
      rcases h with rfl | ⟨rest, rfl⟩
      · exact ⟨[], (append_nil _).symm⟩
      · exact ⟨_, parts_append outer rest⟩
    obtain ⟨rest, hrest⟩ := hparts
    have hne : 0 < (Path.parts outer).length := by
      simpa [Path.parts, length_pos_iff] using Text.partsAt_ne_nil _ _
    refine mem_map.mpr ⟨(Path.parts outer).length - 1, ?_, ?_⟩
    · rw [mem_range, hrest, length_append]
      omega
    · rw [hrest, Nat.sub_add_cancel hne, take_left', intercalate_parts]
      rfl

/-- They go from the outermost in. -/
theorem pairwise_foldersAround (folder : String) : (foldersAround folder).Pairwise IsAround := by
  unfold foldersAround
  rw [pairwise_map]
  exact pairwise_lt_range.imp fun h => isAround_take _ h.le

/-! ## Folder variables -/

/-- Of the files for a folder, the one that counts is the last. -/
def Counts (folders : List FolderDeclarations) (f : FolderDeclarations) : Prop :=
  folders.reverse.find? (fun g => g.folder == f.folder) = some f

/-- A folder declares a name. -/
def FolderDeclarations.Declares (f : FolderDeclarations) (name : String) : Prop :=
  ∃ d ∈ f.declared, d.name = name

/-- A file that counts declares a name, and no folder further in does. -/
structure Innermost (folders : List FolderDeclarations) (folder name : String)
    (f : FolderDeclarations) : Prop where
  counts : Counts folders f
  around : IsAround f.folder folder
  declares : f.Declares name
  innermost : ∀ g, Counts folders g → IsAround g.folder folder → g.Declares name →
    IsAround g.folder f.folder

theorem exists_last_of_mem {α : Type} {p : α → Prop} {l : List α} {x : α} (hx : x ∈ l) (hp : p x) :
    ∃ before y after, l = before ++ y :: after ∧ p y ∧ ∀ z ∈ after, ¬p z := by
  induction l generalizing x with
  | nil => cases hx
  | cons a rest ih =>
    by_cases hrest : ∃ z ∈ rest, p z
    · obtain ⟨z, hz, hpz⟩ := hrest
      obtain ⟨before, y, after, rfl, hy⟩ := ih hz hpz
      exact ⟨a :: before, y, after, rfl, hy⟩
    · rcases mem_cons.mp hx with rfl | hx
      · exact ⟨[], x, rest, rfl, hp, fun z hz hpz => hrest ⟨z, hz, hpz⟩⟩
      · exact absurd ⟨x, hx, hp⟩ hrest

/-- The folders around a folder, divided at the innermost one with a name. -/
structure DividedAt (folders : List FolderDeclarations) (folder name : String)
    (f : FolderDeclarations) (inner : List String) : Prop where
  divided : ∃ outer, foldersAround folder = outer ++ f.folder :: inner
  free : ∀ g, Counts folders g → g.folder ∈ inner → ¬g.Declares name

/-- Among the folders around that declare a name one is innermost. -/
theorem exists_innermost {g : FolderDeclarations} (hg : Counts folders g)
    (haround : IsAround g.folder folder) (hname : g.Declares name) :
    ∃ f inner, Innermost folders folder name f ∧ DividedAt folders folder name f inner := by
  obtain ⟨before, _, inner, hsplit, ⟨f, hf, rfl, hdeclares⟩, hfree⟩ :=
    exists_last_of_mem (p := fun x => ∃ f, Counts folders f ∧ f.folder = x ∧ f.Declares name)
      (mem_foldersAround_iff.mpr haround) ⟨g, hg, rfl, hname⟩
  have hpairs := pairwise_foldersAround folder
  rw [hsplit, pairwise_append] at hpairs
  have hmem : f.folder ∈ foldersAround folder := by simp [hsplit]
  refine ⟨f, inner, ⟨hf, mem_foldersAround_iff.mp hmem, hdeclares, fun g hg haround hname => ?_⟩,
    ⟨before, hsplit⟩, fun g hg hinner hname => hfree _ hinner ⟨g, hg, rfl, hname⟩⟩
  have hplace := mem_foldersAround_iff.mpr haround
  rw [hsplit, mem_append, mem_cons] at hplace
  rcases hplace with hbefore | hsame | hinner
  · exact hpairs.2.2 _ hbefore _ mem_cons_self
  · exact .inl hsame
  · exact absurd ⟨g, hg, rfl, hname⟩ (hfree _ hinner)

/-! ### What a folder sees -/

section

variable {α β : Type} {lists : List (String × List (String × α))} {inner : List String}
  {entries : List (String × α)}

theorem lookup_foldl_visible (h : ∀ f ∈ inner, ∀ entries, lists.reverse.lookup f = some entries →
      entries.reverse.lookup name = none) (seen : List (String × α)) :
    (inner.foldl (fun seen f => match lists.reverse.lookup f with
      | some entries => setEntries seen entries
      | none => seen) seen).lookup name = seen.lookup name := by
  induction inner generalizing seen with
  | nil => rfl
  | cons f rest ih =>
    obtain ⟨hf, hrest⟩ := forall_mem_cons.mp h
    rw [foldl_cons, ih hrest]
    cases hlookup : lists.reverse.lookup f with
    | none => rfl
    | some entries => rw [lookup_setEntries, hf entries hlookup, Option.none_or]

theorem Aligned.reverse {R : String → α → β → Prop} {xs : List (String × α)}
    {ys : List (String × β)}
    (h : Aligned R xs ys) : Aligned R xs.reverse ys.reverse :=
  forall₂_reverse_iff.mpr h

variable {value : α}
  (hdivided : ∃ before, foldersAround folder = before ++ outer :: inner)
  (hentries : lists.reverse.lookup outer = some entries)
  (hvalue : entries.reverse.lookup name = some value)
  (hfree : ∀ f ∈ inner, ∀ entries, lists.reverse.lookup f = some entries →
    entries.reverse.lookup name = none)
include hdivided hentries hvalue hfree

/-- A name is seen as its innermost folder has it. -/
theorem lookup_visible : (visible lists folder).lookup name = some value := by
  obtain ⟨before, hsplit⟩ := hdivided
  rw [visible, hsplit, foldl_append, foldl_cons]
  refine (lookup_foldl_visible hfree _).trans ?_
  rw [hentries, lookup_setEntries, hvalue, Option.some_or]

theorem Aligned.lookup_visible {S : String → String → α → β → Prop}
    {lists' : List (String × List (String × β))}
    (h : Aligned (fun folder => Aligned (S folder)) lists lists') :
    ∃ value', (Project.visible lists' folder).lookup name = some value' ∧
      S outer name value value' := by
  obtain ⟨hnone, -⟩ | ⟨_, entries', hsome, hentries', haligned⟩ := h.reverse.lookup outer
  · rw [hnone] at hentries
    cases hentries
  cases hsome.symm.trans hentries
  obtain ⟨hnone, -⟩ | ⟨_, value', hsome', hvalue', hS⟩ := haligned.reverse.lookup name
  · rw [hnone] at hvalue
    cases hvalue
  cases hsome'.symm.trans hvalue
  refine ⟨value', Project.lookup_visible hdivided hentries' hvalue' fun f hf other hother => ?_, hS⟩
  obtain ⟨-, hnone⟩ | ⟨entries, _, hsome, hsome', haligned⟩ := h.reverse.lookup f
  · rw [hnone] at hother
    cases hother
  cases hsome'.symm.trans hother
  obtain ⟨-, hnone⟩ | ⟨_, _, hsome, -⟩ := haligned.reverse.lookup name
  · exact hnone
  · rw [hfree f hf entries ‹_›] at hsome
    cases hsome

end

/-- The types that folders declare. -/
def folderTypes (folders : List FolderDeclarations) : List (String × List (String × ValueType)) :=
  folders.map fun f => (f.folder, typesOf f.declared)

theorem lookup_folderTypes (folders : List FolderDeclarations) (folder : String) :
    (folderTypes folders).reverse.lookup folder =
      (folders.reverse.find? fun f => f.folder == folder).map fun f => typesOf f.declared := by
  unfold folderTypes
  rw [← map_reverse]
  induction folders.reverse with
  | nil => rfl
  | cons f rest ih =>
    rw [map_cons, lookup_cons, find?_cons, Bool.beq_comm]
    cases f.folder == folder with
    | true => rfl
    | false => exact ih

theorem exists_counts {entries : List (String × ValueType)}
    (h : (folderTypes folders).reverse.lookup folder = some entries) :
    ∃ f, Counts folders f ∧ f.folder = folder ∧ entries = typesOf f.declared := by
  rw [lookup_folderTypes] at h
  obtain ⟨f, hf, rfl⟩ := Option.map_eq_some_iff.mp h
  have hfolder : f.folder = folder := by simpa using find?_some hf
  exact ⟨f, by rwa [Counts, hfolder], hfolder, rfl⟩

/-- A dictionary of types has the names of the declarations, each with a type that one has. -/
theorem lookup_typesOf (declared : List Declared) (name : String) :
    ((typesOf declared).reverse.lookup name = none ∧ ∀ d ∈ declared, d.name ≠ name) ∨
      ∃ d ∈ declared, d.name = name ∧
        (typesOf declared).reverse.lookup name = some d.value.type := by
  have haligned : Aligned (fun name type _ => ∃ d ∈ declared, d.name = name ∧ d.value.type = type)
      (typesOf declared) (typesOf declared) := by
    refine Aligned.setEntries .nil (forall₂_same.mpr fun e he => ⟨rfl, ?_⟩)
    obtain ⟨d, hd, rfl⟩ := mem_map.mp he
    exact ⟨d, hd, rfl, rfl⟩
  rcases haligned.reverse.lookup name with ⟨hnone, -⟩ | ⟨_, _, hsome, -, d, hd, hname, rfl⟩
  · refine .inl ⟨hnone, ?_⟩
    have hforward : (typesOf declared).lookup name = none := by
      simpa [lookup_eq_none_iff] using hnone
    rwa [typesOf, lookup_setEntries, lookup_nil, Option.or_none, ← typePairs,
      lookup_typePairs_eq_none] at hforward
  · exact .inr ⟨d, hd, hname, hsome⟩

theorem DividedAt.free_types {f : FolderDeclarations} {inner : List String}
    (h : DividedAt folders folder name f inner) : ∀ g ∈ inner, ∀ entries,
      (folderTypes folders).reverse.lookup g = some entries →
        entries.reverse.lookup name = none := by
  intro g hg entries hentries
  obtain ⟨f', hf', rfl, rfl⟩ := exists_counts hentries
  rcases lookup_typesOf f'.declared name with ⟨hnone, -⟩ | ⟨d, hd, hname, -⟩
  · exact hnone
  · exact absurd ⟨d, hd, hname⟩ (h.free f' hf' hg)

section

variable {f : FolderDeclarations} {inner : List String}
  (hinnermost : Innermost folders folder name f) (hdivided : DividedAt folders folder name f inner)
include hinnermost hdivided

theorem exists_seenType : ∃ d ∈ f.declared, d.name = name ∧
    (typesOf f.declared).reverse.lookup name = some d.value.type ∧
    (seenTypes folders folder).lookup name = some d.value.type := by
  obtain ⟨d, hd, hname, htype⟩ : ∃ d ∈ f.declared, d.name = name ∧
      (typesOf f.declared).reverse.lookup name = some d.value.type := by
    refine (lookup_typesOf f.declared name).resolve_left fun hnone => ?_
    obtain ⟨d, hd, hname⟩ := hinnermost.declares
    exact hnone.2 d hd hname
  have hentries : (folderTypes folders).reverse.lookup f.folder = some (typesOf f.declared) := by
    rw [lookup_folderTypes, hinnermost.counts]
    rfl
  exact ⟨d, hd, hname, htype,
    lookup_visible hdivided.divided hentries htype hdivided.free_types⟩

/-- The number of a folder variable is that of a variable of the innermost folder with the name. -/
theorem exists_folderNumber {first : Nat} {known : List Variable}
    {numbers : List (String × List (String × Nat))}
    (haligned : Aligned (fun folder => Aligned (HasFolderNumber first folders known folder))
      (folderTypes folders) numbers) :
    ∃ k v, (visible numbers folder).lookup name = some k ∧ first ≤ k ∧ known[k]? = some v ∧
      ∃ f' ∈ folders, f'.folder = f.folder ∧ ∃ d ∈ f'.declared, d.name = name ∧
        IsVariableOf .folder 0 d v := by
  obtain ⟨d, -, -, htype, -⟩ := exists_seenType hinnermost hdivided
  have hentries : (folderTypes folders).reverse.lookup f.folder = some (typesOf f.declared) := by
    rw [lookup_folderTypes, hinnermost.counts]
    rfl
  obtain ⟨k, hk, f', hf', hfolder, hfirst, d', hd', hname', -, v, hv, hmade⟩ :=
    haligned.lookup_visible hdivided.divided hentries htype hdivided.free_types
  exact ⟨k, v, hk, hfirst, hv, f', hf', hfolder, d', hd', hname', k, hmade⟩

end

/-- A name that is declared outside, and by the script neither as a static nor as a temporary
variable, is compiled to the number of a reference to it. -/
theorem resolve_declared {n : Names} {type : ValueType} (hn : n.Numbered v)
    (htype : v.declaredType? name = some type) (hsystem : v.system.lookup name = none)
    (hlocal : n.temporaries.lookup name = none) (hstatic : n.statics.lookup name = none) :
    ∃ k n', n.resolve v name = .ok ((type, k), n') ∧ n'.Holds k (.reference name) := by
  unfold Names.resolve
  cases hfind : n.find? v name with
  | none =>
    rw [htype]
    exact ⟨_, _, rfl, Names.holds_nextNumber rfl⟩
  | some found =>
    obtain ⟨type', k⟩ := found
    rcases Names.find?_eq_some hfind with h | h | h | h
    · rw [hlocal] at h
      cases h
    · rw [hstatic] at h
      cases h
    · obtain ⟨hholds, hsame⟩ := hn.references h
      cases hsame.symm.trans htype
      exact ⟨k, n, rfl, hholds⟩
    · rw [hsystem] at h
      cases h

/-- **Folder variables are found in their folder.** What a file that counts declares is known to
every script in its folder or below, if the system has no such name: a reference is compiled to a
symbol for the name, and the symbol is linked to a variable of the innermost folder that declares
it, if there is any variable before those of folders. -/
theorem folderVariable_found {g : FolderDeclarations} (hg : Counts folders g)
    (haround : IsAround g.folder folder) (hname : g.Declares name) :
    ∃ f, Innermost folders folder name f ∧
      (∀ (v : Vocabulary) (n : Names), v.folders = seenTypes folders folder →
        v.system.lookup name = none → n.Numbered v →
        n.temporaries.lookup name = none → n.statics.lookup name = none →
        ∃ type k n', n.resolve v name = .ok ((type, k), n') ∧ n'.Holds k (.reference name)) ∧
      ∀ system globals known known' globalNumbers folderNumbers,
        number .global system globals [] = .ok (known, globalNumbers) →
        numberFolders known folders [] = .ok (known', folderNumbers) → known ≠ [] →
        ∃ k v, known'[k]? = some v ∧
          (∃ f' ∈ folders, f'.folder = f.folder ∧ ∃ d ∈ f'.declared, d.name = name ∧
            IsVariableOf .folder 0 d v) ∧
          ∀ script s u, u.symbol = .reference name →
            linkSymbol script (visible folderNumbers folder) globalNumbers s u =
              .ok (⟨u.offsets, k⟩, s) := by
  obtain ⟨f, inner, hinnermost, hdivided⟩ := exists_innermost hg haround hname
  refine ⟨f, hinnermost, fun v n hv hsystem hn hlocal hstatic => ?_, ?_⟩
  · obtain ⟨d, -, -, -, hseen⟩ := exists_seenType hinnermost hdivided
    have hdeclared : v.declaredType? name = some d.value.type := by
      rw [Vocabulary.declaredType?, hv, hseen]
      cases d.value <;> rfl
    obtain ⟨k, n', hresolve⟩ := resolve_declared hn hdeclared hsystem hlocal hstatic
    exact ⟨_, k, n', hresolve⟩
  · intro system globals known known' globalNumbers folderNumbers _ hnumbers hknown
    have haligned := aligned_numberFolders hnumbers (Nat.le_refl _) (List.prefix_refl _)
      (fun _ => id) .nil
    rw [List.nil_append] at haligned
    obtain ⟨k, v, hk, hfirst, hv, hmade⟩ := exists_folderNumber hinnermost hdivided haligned
    refine ⟨k, v, hv, hmade, fun script s u hu => ?_⟩
    -- a number behind at least one variable is not zero
    obtain ⟨k, rfl⟩ : ∃ m, k = m + 1 := by
      refine ⟨k - 1, ?_⟩
      have := List.length_pos_iff.mpr hknown
      omega
    rw [linkSymbol, hu]
    simp only [outerNumber, hk]
    rfl

theorem folderVariable_found_nested :
    ∃ f, Innermost nestedFolders "src/h" "f" f ∧ ∃ k, linkSymbol 0
      (visible [("src", [("f", 2)]), ("src/h", [("f", 3)])] "src/h") [("g", 1)] default
      ⟨[10], .reference "f"⟩ = .ok (⟨[10], k⟩, default) := by
  have hglobals : number .global nestedTemplate.variableTable.entries nestedGlobals [] =
      .ok (nestedLinked.known.take 2, [("g", 1)]) := by decide +kernel
  have hfolders : numberFolders (nestedLinked.known.take 2) nestedFolders [] =
      .ok (nestedLinked.known, [("src", [("f", 2)]), ("src/h", [("f", 3)])]) := by decide +kernel
  have hcounts : Counts nestedFolders ⟨"src", [⟨"f", .declared, [], .text (.ofString "")⟩]⟩ := by
    unfold Counts
    decide +kernel
  obtain ⟨f, hf, -, hlink⟩ := folderVariable_found hcounts (.inr ⟨"h", rfl⟩)
    ⟨_, List.mem_singleton_self _, rfl⟩
  obtain ⟨k, -, -, -, hk⟩ := hlink _ _ _ _ _ _ hglobals hfolders (by decide)
  exact ⟨f, hf, k, hk 0 default ⟨[10], .reference "f"⟩ rfl⟩

/-- **In a build that succeeds, every name of a folder has the number of the innermost variable.**
For all scripts, and this number is what is written at all places of the name. -/
theorem Built.folderVariable_linked (b : Built o w w') (hw : Reached Tree.Sane Allowed w) :
    Forall₂ (fun (x : SourceFile × CompiledScript) (t : LinkTask) =>
      (∃ expressions, LinkedTo x.2 t.links expressions) ∧
      ∀ g name, Counts b.folders g → IsAround g.folder x.1.folder → g.Declares name →
        ∃ f, Innermost b.folders x.1.folder name f ∧
          Forall₂ (fun u l => u.symbol = .reference name → ∃ v,
            b.linked.known[l.number]? = some v ∧ ∃ f' ∈ b.folders, f'.folder = f.folder ∧
              ∃ d ∈ f'.declared, d.name = name ∧ IsVariableOf .folder 0 d v) x.2.symbols t.links)
      b.sourced b.linked.tasks := by
  obtain ⟨globalNumbers, folderNumbers, hnumbers⟩ := b.exists_numbers
  obtain ⟨hlength, hfound⟩ := forall₂_iff_zip.mp hnumbers.found
  obtain ⟨-, hlinked⟩ := forall₂_iff_zip.mp (b.linkedTo hw)
  refine forall₂_iff_zip.mpr ⟨hlength, fun {x t} hmem => ⟨hlinked hmem, ?_⟩⟩
  intro g name hg haround hname
  obtain ⟨f, inner, hinnermost, hdivided⟩ := exists_innermost hg haround hname
  obtain ⟨k, v, hk, -, hv, f', hf', hfolder, d, hd, rfl, hmade⟩ :=
    exists_folderNumber hinnermost hdivided hnumbers.folders
  refine ⟨f, hinnermost, (hfound hmem).imp fun u l hu hsymbol => ?_⟩
  have houter := hu d.name hsymbol
  rw [outerNumber, hk] at houter
  cases k with
  | succ k =>
    rw [← Except.ok.inj houter]
    exact ⟨v, hv, f', hf', hfolder, d, hd, rfl, hmade⟩
  | zero =>
    -- the number zero is not found, and no global variable has the name
    have hnone := (declared_of_readFolders b.folders_eq f' hf').2 d hd
    obtain ⟨-, hnone'⟩ | ⟨_, _, hsome, -⟩ := hnumbers.globals.lookup d.name
    · rw [orFault_eq_ok, hnone'] at houter
      cases houter
    · rw [hnone] at hsome
      cases hsome

/-- What an earlier file for the same folder declares is not known. -/
theorem resolve_earlierFile : ∃ fault, ({} : Names).resolve
    { commands := [], folders := seenTypes [⟨"src", [⟨"f", .declared, [], .int 7⟩]⟩,
      ⟨"src", [⟨"g", .declared, [], .int 8⟩]⟩] "src" } "f" = .error fault := by
  have hseen : seenTypes [⟨"src", [⟨"f", .declared, [], .int 7⟩]⟩,
      ⟨"src", [⟨"g", .declared, [], .int 8⟩]⟩] "src" = [("g", .int)] := by decide +kernel
  rw [hseen]
  exact ⟨_, rfl⟩

end NovelScript.Project
