import NovelScript.Proofs.Project.Run

/-!
# When a compiled script is used again

A build keeps compiled scripts with fingerprints, and uses a script again for the same fingerprint:
the names and types of the variables that the script can see, and the bytes of its source. What is
compiled also depends on the settings of the build (`Settings`), and these are not compared.

In the worlds that builds come to, whatever is kept for a fingerprint has been made for it by one of
these builds (`Reached.keptFor`), also if builds have failed half way. So a compile task gives what
it would give with nothing kept, if the settings of all builds make the same of its source
(`compileTask_reuses`). If they do not, it may give what an earlier build has made. The scripts of a
build that succeeds are made for the files as the build finds them (`Gathered.isMadeFor`).
-/

namespace NovelScript.Project

open List Session NovelScript.Tree

/-! ## Settings -/

/-- All that decides what is compiled for a fingerprint. -/
structure Settings where
  options : CompileOptions
  sourceCodec : Codec
  commands : List CommandInfo
  system : List (String × ValueType × Int)

/-- What settings make of a source that is its own fingerprint. -/
def Settings.compile (s : Settings) (print : Fingerprint) : Except Fault CompiledScript := do
  let text ← s.sourceCodec.decode print.source
  let statements ← Source.parse text
  compileScript s.options ⟨s.commands, s.system, print.globals, print.folders⟩ statements

/-- The settings that the scripts of a build are compiled with. -/
def settingsOf (o : BuildOptions) (vocabulary : Vocabulary) : Settings :=
  ⟨o.compiling, o.sourceCodec, vocabulary.commands, vocabulary.system⟩

/-! ## What is kept -/

/-- A record is kept at a place. -/
def Keeps (tree : Tree CacheRecord) (p : Place) (r : CacheRecord) : Prop :=
  ∃ f, (p, f) ∈ tree.files ∧ f.content = .record r

theorem keeps_put {tree : Tree CacheRecord} {p q : Place} {f : File CacheRecord} {r : CacheRecord}
    (h : Keeps (tree.put p f) q r) :
    (q = p ∧ f.content = .record r) ∨ (q ≠ p ∧ Keeps tree q r) := by
  obtain ⟨g, hg, hr⟩ := h
  rcases mem_append.mp hg with hg | hg
  · obtain ⟨hg, hne⟩ := mem_filter.mp hg
    exact .inr ⟨by simpa using hne, g, hg, hr⟩
  · cases mem_singleton.mp hg
    exact .inl ⟨rfl, hr⟩

theorem hash_ne_com (folder folder' : Place) (name name' : String) :
    folder ++ [name ++ "hash"] ≠ folder' ++ [name' ++ "com"] := by
  intro h
  have hnames := congrArg getLast? h
  rw [getLast?_concat, getLast?_concat, Option.some_inj] at hnames
  have hends := congrArg (fun s : String => s.toList.getLast?) hnames
  simp [String.toList_append] at hends

theorem place_inj {folder folder' : Place} {name name' ending : String}
    (h : folder ++ [name ++ ending] = folder' ++ [name' ++ ending]) :
    folder = folder' ∧ name = name' := by
  obtain ⟨hfolder, hname⟩ := append_inj' h rfl
  refine ⟨hfolder, String.toList_inj.mp ?_⟩
  have hchars := congrArg String.toList (singleton_inj.mp hname)
  rw [String.toList_append, String.toList_append] at hchars
  exact append_cancel_right hchars

/-- Whatever is kept for a fingerprint stands in a relation to it. -/
def KeptFor (R : Fingerprint → CompiledScript → Prop) (tree : Tree CacheRecord) : Prop :=
  ∀ folder name print script, Keeps tree (folder ++ [name ++ "hash"]) (.fingerprint print) →
    Keeps tree (folder ++ [name ++ "com"]) (.compiled script) → R print script

section

variable {R : Fingerprint → CompiledScript → Prop} {tree tree' : Tree CacheRecord}
variable {work : String} {script : CompiledScript} {time : Int}

theorem keptFor_of_noRecords (h : NoRecords tree) : KeptFor R tree := by
  rintro folder name print script ⟨f, hf, hr⟩
  exact absurd hr (h _ hf _)

/-- Fewer records are kept for the same. -/
theorem KeptFor.mono (h : KeptFor R tree)
    (hkept : ∀ p r, Keeps tree' p r → (∃ script, r = .packed script) ∨ Keeps tree p r) :
    KeptFor R tree' := by
  intro folder name print script hhash hcom
  obtain ⟨_, hpacked⟩ | hhash := hkept _ _ hhash
  · cases hpacked
  obtain ⟨_, hpacked⟩ | hcom := hkept _ _ hcom
  · cases hpacked
  exact h folder name print script hhash hcom

theorem isEnding_com : Path.IsEnding "com" := ⟨by decide, 'm', by decide, by decide⟩

theorem isEnding_hash : Path.IsEnding "hash" := ⟨by decide, 'h', by decide, by decide⟩

/-- A pair of what was compiled may be kept. -/
theorem KeptFor.keepPair (h : KeptFor R tree) {print : Fingerprint} (time time' : Int)
    (hmade : R print script) : KeptFor R (keepPair tree work print script time time') := by
  obtain ⟨folder, name, hplace⟩ := Path.exists_place_append work
  unfold Project.keepPair
  rw [hplace _ isEnding_com, hplace _ isEnding_hash]
  intro folder' name' print' script' hhash hcom
  rcases keeps_put hhash with ⟨hsame, hprint⟩ | ⟨hother, hhash⟩
  · -- The fingerprint has just been kept, and so has the script beside it.
    obtain ⟨rfl, rfl⟩ := place_inj hsame
    cases hprint
    rcases keeps_put hcom with ⟨hsame, -⟩ | ⟨-, hcom⟩
    · exact absurd hsame.symm (hash_ne_com _ _ _ _)
    rcases keeps_put hcom with ⟨-, hscript⟩ | ⟨hother, -⟩
    · cases hscript
      exact hmade
    · exact absurd rfl hother
  · rcases keeps_put hhash with ⟨hsame, -⟩ | ⟨-, hhash⟩
    · exact absurd hsame (hash_ne_com _ _ _ _)
    rcases keeps_put hcom with ⟨hsame, -⟩ | ⟨-, hcom⟩
    · exact absurd hsame.symm (hash_ne_com _ _ _ _)
    rcases keeps_put hcom with ⟨hsame, -⟩ | ⟨-, hcom⟩
    · obtain ⟨rfl, rfl⟩ := place_inj hsame
      exact absurd rfl hother
    · exact h folder' name' print' script' hhash hcom

theorem HalfKept.fits (h : HalfKept tree work script time tree') : Path.Fits (work ++ "hash") := by
  obtain ⟨earlier, content, hfound⟩ := h.lookedFor
  exact hfound.fits fun hempty => (isEnding_hash.append_ne work).1 (.inl hempty)

/-- Half a pair is kept for nothing new. -/
theorem KeptFor.halfKept (h : KeptFor R tree) (hsane : tree.Sane)
    (hhalf : HalfKept tree work script time tree') : KeptFor R tree' := by
  obtain ⟨folder, name, hplace⟩ := Path.exists_place_append work
  obtain ⟨found, hlocate⟩ := hhalf.located
  have hsane' : tree'.Sane := by
    rw [hhalf.eq]
    exact hsane.put hlocate _
  have hnone : ∀ r, ¬Keeps tree' (Path.place (work ++ "hash")) r := by
    rintro r ⟨f, hf, -⟩
    obtain ⟨hfolder, hshort⟩ := hsane' _ hf
    -- A file at that place could have been written.
    have hcom : tree'.locate (work ++ "com") = .ok (.ofFile? (Path.place (work ++ "com"))
        (some ⟨.record (.compiled script), time⟩)) := by
      rw [hhalf.eq]
      exact locate_put hlocate _
    have hhash := locate_sibling isEnding_com isEnding_hash hcom hhalf.fits hshort
    rw [spotAt_eq_ofFile? hfolder] at hhash
    exact hhalf.unwritable _ _ hhash
  rw [hplace _ isEnding_hash] at hnone
  have heq := hhalf.eq
  rw [hplace _ isEnding_com] at heq
  subst heq
  intro folder' name' print' script' hhash hcom
  rcases keeps_put hcom with ⟨hsame, -⟩ | ⟨-, hcom⟩
  · obtain ⟨rfl, rfl⟩ := place_inj hsame
    exact absurd hhash (hnone _)
  rcases keeps_put hhash with ⟨hsame, -⟩ | ⟨-, hhash⟩
  · exact absurd hsame (hash_ne_com _ _ _ _)
  · exact h folder' name' print' script' hhash hcom

theorem unmoved_keptFor : Unmoved fun tree => tree.Sane ∧ KeptFor R tree where
  folder tree way p h hlocate := ⟨h.1.addFolder hlocate, h.2.mono fun q r => .inr ∘ by
    rintro ⟨f, hf, hr⟩
    exact ⟨f, by rwa [files_addFolder] at hf, hr⟩⟩
  bytes tree path p found data time h hlocate := ⟨h.1.put hlocate _, h.2.mono fun q r hkept => by
    rcases keeps_put hkept with ⟨-, hbytes⟩ | ⟨-, hkept⟩
    · cases hbytes
    · exact .inr hkept⟩
  packed tree path p found script time h hlocate := ⟨h.1.put hlocate _, h.2.mono fun q r hkept => by
    rcases keeps_put hkept with ⟨-, hpacked⟩ | ⟨-, hkept⟩
    · cases hpacked
      exact .inl ⟨_, rfl⟩
    · exact .inr hkept⟩

/-- A property of trees that neither new folders nor the records of a script can break. -/
structure Spared (I : Tree CacheRecord → Prop) : Prop where
  folder : ∀ tree p, I tree → I (tree.addFolder p)
  record : ∀ tree folder name ending f, ending = "com" ∨ ending = "hash" → I tree →
    I (tree.put (folder ++ [name ++ ending]) f)

/-- A script is made for a fingerprint: from a source that shows its bytes, and with its names and
types. -/
structure MadeFrom (o : BuildOptions) (v : Vocabulary) (source : Bytes) (text : String)
    (statements : List Stmt) (print : Fingerprint) (script : CompiledScript) : Prop where
  decoded : o.sourceCodec.decode source = .ok text
  shown : shownBytes o source text = .ok print.source
  parsed : Source.parse text = .ok statements
  globals : v.globals = print.globals
  folders : v.folders = print.folders
  compiled : compileScript o.compiling v statements = .ok script

/-- A compile task that makes scripts in a relation to their fingerprints also gives such a script,
and keeps no others. -/
theorem keptFor_compileTask {I : Tree CacheRecord → Prop} (hI : Spared I) {o : BuildOptions}
    {vocabulary : Vocabulary} {t : CompileTask}
    (hmade : ∀ source text statements print script,
      MadeFrom o { vocabulary with folders := t.folders } source text statements print script →
      R print script) :
    Ensures (fun tree => (tree.Sane ∧ KeptFor R tree) ∧ I tree) (compileTask o vocabulary t)
      (fun script tree => ((tree.Sane ∧ KeptFor R tree) ∧ I tree) ∧
        ∃ tree₀ source text shown, I tree₀ ∧ ReadsAs tree₀.files (Path.place t.file.path) source ∧
          o.sourceCodec.decode source = .ok text ∧ shownBytes o source text = .ok shown ∧
          R (printOf vocabulary t shown) script)
      fun tree => (tree.Sane ∧ KeptFor R tree) ∧ I tree := by
  obtain ⟨folder, name, hplace⟩ := Path.exists_place_append (workPath o t)
  have hcom := hplace _ isEnding_com
  have hhash := hplace _ isEnding_hash
  refine ensures_compileTask ?_ (fun _ => id) ?_ ?_ ?_
  · exact fun tree way p h hlocate =>
      ⟨unmoved_keptFor.folder tree way p h.1 hlocate, hI.folder tree p h.2⟩
  -- A kept pair is used as it is.
  · intro tree source text shown script h hread htext hshown _ hpair
    have hprint := hpair.print
    have hcompiled := hpair.compiled
    rw [hhash] at hprint
    rw [hcom] at hcompiled
    exact ⟨h, tree, source, text, shown, h.2, hread, htext, hshown,
      h.1.2 folder name _ script hprint.exists_mem hcompiled.exists_mem⟩
  -- What was just compiled is kept with its print.
  · intro tree tree' source text shown script h hread htext hshown hmake hjust
    have hscript : R (printOf vocabulary t shown) script := by
      obtain ⟨text', htext', hrest⟩ := bind_eq_ok.mp hmake
      cases htext.symm.trans htext'
      obtain ⟨statements, hparse, hcompile⟩ := bind_eq_ok.mp hrest
      exact hmade source text statements _ script ⟨htext, hshown, hparse, rfl, rfl, hcompile⟩
    obtain ⟨⟨found, hroom⟩, time, time', rfl, found', hroom'⟩ := hjust
    refine ⟨⟨⟨?_, h.1.2.keepPair time time' hscript⟩, ?_⟩, tree, source, text, shown, h.2, hread,
      htext, hshown, hscript⟩
    · generalize workPath o t = work at hroom hroom' ⊢
      unfold keepPair
      exact (h.1.1.put hroom _).put hroom' _
    · unfold keepPair
      rw [hcom, hhash]
      exact hI.record _ _ _ _ _ (.inr rfl) (hI.record _ _ _ _ _ (.inl rfl) h.2)
  -- Without room for the print, the script alone is kept; nothing takes it from there.
  · intro tree tree' source script time h hmake hhalf
    obtain ⟨found, hlocate⟩ := hhalf.located
    refine ⟨⟨?_, h.1.2.halfKept h.1.1 hhalf⟩, ?_⟩
    · rw [hhalf.eq]
      exact h.1.1.put hlocate _
    · rw [hhalf.eq, hcom]
      exact hI.record _ _ _ _ _ (.inl rfl) h.2

end

/-! ## Histories -/

section

variable {R : Fingerprint → CompiledScript → Prop} {T : Tree CacheRecord → Prop}
  {Allowed : BuildOptions → World CacheRecord → Prop} {o : BuildOptions} {w : World CacheRecord}

/-- A build compiles its scripts with the commands and the system's variables of a vocabulary, if it
comes to that. -/
def UsesVocabulary (o : BuildOptions) (w : World CacheRecord) (v : Vocabulary) : Prop :=
  ∃ template w₁ system, readTemplate o w = .ok template w₁ ∧
    systemNames template.variableTable.entries = .ok system ∧
    v.commands = template.commands.commands ∧ v.system = system ++ o.system

/-- **Whatever is kept for a fingerprint stands in a relation to it**, if all that the builds make
does. -/
theorem Reached.keptFor (h : Reached Tree.Sane Allowed w)
    (hmade : ∀ o w v source text statements print script, Allowed o w → UsesVocabulary o w v →
      MadeFrom o v source text statements print script → R print script) :
    w.tree.Sane ∧ KeptFor R w.tree := by
  induction h with
  | start hsane h => exact ⟨hsane, keptFor_of_noRecords h⟩
  | change _ hsane hrecords ih =>
    refine ⟨hsane, ih.2.mono fun p r hkept => .inr ?_⟩
    obtain ⟨f, hf, hr⟩ := hkept
    exact ⟨f, hrecords _ hf r hr, hr⟩
  | build _ o hallowed ih =>
    refine after_build unmoved_keptFor ih fun template w₁ system htemplate hsystem
      globalTypes t => ?_
    have hspared : Spared fun _ => True := ⟨fun _ _ => id, fun _ _ _ _ _ _ => id⟩
    refine (keptFor_compileTask hspared fun source text statements print script hmake => ?_).imp
      (fun _ h => ⟨h, trivial⟩) (fun _ _ h => h.1.1) fun _ h => h.1
    exact hmade o _ _ source text statements print script hallowed
      ⟨template, w₁, system, htemplate, hsystem, rfl, rfl⟩ hmake

/-! ## The scripts of a build -/

/-- A tree has the same sources as some files. -/
def SourcesOf (files : List (Place × File CacheRecord)) (tree : Tree CacheRecord) : Prop :=
  ∀ folder name, tree.files.lookup (folder ++ [name ++ sourceEnding]) =
    files.lookup (folder ++ [name ++ sourceEnding])

theorem spared_sourcesOf (files : List (Place × File CacheRecord)) : Spared (SourcesOf files) where
  folder tree p h folder name := by rw [files_addFolder, h]
  record tree folder name ending f hending h folder' name' := by
    have hne : folder' ++ [name' ++ sourceEnding] ≠ folder ++ [name ++ ending] := by
      intro heq
      have hlast := congrArg (fun s : String => s.toList.getLast?)
        (Option.some.inj (by simpa using congrArg getLast? heq) :
          name' ++ sourceEnding = name ++ ending)
      rcases hending with rfl | rfl <;> simp [String.toList_append, sourceEnding] at hlast
    have hput : (tree.put (folder ++ [name ++ ending]) f).files =
      putFile tree.files (folder ++ [name ++ ending]) f := rfl
    rw [hput, putFile, lookup_append, lookup_filter tree.files (· != folder ++ [name ++ ending]),
      if_pos (bne_iff_ne.mpr hne), h, lookup_cons, beq_eq_false_iff_ne.mpr hne]
    simp

/-- A file whose path has the ending of sources. -/
def SourceFile.IsSource (f : SourceFile) : Prop := ∃ base, f.path = base ++ sourceEnding

theorem mem_of_sortFiles {codec : Codec} {files sorted : List SourceFile} {f : SourceFile}
    (h : sortFiles codec files = .ok sorted) (hf : f ∈ sorted) : f ∈ files := by
  obtain ⟨keyed, hkeyed, h⟩ := of_bind h
  cases h
  obtain ⟨x, hx, rfl⟩ := mem_map.mp hf
  obtain ⟨g, hg, hx⟩ := exists_of_mem_forall₂_right (mapM_eq_ok.mp hkeyed)
    ((mergeSort_perm keyed _).mem_iff.mp hx)
  obtain ⟨key, -, hx⟩ := of_bind hx
  cases hx
  exact hg

theorem isSource_join (folder : String) {name : String}
    (h : sourceEnding.toList.isSuffixOf name.toList = true) :
    SourceFile.IsSource ⟨folder, Path.join folder name⟩ := by
  obtain ⟨stem, hstem⟩ := isSuffixOf_iff_suffix.mp h
  have hname : name = String.ofList stem ++ sourceEnding := by
    rw [← String.ofList_toList (s := name), ← hstem, String.ofList_append, String.ofList_toList]
  unfold SourceFile.IsSource Path.join
  split
  · exact ⟨_, hname⟩
  · split
    · exact ⟨folder ++ String.ofList stem, by rw [hname, ← String.append_assoc]⟩
    · exact ⟨folder ++ "/" ++ String.ofList stem, by rw [hname, ← String.append_assoc]⟩

theorem isSource_add {s : Sources} (hs : ∀ f ∈ s.scripts, f.IsSource) (folder name : String) :
    ∀ f ∈ (s.add folder name).scripts, f.IsSource := by
  unfold Sources.add
  split
  · next hending =>
    split
    · exact hs
    · exact hs
    · exact hs
    · exact forall_mem_append.mpr ⟨hs, forall_mem_singleton.mpr (isSource_join folder hending)⟩
  · exact hs

theorem isSource_sourcesIn (folders : List (String × List String)) :
    ∀ f ∈ (sourcesIn folders).scripts, f.IsSource := by
  have hempty : ∀ f ∈ ({} : Sources).scripts, f.IsSource := by simp
  refine foldlRecOn (motive := fun s : Sources => ∀ f ∈ s.scripts, f.IsSource) folders _ hempty
    fun s hs x _ => ?_
  exact foldlRecOn (motive := fun s : Sources => ∀ f ∈ s.scripts, f.IsSource) x.2 _ hs
    fun s hs name _ => isSource_add hs x.1 name

theorem isSource_of_findSources {sources : Sources} {w' : World CacheRecord}
    (h : findSources o w = .ok sources w') : ∀ f ∈ sources.scripts, f.IsSource := by
  obtain ⟨folders, w₁, -, h⟩ := of_runBind h
  obtain ⟨globals, w₂, -, h⟩ := of_runBind h
  obtain ⟨folderFiles, w₃, -, h⟩ := of_runBind h
  obtain ⟨scripts, w₄, hscripts, h⟩ := of_runBind h
  cases h
  exact fun f hf =>
    isSource_sourcesIn folders f (mem_of_sortFiles (ofResult_eq_ok.mp hscripts).1 hf)

theorem isEnding_source : Path.IsEnding sourceEnding := ⟨by decide, 'i', by decide, by decide⟩

/-- Every script of a build stands in a relation to the fingerprint of its file, if what is kept
does and what is compiled now would. -/
theorem Gathered.keptFor (g : Gathered o w) (hw : w.tree.Sane ∧ KeptFor R w.tree)
    (hmade : ∀ v source text statements print script, v.commands = g.template.commands.commands →
      v.system = g.system ++ o.system → MadeFrom o v source text statements print script →
      R print script) :
    Forall₂ (fun f script => ∃ source text shown,
      ReadsAs w.tree.files (Path.place f.path) source ∧ o.sourceCodec.decode source = .ok text ∧
      shownBytes o source text = .ok shown ∧
      R ⟨g.globalTypes, seenTypes g.folders f.folder, shown⟩ script)
        g.sources.scripts g.scripts := by
  have hstart : (g.atFolders.tree.Sane ∧ KeptFor R g.atFolders.tree) ∧
      SourcesOf w.tree.files g.atFolders.tree := by
    rw [g.tree_atFolders]
    exact ⟨hw, fun _ _ => rfl⟩
  have hscripts := ((ensures_mapTasks fun t => keptFor_compileTask (spared_sourcesOf w.tree.files)
    fun source text statements print script => hmade _ source text statements print script rfl
      rfl).of_ok hstart g.scripts_eq).2
  rw [compileTasks, forall₂_map_left_iff] at hscripts
  obtain ⟨hlength, hscripts⟩ := forall₂_iff_zip.mp hscripts
  refine forall₂_iff_zip.mpr ⟨hlength, fun {f script} hmem => ?_⟩
  obtain ⟨tree, source, text, shown, htree, hread, hrest⟩ := hscripts hmem
  obtain ⟨base, hbase⟩ := isSource_of_findSources g.sources_eq f (of_mem_zip hmem).1
  obtain ⟨folder, name, hplace⟩ := Path.exists_place_append base
  have hfile := htree folder name
  rw [← hplace _ isEnding_source, ← hbase] at hfile
  unfold ReadsAs Holds at hread
  rw [hfile] at hread
  exact ⟨source, text, shown, hread, hrest⟩

/-- A script of a build is made for a file as the build finds it, by the build itself if nothing is
kept, or by an earlier one: with the names and types that the file sees, and from a source that
shows the same bytes. -/
structure Gathered.MadeFor (g : Gathered o w) (file : SourceFile) (script : CompiledScript)
    (o' : BuildOptions) (v : Vocabulary) (text' : String) (statements : List Stmt) : Prop where
  made : ∃ source text shown source', ReadsAs w.tree.files (Path.place file.path) source ∧
    o.sourceCodec.decode source = .ok text ∧ shownBytes o source text = .ok shown ∧
    MadeFrom o' v source' text' statements
      ⟨g.globalTypes, seenTypes g.folders file.folder, shown⟩ script
  now : NoRecords w.tree → o' = o ∧ v = g.vocabularyAt file.folder

/-- **The scripts of a build are made for the files as it finds them.** -/
theorem Gathered.isMadeFor (g : Gathered o w) (hw : Reached Tree.Sane Allowed w) :
    Forall₂ (fun file script => ∃ o' v text statements, g.MadeFor file script o' v text statements)
      g.sources.scripts g.scripts := by
  have hkept : w.tree.Sane ∧ KeptFor (fun print script => ∃ o' v source text statements,
      MadeFrom o' v source text statements print script ∧ (NoRecords w.tree → o' = o ∧
        v.commands = g.template.commands.commands ∧ v.system = g.system ++ o.system)) w.tree := by
    obtain ⟨hsane, hkept⟩ := hw.keptFor (R := fun print script => ∃ o' v source text statements,
      MadeFrom o' v source text statements print script)
      fun o' _ v source text statements _ _ _ _ hmade => ⟨o', v, source, text, statements, hmade⟩
    refine ⟨hsane, fun folder name print script hhash hcom => ?_⟩
    obtain ⟨o', v, source, text, statements, hmade⟩ := hkept folder name print script hhash hcom
    obtain ⟨f, hf, hr⟩ := hhash
    exact ⟨o', v, source, text, statements, hmade, fun hnone => absurd hr (hnone _ hf _)⟩
  have hscripts :=
    g.keptFor hkept fun v source text statements print script hcommands hsystem hmade =>
    ⟨o, v, source, text, statements, hmade, fun _ => ⟨rfl, hcommands, hsystem⟩⟩
  refine hscripts.imp fun file script h => ?_
  obtain ⟨source, text, shown, hread, htext, hshown, o', v, source', text', statements, hmade,
    hnow⟩ :=
    h
  refine ⟨o', v, text', statements, ⟨source, text, shown, source', hread, htext, hshown, hmade⟩,
    fun hnone => ?_⟩
  obtain ⟨ho, hcommands, hsystem⟩ := hnow hnone
  have hglobals := hmade.globals
  have hfolders := hmade.folders
  cases v
  simp_all [Gathered.vocabularyAt, vocabularyOf]

end

/-! ## One task -/

/-- The two places of the records of a script. -/
def recordPlaces (work : String) (p : Place) : Prop :=
  p = Path.place (work ++ "hash") ∨ p = Path.place (work ++ "com")

section

variable {o : BuildOptions} {vocabulary : Vocabulary} {t : CompileTask} {text work : String}
  {print : Fingerprint} {script : CompiledScript} {w w₀ w₀' : World CacheRecord}
variable {tree : Tree CacheRecord}

/-- A tree in which both records of a script can be written. -/
structure Writable (work : String) (tree : Tree CacheRecord) : Prop where
  hash : tree.HasRoom (work ++ "hash")
  com : tree.HasRoom (work ++ "com")

theorem Writable.isFolder (h : Writable work tree) {p : Place} (hp : recordPlaces work p) :
    tree.isFolder p = false := by
  obtain ⟨⟨_, hhash⟩, ⟨_, hcom⟩⟩ := h
  rcases hp with rfl | rfl
  · exact (isFolder_of_locate hhash).1
  · exact (isFolder_of_locate hcom).1

/-- Where one of the two records can be written, so can the other. -/
theorem Writable.of_com {tree₁ : Tree CacheRecord} (h : Writable work tree)
    (hroom : tree₁.HasRoom (work ++ "com"))
    (hfolder : tree₁.isFolder (Path.place (work ++ "hash")) = false) : Writable work tree₁ := by
  obtain ⟨found, hcom⟩ := hroom
  obtain ⟨found', hhash⟩ := h.hash
  have hlocate := locate_sibling isEnding_com isEnding_hash hcom (Path.fits_of_ok hhash).1
    (isFolder_of_locate hhash).2.2
  rw [spotAt_eq_ofFile? hfolder] at hlocate
  exact ⟨⟨_, hlocate⟩, ⟨_, hcom⟩⟩

theorem Writable.put_com (h : Writable work tree) (f : File CacheRecord) :
    Writable work (tree.put (Path.place (work ++ "com")) f) := by
  obtain ⟨found, hcom⟩ := h.com
  exact h.of_com ⟨some f, locate_put hcom f⟩ (h.isFolder (.inl rfl))

/-- When a script is compiled anew: the folder of its records is made, the source compiles, and then
both records can be written. -/
theorem compileAnew_eq_ok :
    (∃ w', compileAnew o vocabulary t text work print w = .ok script w') ↔
      ∃ statements w₁, makeFolder (Path.parent work)
          { w with log := w.log ++ ["compile " ++ t.file.path] } = .ok () w₁ ∧
        Source.parse text = .ok statements ∧
        compileScript o.compiling
          { vocabulary with folders := t.folders } statements = .ok script ∧
        Writable work w₁.tree := by
  have hsaid : Session.say ("compile " ++ t.file.path) w = EStateM.Result.ok ()
      { w with log := w.log ++ ["compile " ++ t.file.path] } := rfl
  constructor
  · rintro ⟨w', hmake⟩
    obtain ⟨_, w₀, hsay, hrest₁⟩ := of_runBind hmake
    obtain ⟨_, w₁, hfolder, hrest₂⟩ := of_runBind hrest₁
    obtain ⟨statements, w₂, hparse', hrest₃⟩ := of_runBind hrest₂
    obtain ⟨script', w₃, hcompile', hrest₄⟩ := of_runBind hrest₃
    obtain ⟨_, w₄, hcom, hrest₅⟩ := of_runBind hrest₄
    obtain ⟨_, w₅, hhash, hreturn⟩ := of_runBind hrest₅
    -- Only the folder and the two records change the tree.
    cases hsay
    obtain ⟨hparse, rfl⟩ := ofResult_eq_ok.mp hparse'
    obtain ⟨hcompile, rfl⟩ := ofResult_eq_ok.mp hcompile'
    cases hreturn
    obtain ⟨found, hlocate⟩ := hasRoom_of_write hcom
    obtain ⟨found', hlocate'⟩ := hasRoom_of_write hhash
    rw [write_eq hlocate] at hcom
    cases hcom
    refine ⟨statements, w₃, hfolder, hparse, noting_eq_ok.mp hcompile, ?_⟩
    have hwritten : Writable work _ := ⟨⟨_, hlocate'⟩, ⟨some _, locate_put hlocate _⟩⟩
    exact hwritten.of_com ⟨_, hlocate⟩ (isFolder_of_locate hlocate').1
  · rintro ⟨statements, w₁, hfolder, hparse, hcompile, hwritable⟩
    obtain ⟨found, hlocate⟩ := hwritable.com
    have hcom := write_eq hlocate (.record (.compiled script))
    generalize hw₂ : ({ w₁ with tree := w₁.tree.put _ _ } : World CacheRecord) = w₂ at hcom
    have hwritable₂ : Writable work w₂.tree := by
      rw [← hw₂]
      exact hwritable.put_com _
    obtain ⟨found', hlocate'⟩ := hwritable₂.hash
    have hhash := write_eq hlocate' (.record (.fingerprint print))
    refine ⟨_, runBind_eq_ok.mpr ⟨_, _, hsaid, runBind_eq_ok.mpr ⟨_, _, hfolder,
      runBind_eq_ok.mpr ⟨_, _, ofResult_eq_ok.mpr ⟨hparse, rfl⟩, runBind_eq_ok.mpr ⟨_, _,
        ofResult_eq_ok.mpr ⟨noting_eq_ok.mpr hcompile, rfl⟩, runBind_eq_ok.mpr ⟨_, _, hcom,
          runBind_eq_ok.mpr ⟨_, _, hhash, rfl⟩⟩⟩⟩⟩⟩⟩

/-- A script that can be compiled where nothing is kept of it can be compiled where something is. -/
theorem compileAnew_of_thinned (h : Tree.Thinned (recordPlaces work) w.tree w₀.tree)
    (hmake : ∃ w', compileAnew o vocabulary t text work print w₀ = .ok script w') :
    ∃ w', compileAnew o vocabulary t text work print w = .ok script w' := by
  obtain ⟨statements, w₁, hfolder, hparse, hcompile, hwritable⟩ := compileAnew_eq_ok.mp hmake
  have hstart (log log₀ : List String) : Tree.Thinned (recordPlaces work)
      ({ w with log } : World CacheRecord).tree
        ({ w₀ with log := log₀ } : World CacheRecord).tree := h
  obtain ⟨w₂, hfolder', h₂⟩ := makeFolder_of_thinned
    (hstart (w.log ++ ["compile " ++ t.file.path]) _) hfolder fun p hp => hwritable.isFolder hp
  obtain ⟨found, hcom⟩ := hwritable.com
  have hcom' := locate_within h₂.folders.symm hcom
  rw [Spot.within_ofFile?] at hcom'
  have hopen : w₂.tree.isFolder (Path.place (work ++ "hash")) = false := by
    rw [← h₂.isFolder]
    exact hwritable.isFolder (.inl rfl)
  have hwritable₂ : Writable work w₂.tree := hwritable.of_com ⟨_, hcom'⟩ hopen
  exact compileAnew_eq_ok.mpr ⟨statements, w₂, hfolder', hparse, hcompile, hwritable₂⟩

theorem keptCompiled?_eq {value : Option CacheRecord}
    (hhash : record? (work ++ "hash") w = .ok value w)
    (hcom : value = some (.fingerprint print) →
      ∃ value', record? (work ++ "com") w = .ok value' w) :
    ∃ kept, keptCompiled? o work print w = .ok kept w ∧ ∀ script, kept = some script →
      value = some (.fingerprint print) ∧
        record? (work ++ "com") w = .ok (some (.compiled script)) w := by
  rw [keptCompiled?, runBind_of_ok hhash]
  split
  · next kept =>
    by_cases hsame : kept = print ∧ !o.recompiles
    · rw [if_pos hsame]
      obtain ⟨rfl, -⟩ := hsame
      obtain ⟨value', hcom⟩ := hcom rfl
      rw [runBind_of_ok hcom]
      split
      · next script =>
        refine ⟨some script, rfl, fun script' heq => ⟨rfl, ?_⟩⟩
        cases heq
        exact hcom
      · exact ⟨none, rfl, nofun⟩
    · rw [if_neg hsame]
      exact ⟨none, rfl, nofun⟩
  · exact ⟨none, rfl, nofun⟩

theorem record?_hash_of_thinned (h : Tree.Thinned (recordPlaces work) w.tree w₀.tree)
    (hbytes : ∀ p data, recordPlaces work p → ¬Holds w.tree.files p (.bytes data))
    (hwritable : Writable work tree) {content : Option (Content CacheRecord)}
    (hfound : Found w₀.tree (work ++ "hash") content) :
    ∃ value, record? (work ++ "hash") w = .ok value w := by
  obtain ⟨p, found, hlocate, -⟩ | ⟨f, hlocate, hkind, -⟩ := hfound
  · have hlocate' := locate_within h.folders.symm hlocate
    rw [Spot.within_ofFile?] at hlocate'
    exact record?_eq hlocate' fun data => hbytes _ data (.inl rfl)
  · obtain ⟨found, hhash⟩ := hwritable.hash
    have hlocate' := h.locate_error hhash (fun p hp => hwritable.isFolder hp) hlocate
    exact ⟨none, record?_of_error hlocate' hkind⟩

theorem record?_com_of_hash
    (hbytes : ∀ p data, recordPlaces work p → ¬Holds w.tree.files p (.bytes data))
    (hwritable : Writable work tree)
    (hfolder : w.tree.isFolder (Path.place (work ++ "com")) = false) {value : CacheRecord}
    (hhash : record? (work ++ "hash") w = .ok (some value) w) :
    ∃ value', record? (work ++ "com") w = .ok value' w := by
  obtain ⟨found, hcom⟩ := hwritable.com
  obtain ⟨-, ⟨p, found', hlocate, -⟩ | ⟨f, -, -, hnone⟩⟩ := found_of_record? hhash
  · have hlocate' := locate_sibling isEnding_hash isEnding_com hlocate
      (Path.fits_of_ok hcom).1 (isFolder_of_locate hcom).2.2
    rw [spotAt_eq_ofFile? hfolder] at hlocate'
    exact record?_eq hlocate' fun data => hbytes _ data (.inr rfl)
  · cases hnone

/-- Without records a script is compiled as it was. -/
theorem keepOrCompile_of_thinned (h : Tree.Thinned (recordPlaces work) w.tree w₀.tree)
    (hbytes : ∀ p data, recordPlaces work p → ¬Holds w.tree.files p (.bytes data))
    (hmake : keepOrCompile o vocabulary t text work print w₀ = .ok script w₀') :
    (∃ statements, Source.parse text = .ok statements ∧
      compileScript o.compiling
        { vocabulary with folders := t.folders } statements = .ok script) ∧
    ∃ result w', keepOrCompile o vocabulary t text work print w = .ok result w' ∧
      (result = script ∨ KeptPair w.tree.files work print result) := by
  obtain ⟨kept, w₁, hkept₀, hrest⟩ := of_runBind hmake
  obtain ⟨value, w₂, hvalue, hkept₁⟩ := of_runBind hkept₀
  obtain ⟨rfl, hfound⟩ := found_of_record? hvalue
  -- The thinned tree has no record, so there the script is compiled anew.
  cases value with
  | some value =>
    obtain ⟨f, hfile, -⟩ := hfound.holds
    have hgone := h.gone _ (.inl rfl)
    rw [Tree.file?, hfile] at hgone
    cases hgone
  | none =>
    cases hkept₁
    have hanew₀ : ∃ w', compileAnew o vocabulary t text work print w₁ = .ok script w' := ⟨_, hrest⟩
    obtain ⟨statements, w₂, hfolder, hparse, hcompile, hwritable⟩ := compileAnew_eq_ok.mp hanew₀
    refine ⟨⟨statements, hparse, hcompile⟩, ?_⟩
    obtain ⟨w', hanew⟩ := compileAnew_of_thinned h hanew₀
    have hbefore := isFolder_of_makeFolder hfolder (hwritable.isFolder (.inr rfl))
    have hopen : w.tree.isFolder (Path.place (work ++ "com")) = false := by
      rw [← h.isFolder]
      exact hbefore
    obtain ⟨value, hhash⟩ := record?_hash_of_thinned h hbytes hwritable hfound
    have hcom : value = some (.fingerprint print) →
        ∃ value', record? (work ++ "com") w = .ok value' w := by
      rintro rfl
      exact record?_com_of_hash hbytes hwritable hopen hhash
    obtain ⟨kept, hkept, hpair⟩ := keptCompiled?_eq hhash hcom
    cases kept with
    | none => exact ⟨script, w', (runBind_of_ok hkept).trans hanew, .inl rfl⟩
    | some result =>
      obtain ⟨rfl, hresult⟩ := hpair result rfl
      refine ⟨result, w, (runBind_of_ok hkept).trans rfl, .inr ⟨?_, ?_⟩⟩
      · exact (found_of_record? hhash).2.holds
      · exact (found_of_record? hresult).2.holds

end

/-- The world without the records of a script. -/
def without (work : String) (w : World CacheRecord) : World CacheRecord :=
  { w with tree.files := w.tree.files.filter fun e =>
      e.1 != Path.place (work ++ "hash") && e.1 != Path.place (work ++ "com") }

theorem thinned_without (work : String) (w : World CacheRecord) :
    Tree.Thinned (recordPlaces work) w.tree (without work w).tree where
  folders := rfl
  gone p hp := by
    refine (lookup_filter w.tree.files (fun q => q != _ && q != _) p).trans (if_neg ?_)
    rcases hp with rfl | rfl <;> simp
  rest p hp := by
    refine (lookup_filter w.tree.files (fun q => q != _ && q != _) p).trans (if_pos ?_)
    simpa [recordPlaces, not_or] using hp

section

variable {S : Settings → Prop} {o : BuildOptions} {vocabulary : Vocabulary} {t : CompileTask}
  {w : World CacheRecord} {script : CompiledScript}

/-- A build whose settings are among given ones, with a codec that substitutes no characters. -/
def HasSettings (S : Settings → Prop) (o : BuildOptions) (w : World CacheRecord) : Prop :=
  o.output.substitutes = false ∧ ∀ v, UsesVocabulary o w v → S (settingsOf o v)

/-- What was made from a source is what it is compiled to. -/
theorem MadeFrom.compile_eq {v : Vocabulary} {source : Bytes} {text : String}
    {statements : List Stmt} {print : Fingerprint} (hplain : o.output.substitutes = false)
    (h : MadeFrom o v source text statements print script) :
    (settingsOf o v).compile print = .ok script := by
  have hshown := h.shown
  rw [shownBytes, hplain] at hshown
  have hsource : source = print.source := Except.ok.inj hshown
  refine bind_eq_ok.mpr ⟨text, hsource ▸ h.decoded, bind_eq_ok.mpr ⟨statements, h.parsed, ?_⟩⟩
  rw [← h.globals, ← h.folders]
  exact h.compiled

/-- A kept pair was compiled with some settings of the history. -/
theorem KeptPair.exists_settings {work : String} {print : Fingerprint}
    (hw : Reached Tree.Sane (HasSettings S) w) (h : KeptPair w.tree.files work print script) :
    ∃ s, S s ∧ s.compile print = .ok script := by
  obtain ⟨folder, name, hplace⟩ := Path.exists_place_append work
  obtain ⟨hprint, hcompiled⟩ := h
  rw [hplace _ isEnding_hash] at hprint
  rw [hplace _ isEnding_com] at hcompiled
  obtain ⟨-, hkept⟩ := hw.keptFor (R := fun print script => ∃ s, S s ∧ s.compile print = .ok script)
    fun o w v source text statements print script hallowed huses hmade =>
      ⟨settingsOf o v, hallowed.2 v huses, hmade.compile_eq hallowed.1⟩
  exact hkept folder name print script hprint.exists_mem hcompiled.exists_mem

/-- **A compile task may give what an earlier build has made.** Where it would compile its source
with nothing kept, it gives what its own settings or those of an earlier build make of the source
and of the variables that can be seen; so it gives the same if all these settings do. -/
theorem compileTask_reuses (hw : Reached Tree.Sane (HasSettings S) w)
    (hplain : o.output.substitutes = false)
    (hbytes : ∀ p data, recordPlaces (workPath o t) p → ¬Holds w.tree.files p (.bytes data))
    {w₀ : World CacheRecord}
    (hfresh : compileTask o vocabulary t (without (workPath o t) w) = .ok script w₀) :
    ∃ source result w', readBytes t.file.path w = .ok source w ∧
      compileTask o vocabulary t w = .ok result w' ∧
      (settingsOf o vocabulary).compile (printOf vocabulary t source) = .ok script ∧
      (result = script ∨ ∃ s, S s ∧ s.compile (printOf vocabulary t source) = .ok result) ∧
      ((∀ s, S s → s.compile (printOf vocabulary t source) =
        (settingsOf o vocabulary).compile (printOf vocabulary t source)) → result = script) := by
  rw [compileTask_eq] at hfresh ⊢
  have hthin := thinned_without (workPath o t) w
  generalize without (workPath o t) w = w₁ at hfresh hthin
  generalize workPath o t = work at hbytes hfresh hthin ⊢
  obtain ⟨source, w₂, hread₀, hrest₁⟩ := runBind_eq_ok.mp hfresh
  obtain ⟨rfl, hread⟩ := readBytes_of_thinned hthin hread₀
  obtain ⟨text, w₃, htext', hrest₂⟩ := runBind_eq_ok.mp hrest₁
  obtain ⟨htext, rfl⟩ := ofResult_eq_ok.mp htext'
  obtain ⟨shown, w₄, hshown', hrest₃⟩ := runBind_eq_ok.mp hrest₂
  obtain ⟨hshown, rfl⟩ := ofResult_eq_ok.mp hshown'
  -- Without substitution a source is shown as it is.
  have hsource : shown = source := by
    rw [shownBytes, hplain] at hshown
    exact (Except.ok.inj hshown).symm
  subst hsource
  obtain ⟨⟨statements, hparse, hcompile⟩, result, w', hrun, hresult⟩ :=
    keepOrCompile_of_thinned hthin hbytes hrest₃
  have hown : (settingsOf o vocabulary).compile (printOf vocabulary t shown) = .ok script :=
    bind_eq_ok.mpr ⟨text, htext, bind_eq_ok.mpr ⟨statements, hparse, hcompile⟩⟩
  have hsettings : result = script ∨
      ∃ s, S s ∧ s.compile (printOf vocabulary t shown) = .ok result :=
    hresult.imp id fun hpair => hpair.exists_settings hw
  refine ⟨shown, result, w', hread, ?_, hown, hsettings, fun hsame => ?_⟩
  · exact runBind_eq_ok.mpr ⟨_, _, hread, runBind_eq_ok.mpr ⟨_, _, ofResult_eq_ok.mpr ⟨htext, rfl⟩,
      runBind_eq_ok.mpr ⟨_, _, ofResult_eq_ok.mpr ⟨hshown, rfl⟩, hrun⟩⟩⟩
  · rcases hsettings with rfl | ⟨s, hs, hmade⟩
    · rfl
    · rw [hsame s hs, hown] at hmade
      exact (Except.ok.inj hmade).symm

end

theorem sampleBuilt_records :
    (sampleBuilt.tree.files.lookup (Path.place (workPath sampleOptions sampleTask ++ "hash"))).map
        (·.content) = some (.record (.fingerprint ⟨[], [], Bytes.ofAscii sampleText⟩)) ∧
      (sampleBuilt.tree.files.lookup (Path.place (workPath sampleOptions sampleTask ++ "com"))).map
        (·.content) = some (.record (.compiled (sampleScript 480))) := by
  decide +kernel

theorem reached_sampleBuilt :
    Reached Tree.Sane (HasSettings (· = settingsOf sampleOptions sampleVocabulary))
      sampleBuilt := by
  have hafter : after (build sampleOptions) sampleWorld = sampleBuilt := by
    unfold Session.after
    rw [build_sample]
  have hnames : systemNames sampleTemplate.variableTable.entries = .ok [("__Sys0", .int, 0)] := by
    decide +kernel
  rw [← hafter]
  refine reached_sampleWorld.build sampleOptions ⟨rfl, ?_⟩
  rintro v ⟨template, w₁, system, htemplate, hsystem, hcommands, hnumbers⟩
  rw [readTemplate_sample] at htemplate
  cases htemplate
  rw [hnames] at hsystem
  cases hsystem
  rw [settingsOf, hcommands, hnumbers]
  rfl

theorem compileTask_reuses_sampleBuilt :
    Reached Tree.Sane (HasSettings (· = settingsOf sampleOptions sampleVocabulary)) sampleBuilt ∧
      ∃ w₀ w', compileTask sampleOptions sampleVocabulary sampleTask
          (without (workPath sampleOptions sampleTask) sampleBuilt) = .ok (sampleScript 480) w₀ ∧
        compileTask sampleOptions sampleVocabulary sampleTask sampleBuilt =
          .ok (sampleScript 480) w' := by
  have hfresh : compileTask sampleOptions sampleVocabulary sampleTask
      (without (workPath sampleOptions sampleTask) sampleBuilt) = .ok (sampleScript 480) _ :=
    eq_ok_of_result? (by decide +kernel)
  have hbytes : ∀ p data, recordPlaces (workPath sampleOptions sampleTask) p →
      ¬Holds sampleBuilt.tree.files p (.bytes data) := by
    rintro p data (rfl | rfl) ⟨f, hf, hdata⟩
    · have hrecord := sampleBuilt_records.1
      rw [hf, Option.map_some, hdata] at hrecord
      cases hrecord
    · have hrecord := sampleBuilt_records.2
      rw [hf, Option.map_some, hdata] at hrecord
      cases hrecord
  obtain ⟨source, result, w', -, hrun, -, -, hsame⟩ :=
    compileTask_reuses reached_sampleBuilt rfl hbytes hfresh
  rw [hsame fun s hs => by rw [hs]] at hrun
  exact ⟨reached_sampleBuilt, _, w', hfresh, hrun⟩

/-- After a build for version 480, a task for version 470 gives the script for version 480. -/
theorem oldVersion_reused :
    build sampleOptions sampleWorld = .ok () sampleBuilt ∧
      result? (compileTask { sampleOptions with version := 470 } sampleVocabulary sampleTask)
        sampleBuilt = some (sampleScript 480) ∧
      result? (compileTask { sampleOptions with version := 470 } sampleVocabulary sampleTask)
        (without (workPath sampleOptions sampleTask) sampleBuilt) = some (sampleScript 470) ∧
      sampleScript 480 ≠ sampleScript 470 :=
  ⟨build_sample, by decide +kernel⟩

end NovelScript.Project
