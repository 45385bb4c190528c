import NovelScript.Proofs.Project.Numbering
import NovelScript.Proofs.Session

/-!
# Runs of a build

A build that succeeds goes through fixed stages (`Gathered`, `Built`), and what it does to the files
can be told from its tasks, since all other stages only read, or write bytes.

Builds leave records behind that later builds use. `Reached` are the worlds that can come about so:
allowed builds in any order, finished or failed, and any change of files between them that makes no
records. There every compiled script that is kept has been made by the compiler, so its counts are
right, and a build numbers all variables without gaps whatever it takes from the records.
-/

namespace NovelScript.Project

open List Session NovelScript.Path

variable {w w' : World CacheRecord}
variable {o : BuildOptions}

/-! ## Stages -/

/-- The names that a build knows outside of its folders. -/
def vocabularyOf (o : BuildOptions) (template : Template) (system : List (String × ValueType × Int))
    (globalTypes : List (String × ValueType)) : Vocabulary :=
  ⟨template.commands.commands, system ++ o.system, globalTypes, []⟩

/-- The types of the folder variables that a script in a folder sees. -/
def seenTypes (folders : List FolderDeclarations) (folder : String) : List (String × ValueType) :=
  visible (folders.map fun f => (f.folder, typesOf f.declared)) folder

/-- The scripts of a build with the folder variables that they see. -/
def compileTasks (sources : Sources) (folders : List FolderDeclarations) : List CompileTask :=
  sources.scripts.map fun f => ⟨f, seenTypes folders f.folder⟩

/-- What a build has read and compiled before it links. -/
structure Gathered (o : BuildOptions) (w : World CacheRecord) where
  template : Template
  system : List (String × ValueType × Int)
  sources : Sources
  globals : List Declared
  globalTypes : List (String × ValueType)
  folders : List FolderDeclarations
  scripts : List CompiledScript
  /-- The worlds after the template, the search for sources, the declarations and the scripts. -/
  atTemplate : World CacheRecord
  atSources : World CacheRecord
  atGlobals : World CacheRecord
  atFolders : World CacheRecord
  atScripts : World CacheRecord
  template_eq : readTemplate o w = .ok template atTemplate
  system_eq : systemNames template.variableTable.entries = .ok system
  sources_eq : findSources o atTemplate = .ok sources atSources
  globals_eq : readGlobals o sources.globals [] atSources = .ok (globals, globalTypes) atGlobals
  folders_eq : readFolders o globalTypes sources.folders atGlobals = .ok folders atFolders
  scripts_eq : runTasks o.parallel ((compileTasks sources folders).map
    (compileTask o (vocabularyOf o template system globalTypes))) atFolders = .ok scripts atScripts

/-- The scripts of a build with the files they are made of. -/
def Gathered.sourced {o : BuildOptions} {w : World CacheRecord} (g : Gathered o w) :
    List (SourceFile × CompiledScript) :=
  g.sources.scripts.zip g.scripts

/-- What linking the scripts of a build comes to. -/
def Gathered.link {o : BuildOptions} {w : World CacheRecord} (g : Gathered o w) :
    Except Fault Linked :=
  Project.link o.sourceRoot g.template.variableTable.entries g.globals g.folders g.sourced

/-- The names that a build knows in a folder. -/
def Gathered.vocabularyAt {o : BuildOptions} {w : World CacheRecord} (g : Gathered o w)
    (folder : String) : Vocabulary :=
  { vocabularyOf o g.template g.system g.globalTypes with folders := seenTypes g.folders folder }

/-- The last stage of a build: the archive is written, and its files are saved. -/
def finish (o : BuildOptions) (entries : List Archive.Entry) : Work Unit := do
  Session.writeMade o.archivePath (do
    let (data, _) ← Archive.make { codec := o.output.codec, compress := o.compress }
      (chosenVersion o.archiveVersion o.version) entries
    return data)
  match o.savePath with
  | some folder => saveEntries folder entries
  | none => return ()

/-- All that a build which succeeds has made. -/
structure Built (o : BuildOptions) (w w' : World CacheRecord) extends Gathered o w where
  linked : Linked
  packed : List Archive.Entry
  tables : List Archive.Entry
  atPacked : World CacheRecord
  linked_eq : toGathered.link = .ok linked
  packed_eq : runTasks o.parallel (linked.tasks.map (linkTask ⟨o.workRoot, o.key, o.compress⟩))
    atScripts = .ok packed atPacked
  tables_eq : tableEntries o template linked = .ok tables
  finish_eq : finish o (packed ++ tables) atPacked = .ok () w'

/-- A build that succeeds has gone through all steps. -/
theorem built_of_build (h : build o w = .ok () w') : Nonempty (Built o w w') := by
  obtain ⟨template, w₁, htemplate, h₁⟩ := of_runBind h
  obtain ⟨system, u₁, hsystem', h₂⟩ := of_runBind h₁
  obtain ⟨sources, w₂, hsources, h₃⟩ := of_runBind h₂
  obtain ⟨⟨globals, globalTypes⟩, w₃, hglobals, h₄⟩ := of_runBind h₃
  obtain ⟨folders, w₄, hfolders, h₅⟩ := of_runBind h₄
  obtain ⟨scripts, w₅, hscripts, h₆⟩ := of_runBind h₅
  obtain ⟨linked, u₅, hlinked', h₇⟩ := of_runBind h₆
  obtain ⟨packed, w₆, hpacked, h₈⟩ := of_runBind h₇
  obtain ⟨tables, u₆, htables', hfinish⟩ := of_runBind h₈
  -- Steps that only look at what is at hand leave the world as it is.
  obtain ⟨hsystem, rfl⟩ := ofResult_eq_ok.mp hsystem'
  obtain ⟨hlinked, rfl⟩ := ofResult_eq_ok.mp hlinked'
  obtain ⟨htables, rfl⟩ := ofResult_eq_ok.mp htables'
  exact ⟨{
    template, system, sources, globals, globalTypes, folders, scripts
    atTemplate := u₁, atSources := w₂, atGlobals := w₃, atFolders := w₄, atScripts := u₅
    template_eq := htemplate
    system_eq := hsystem
    sources_eq := hsources
    globals_eq := hglobals
    folders_eq := hfolders
    scripts_eq := hscripts
    linked, packed, tables
    atPacked := u₆
    linked_eq := hlinked
    packed_eq := hpacked
    tables_eq := htables
    finish_eq := hfinish }⟩

theorem Built.build_eq (b : Built o w w') : build o w = .ok () w' := by
  refine runBind_eq_ok.mpr ⟨_, _, b.template_eq, ?_⟩
  refine runBind_eq_ok.mpr ⟨_, _, ofResult_eq_ok.mpr ⟨b.system_eq, rfl⟩, ?_⟩
  refine runBind_eq_ok.mpr ⟨_, _, b.sources_eq, ?_⟩
  refine runBind_eq_ok.mpr ⟨_, _, b.globals_eq, ?_⟩
  refine runBind_eq_ok.mpr ⟨_, _, b.folders_eq, ?_⟩
  refine runBind_eq_ok.mpr ⟨_, _, b.scripts_eq, ?_⟩
  refine runBind_eq_ok.mpr ⟨_, _, ofResult_eq_ok.mpr ⟨b.linked_eq, rfl⟩, ?_⟩
  refine runBind_eq_ok.mpr ⟨_, _, b.packed_eq, ?_⟩
  exact runBind_eq_ok.mpr ⟨_, _, ofResult_eq_ok.mpr ⟨b.tables_eq, rfl⟩, b.finish_eq⟩

/-! ## Stages that only read -/

theorem keepsTree_readTemplate (o : BuildOptions) : KeepsTree (readTemplate o) :=
  keepsTree_bind (keepsTree_readBytes _) fun _ => keepsTree_bind (keepsTree_ofResult _) fun _ =>
    keepsTree_bind (keepsTree_readBytes _) fun _ => keepsTree_bind (keepsTree_readBytes _)
      fun _ => keepsTree_bind (keepsTree_readBytes _) fun _ =>
        keepsTree_bind (keepsTree_ofResult _) fun _ => keepsTree_pure _

theorem keepsTree_findSources (o : BuildOptions) : KeepsTree (findSources o) :=
  keepsTree_bind (keepsTree_walk _) fun _ => keepsTree_bind (keepsTree_ofResult _) fun _ =>
    keepsTree_bind (keepsTree_ofResult _) fun _ => keepsTree_bind (keepsTree_ofResult _)
      fun _ => keepsTree_pure _

theorem keepsTree_readDeclarations (o : BuildOptions) (scope : Scope) (path : String) :
    KeepsTree (readDeclarations o scope path) :=
  keepsTree_bind (keepsTree_say _) fun _ => keepsTree_bind (keepsTree_readText _ _) fun _ =>
    keepsTree_ofResult _

theorem keepsTree_readGlobals (o : BuildOptions) (files : List SourceFile)
    (types : List (String × ValueType)) : KeepsTree (readGlobals o files types) := by
  induction files generalizing types with
  | nil => exact keepsTree_pure _
  | cons f rest ih =>
    exact keepsTree_bind (keepsTree_readDeclarations _ _ _) fun _ =>
      keepsTree_bind (keepsTree_ofResult _) fun _ => keepsTree_bind (ih _) fun _ =>
        keepsTree_pure _

theorem keepsTree_readFolders (o : BuildOptions) (globals : List (String × ValueType))
    (files : List SourceFile) : KeepsTree (readFolders o globals files) :=
  keepsTree_mapM fun _ => keepsTree_bind (keepsTree_readDeclarations _ _ _) fun _ =>
    keepsTree_bind (keepsTree_ofResult _) fun _ => keepsTree_pure _

/-! ## Stages that write -/

/-- A property of trees that neither new folders nor bytes or packed scripts can break. -/
structure Unmoved (P : Tree CacheRecord → Prop) : Prop where
  folder : ∀ tree way p, P tree → tree.locate way = .ok (.free p) → P (tree.addFolder p)
  bytes : ∀ tree path p found data time, P tree → tree.locate path = .ok (.ofFile? p found) →
    P (tree.put p ⟨.bytes data, time⟩)
  packed : ∀ tree path p found script time, P tree → tree.locate path = .ok (.ofFile? p found) →
    P (tree.put p ⟨.record (.packed script), time⟩)

section

variable {P : Tree CacheRecord → Prop} (hP : Unmoved P)
variable {parallel : Bool} {o : BuildOptions} {α τ : Type}
include hP

theorem ensures_writeBytes (path : String) (data : Bytes) :
    Ensures P (writeBytes path data) (fun _ => P) P :=
  ensures_write (fun tree p found time => hP.bytes tree path p found data time) fun _ h _ => h

/-- Linking keeps what holds of any tree with files put. -/
theorem ensures_linkTask (o : LinkOptions) (t : LinkTask) :
    Ensures P (linkTask o t) (fun _ => P) P := by
  refine ensures_bind (keepsTree_ofResult _ P) fun segments => ?_
  refine ensures_bind (Q := fun _ => P) ?_ fun kept => ?_
  · refine ensures_bind (ensures_content? _) fun found => ?_
    refine Ensures.imp ?_ (fun _ h => h.1) (fun _ _ => id) fun _ => id
    split
    · split
      · exact (keepsTree_bind (keepsTree_require _ _) fun _ => keepsTree_pure _) P
      · exact keepsTree_pure _ P
    · exact (keepsTree_bind (keepsTree_require _ _) fun _ => keepsTree_pure _) P
    · exact keepsTree_pure _ P
  · cases kept with
    | some p => exact keepsTree_pure _ P
    | none =>
      refine ensures_bind (keepsTree_say _ P) fun _ => ?_
      refine ensures_bind (keepsTree_ofResult _ P) fun key => ?_
      refine ensures_bind (Q := fun _ => P) (ensures_write ?_ ?_) fun _ => keepsTree_pure _ P
      · exact fun tree p found time => hP.packed tree _ p found _ time
      · exact fun _ h _ => h

theorem ensures_saveEntries (folder : String) (entries : List Archive.Entry) :
    Ensures P (saveEntries folder entries) (fun _ => P) P := by
  refine ensures_forM fun e _ => ?_
  refine ensures_bind (keepsTree_ofResult _ P) fun data => ?_
  generalize entryPath folder e.name = path
  refine ensures_bind (ensures_makeFolder _ hP.folder) fun _ => ?_
  exact ensures_bind (keepsTree_say _ P) fun _ => ensures_writeBytes hP path data

/-- Writing the results keeps what holds of any tree with files put. -/
theorem ensures_finish (o : BuildOptions) (entries : List Archive.Entry) :
    Ensures P (finish o entries) (fun _ => P) P := by
  refine ensures_bind (ensures_bind (ensures_writeBytes hP _ _) fun _ =>
    ensures_bind (keepsTree_ofResult _ P) fun _ => ensures_writeBytes hP _ _) fun _ => ?_
  split
  · exact ensures_saveEntries hP _ _
  · exact keepsTree_pure _ P

omit hP in
/-- Tasks that each keep a property keep it together, and each of them comes to what it comes to
alone. -/
theorem ensures_mapTasks {tasks : List τ} {task : τ → Work α} {S : τ → α → Prop}
    (h : ∀ t, Ensures P (task t) (fun a tree => P tree ∧ S t a) P) :
    Ensures P (runTasks parallel (tasks.map task))
      (fun as tree => P tree ∧ Forall₂ S tasks as) P := by
  have htask : ∀ work ∈ tasks.map task,
      Ensures P work (fun a tree => P tree ∧ ∀ t, work = task t → S t a) P := by
    intro work hmem w hw
    obtain ⟨t, -, rfl⟩ := mem_map.mp hmem
    have hfirst := h t w hw
    cases hrun : task t w with
    | error f w' =>
      rw [hrun] at hfirst
      exact hfirst
    | ok a w' =>
      rw [hrun] at hfirst
      refine ⟨hfirst.1, fun t' hsame => ?_⟩
      have hother := h t' w hw
      rw [← hsame, hrun] at hother
      exact hother.2
  have hkeeps : ∀ work ∈ tasks.map task, Ensures P work (fun _ => P) P := fun work hmem =>
    (htask work hmem).imp (fun _ => id) (fun _ _ h => h.1) fun _ => id
  refine (ensures_runTasks
    (S := fun work a => ∀ t, work = task t → S t a) parallel htask hkeeps).imp
    (fun _ => id) (fun as tree h => ⟨h.1, ?_⟩) fun _ => id
  exact (forall₂_map_left_iff.mp h.2).imp fun t a hall => hall t rfl

omit hP in
/-- Tasks keep what each of them keeps. -/
theorem ensures_tasks {tasks : List τ} {task : τ → Work α}
    (h : ∀ t, Ensures P (task t) (fun _ => P) P) :
    Ensures P (runTasks parallel (tasks.map task)) (fun _ => P) P := by
  have htask (t : τ) : Ensures P (task t) (fun _ tree => P tree ∧ True) P :=
    (h t).imp (fun _ => id) (fun _ _ ht => ⟨ht, trivial⟩) fun _ => id
  exact (ensures_mapTasks (S := fun _ _ => True) htask).imp (fun _ => id) (fun _ _ h => h.1)
    fun _ => id

/-- A build after its template has been read. -/
def buildWith (o : BuildOptions) (template : Template) (system : List (String × ValueType × Int)) :
    Work Unit := do
  let sources ← findSources o
  let (globals, globalTypes) ← readGlobals o sources.globals []
  let folders ← readFolders o globalTypes sources.folders
  let scripts ← runTasks o.parallel ((compileTasks sources folders).map
    (compileTask o (vocabularyOf o template system globalTypes)))
  let linked ← ofResult (link o.sourceRoot template.variableTable.entries globals folders
    (sources.scripts.zip scripts))
  let packed ← runTasks o.parallel (linked.tasks.map (linkTask ⟨o.workRoot, o.key, o.compress⟩))
  let tables ← ofResult (tableEntries o template linked)
  finish o (packed ++ tables)

omit hP in
/-- The build in two parts. -/
theorem build_eq (o : BuildOptions) : build o = (do
    let template ← readTemplate o
    let system ← ofResult (systemNames template.variableTable.entries)
    buildWith o template system) := rfl

theorem ensures_buildWith {template : Template} {system : List (String × ValueType × Int)}
    (hcompile : ∀ globalTypes t,
      Ensures P (compileTask o (vocabularyOf o template system globalTypes) t) (fun _ => P) P) :
    Ensures P (buildWith o template system) (fun _ => P) P := by
  refine ensures_bind (keepsTree_findSources o P) fun sources => ?_
  refine ensures_bind (keepsTree_readGlobals o _ _ P) fun globals => ?_
  refine ensures_bind (keepsTree_readFolders o _ _ P) fun folders => ?_
  refine ensures_bind (ensures_tasks (hcompile globals.2)) fun scripts => ?_
  refine ensures_bind (keepsTree_ofResult _ P) fun linked => ?_
  refine ensures_bind (ensures_tasks (ensures_linkTask hP _)) fun packed => ?_
  exact ensures_bind (keepsTree_ofResult _ P) fun tables => ensures_finish hP o _

/-- What holds before a build holds after it, if it does for each compilation. -/
theorem after_build {w : World CacheRecord} (hw : P w.tree)
    (hcompile : ∀ template w₁ system, readTemplate o w = .ok template w₁ →
      systemNames template.variableTable.entries = .ok system → ∀ globalTypes t,
        Ensures P (compileTask o (vocabularyOf o template system globalTypes) t) (fun _ => P) P) :
    P (after (build o) w).tree := by
  rw [build_eq]
  have hread := keepsTree_readTemplate o P w hw
  cases htemplate : readTemplate o w with
  | error f w₁ =>
    rw [after_bind_of_error htemplate]
    rw [htemplate] at hread
    exact hread
  | ok template w₁ =>
    rw [after_bind_of_ok htemplate]
    rw [htemplate] at hread
    cases hsystem : systemNames template.variableTable.entries with
    | error f =>
      have hfails : (ofResult (.error f) : Work (List (String × ValueType × Int))) w₁ =
        .error f w₁ := rfl
      rw [after_bind_of_error hfails]
      exact hread
    | ok system =>
      have hfound : (ofResult (.ok system) : Work (List (String × ValueType × Int))) w₁ =
        .ok system w₁ := rfl
      rw [after_bind_of_ok hfound]
      exact (ensures_buildWith hP (hcompile template w₁ system htemplate hsystem)).after hread

end

/-! ## Compile tasks -/

/-- The bytes that decide, for a source, whether the compiled script is used again. -/
def shownBytes (o : BuildOptions) (source : Bytes) (text : String) : Except Fault Bytes :=
  if o.output.substitutes then o.output.codec.encode text else .ok source

/-- What a compile task makes of a source if nothing is kept. -/
def compileBytes (o : BuildOptions) (vocabulary : Vocabulary) (t : CompileTask) (source : Bytes) :
    Except Fault CompiledScript := do
  let text ← o.sourceCodec.decode source
  let statements ← Source.parse text
  compileScript o.compiling { vocabulary with folders := t.folders } statements

/-- The fingerprint of a source that shows some bytes. -/
def printOf (vocabulary : Vocabulary) (t : CompileTask) (shown : Bytes) : Fingerprint :=
  ⟨vocabulary.globals, t.folders, shown⟩

/-- The path that the records of a script are kept at, but for their endings. -/
def workPath (o : BuildOptions) (t : CompileTask) : String :=
  join o.workRoot (relative o.sourceRoot t.file.path)

/-- The last part of a compile task, when there is no script that can be taken. -/
def compileAnew (o : BuildOptions) (vocabulary : Vocabulary) (t : CompileTask) (text work : String)
    (print : Fingerprint) : Work CompiledScript := do
  Session.say ("compile " ++ t.file.path)
  Session.makeFolder (parent work)
  let statements ← ofResult (Source.parse text)
  let script ← ofResult (noting ("file: " ++ t.file.path)
    (compileScript o.compiling { vocabulary with folders := t.folders } statements))
  Session.write (work ++ "com") (.record (.compiled script))
  Session.write (work ++ "hash") (.record (.fingerprint print))
  return script

/-- The second half of a compile task, when the source has been read. -/
def keepOrCompile (o : BuildOptions) (vocabulary : Vocabulary) (t : CompileTask)
    (text work : String)
    (print : Fingerprint) : Work CompiledScript := do
  match ← keptCompiled? o work print with
  | some script => return script
  | none => compileAnew o vocabulary t text work print

theorem compileTask_eq (o : BuildOptions) (vocabulary : Vocabulary) (t : CompileTask) :
    compileTask o vocabulary t = (do
      let source ← Session.readBytes t.file.path
      let text ← ofResult (o.sourceCodec.decode source)
      let shown ← ofResult (shownBytes o source text)
      keepOrCompile o vocabulary t text (workPath o t) (printOf vocabulary t shown)) := by
  unfold compileTask shownBytes
  cases o.output.substitutes <;> rfl

/-- A compiled script and the fingerprint beside it are kept at a path. -/
structure KeptPair (files : List (Place × File CacheRecord)) (work : String) (print : Fingerprint)
    (script : CompiledScript) : Prop where
  print : Holds files (place (work ++ "hash")) (.record (.fingerprint print))
  compiled : Holds files (place (work ++ "com")) (.record (.compiled script))

theorem ensures_keptCompiled? {P : Tree CacheRecord → Prop} (o : BuildOptions) (work : String)
    (print : Fingerprint) :
    Ensures P (keptCompiled? o work print)
      (fun kept tree => P tree ∧ (∃ content, Found tree (work ++ "hash") content) ∧
        ∀ script, kept = some script → o.recompiles = false ∧ KeptPair tree.files work print script)
      P := by
  refine ensures_bind (ensures_record? _) fun found => ?_
  split
  · next kept =>
    by_cases hsame : kept = print ∧ !o.recompiles
    · rw [if_pos hsame]
      obtain ⟨rfl, hkeeps⟩ := hsame
      refine ensures_bind ((ensures_record? _).imp (fun _ => id) (fun _ _ => id) fun _ h => h.1)
        fun found => ?_
      split
      · next script =>
        refine ensures_pure fun tree h => ⟨h.1.1, ⟨_, h.1.2⟩, fun script' heq => ?_⟩
        cases heq
        exact ⟨by simpa using hkeeps, h.1.2.holds, h.2.holds⟩
      · exact ensures_pure fun tree h => ⟨h.1.1, ⟨_, h.1.2⟩, nofun⟩
    · rw [if_neg hsame]
      exact ensures_pure fun tree h => ⟨h.1, ⟨_, h.2⟩, nofun⟩
  · exact ensures_pure fun tree h => ⟨h.1, ⟨_, h.2⟩, nofun⟩

/-- The tree after a script has been compiled and kept with its fingerprint. -/
def keepPair (tree : Tree CacheRecord) (work : String) (print : Fingerprint)
    (script : CompiledScript) (time time' : Int) : Tree CacheRecord :=
  (tree.put (place (work ++ "com")) ⟨.record (.compiled script), time⟩).put
    (place (work ++ "hash")) ⟨.record (.fingerprint print), time'⟩

/-- A tree in which a compiled script has just been kept with its fingerprint. -/
structure JustKept (tree : Tree CacheRecord) (work : String) (print : Fingerprint)
    (script : CompiledScript) (tree' : Tree CacheRecord) : Prop where
  com : tree.HasRoom (work ++ "com")
  kept : ∃ time time', tree' = keepPair tree work print script time time' ∧
    (tree.put (place (work ++ "com")) ⟨.record (.compiled script), time⟩).HasRoom
      (work ++ "hash")

/-- A tree in which a compiled script has just been kept, but not its fingerprint. -/
structure HalfKept (tree : Tree CacheRecord) (work : String) (script : CompiledScript) (time : Int)
    (tree' : Tree CacheRecord) : Prop where
  eq : tree' = tree.put (place (work ++ "com")) ⟨.record (.compiled script), time⟩
  located : tree.HasRoom (work ++ "com")
  unwritable : ∀ p found, tree'.locate (work ++ "hash") ≠ .ok (.ofFile? p found)
  lookedFor : ∃ earlier content, Found (earlier : Tree CacheRecord) (work ++ "hash") content

section

variable {P E : Tree CacheRecord → Prop} {Q : CompiledScript → Tree CacheRecord → Prop}
  {o : BuildOptions} {vocabulary : Vocabulary} {t : CompileTask}
variable (hfolder : ∀ tree way p, P tree → tree.locate way = .ok (.free p) → P (tree.addFolder p))
  (hfails : ∀ tree, P tree → E tree)

include hfolder hfails

section

variable {source : Bytes} {text work : String} {print : Fingerprint}
variable (htext : o.sourceCodec.decode source = .ok text)
  (hmade : ∀ tree tree' script, P tree → compileBytes o vocabulary t source = .ok script →
    JustKept tree work print script tree' → Q script tree')
  (hhalf : ∀ tree tree' script time, P tree → compileBytes o vocabulary t source = .ok script →
    HalfKept tree work script time tree' → E tree')

include htext hmade hhalf

/-- What is compiled anew is kept in two records. -/
theorem ensures_compileAnew {content : Option (Content CacheRecord)} {earlier : Tree CacheRecord}
    (hlooked : Found earlier (work ++ "hash") content) :
    Ensures P (compileAnew o vocabulary t text work print) Q E := by
  refine ensures_bind ((keepsTree_say _ P).imp (fun _ => id) (fun _ _ => id) hfails) fun _ => ?_
  refine ensures_bind ((ensures_makeFolder _ hfolder).imp (fun _ => id) (fun _ _ => id) hfails)
    fun _ => ?_
  refine ensures_bind (Q := fun statements tree => P tree ∧ Source.parse text = .ok statements)
    (ensures_ofResult (fun statements tree hparse h => ⟨h, hparse⟩) hfails) fun statements => ?_
  refine ensures_bind (Q := fun script tree => P tree ∧
    compileBytes o vocabulary t source = .ok script) (ensures_ofResult (fun script tree hmake h =>
      ⟨h.1, ?_⟩) fun _ h => hfails _ h.1) fun script => ?_
  · rw [compileBytes, htext, ok_bind, h.2, ok_bind]
    exact noting_eq_ok.mp hmake
  refine ensures_bind (Q := fun _ tree' => ∃ tree time, P tree ∧
    compileBytes o vocabulary t source = .ok script ∧ tree.HasRoom (work ++ "com") ∧
    tree' = tree.put (place (work ++ "com")) ⟨.record (.compiled script), time⟩)
    (ensures_write (fun tree p found time h hlocate => ?_) fun _ h _ => hfails _ h.1) fun _ => ?_
  · cases Tree.place_of_locate hlocate
    exact ⟨tree, time, h.1, h.2, ⟨found, hlocate⟩, rfl⟩
  refine ensures_bind (Q := fun _ tree' => Q script tree') (ensures_write ?_ ?_) fun _ =>
    ensures_pure fun _ => id
  · rintro _ p found time' ⟨tree, time, h, hmake, hroom, rfl⟩ hlocate
    cases Tree.place_of_locate hlocate
    exact hmade tree _ script h hmake ⟨hroom, time, time', rfl, found, hlocate⟩
  · rintro _ ⟨tree, time, h, hmake, hroom, rfl⟩ hunwritable
    exact hhalf tree _ script time h hmake ⟨rfl, hroom, hunwritable, _, _, hlooked⟩

/-- What holds of kept scripts and of new ones holds of all. -/
theorem ensures_keepOrCompile
    (hkept : ∀ tree script, P tree → o.recompiles = false → KeptPair tree.files work print script →
      Q script tree) :
    Ensures P (keepOrCompile o vocabulary t text work print) Q E := by
  refine ensures_bind
    ((ensures_keptCompiled? o work print).imp (fun _ => id) (fun _ _ => id) hfails)
    fun kept => ?_
  cases kept with
  | some script =>
    refine ensures_pure fun tree h => ?_
    obtain ⟨hrecompiles, hpair⟩ := h.2.2 script rfl
    exact hkept tree script h.1 hrecompiles hpair
  | none =>
    rintro w ⟨hw, ⟨content, hfound⟩, -⟩
    exact ensures_compileAnew hfolder hfails htext hmade hhalf hfound w hw

end

/-- What a compile task does: it reads the source, and then either takes the script that is kept for
the fingerprint, or compiles the source and keeps the script and the fingerprint. It may fail when
only the first of the two is written. -/
theorem ensures_compileTask
    (hkept : ∀ tree source text shown script, P tree →
      ReadsAs tree.files (place t.file.path) source → o.sourceCodec.decode source = .ok text →
      shownBytes o source text = .ok shown → o.recompiles = false →
      KeptPair tree.files (workPath o t) (printOf vocabulary t shown) script → Q script tree)
    (hmade : ∀ tree tree' source text shown script, P tree →
      ReadsAs tree.files (place t.file.path) source → o.sourceCodec.decode source = .ok text →
      shownBytes o source text = .ok shown → compileBytes o vocabulary t source = .ok script →
      JustKept tree (workPath o t) (printOf vocabulary t shown) script tree' → Q script tree')
    (hhalf : ∀ tree tree' source script time, P tree →
      compileBytes o vocabulary t source = .ok script →
      HalfKept tree (workPath o t) script time tree' → E tree') :
    Ensures P (compileTask o vocabulary t) Q E := by
  rw [compileTask_eq]
  generalize workPath o t = work at *
  refine ensures_bind ((ensures_readBytes _).imp (fun _ => id) (fun _ _ => id) hfails)
    fun source => ?_
  refine ensures_bind (Q := fun text tree =>
    (P tree ∧ ReadsAs tree.files (place t.file.path) source) ∧
      o.sourceCodec.decode source = .ok text)
    (ensures_ofResult (fun text tree htext h => ⟨h, htext⟩) fun _ h => hfails _ h.1) fun text => ?_
  refine ensures_bind (Q := fun shown tree =>
    ((P tree ∧ ReadsAs tree.files (place t.file.path) source) ∧
      o.sourceCodec.decode source = .ok text) ∧ shownBytes o source text = .ok shown)
    (ensures_ofResult (fun shown tree hshown h => ⟨h, hshown⟩) fun _ h => hfails _ h.1.1)
    fun shown => ?_
  intro w hw
  obtain ⟨⟨htree, htext⟩, hshown⟩ := hw
  have hrest : Ensures (fun tree => P tree ∧ ReadsAs tree.files (place t.file.path) source)
      (keepOrCompile o vocabulary t text work (printOf vocabulary t shown)) Q E := by
    refine ensures_keepOrCompile ?_ (fun tree h => hfails tree h.1) htext
      (fun tree tree' script h => hmade tree tree' source text shown script h.1 h.2 htext hshown)
      (fun tree tree' script time h => hhalf tree tree' source script time h.1)
      (fun tree script h => hkept tree source text shown script h.1 h.2 htext hshown)
    -- A new folder leaves the files as they are.
    intro tree way p h hlocate
    exact ⟨hfolder tree way p h.1 hlocate, by rw [Tree.files_addFolder]; exact h.2⟩
  exact hrest w htree

end

/-! ## Worlds that builds leave -/

/-- No file of a tree is a record of a build. -/
def NoRecords (tree : Tree CacheRecord) : Prop := ∀ e ∈ tree.files, ∀ r, e.2.content ≠ .record r

/-- The worlds that builds come to: any number of allowed builds, which may have failed, and between
them any change of the files that makes no records and leaves a tree with a property. -/
inductive Reached (T : Tree CacheRecord → Prop)
    (Allowed : BuildOptions → World CacheRecord → Prop) :
    World CacheRecord → Prop
  | start {w : World CacheRecord} (htree : T w.tree) (h : NoRecords w.tree) : Reached T Allowed w
  | change {w w' : World CacheRecord} (h : Reached T Allowed w) (htree : T w'.tree)
      (hrecords : ∀ e ∈ w'.tree.files, ∀ r, e.2.content = .record r → e ∈ w.tree.files) :
      Reached T Allowed w'
  | build {w : World CacheRecord} (h : Reached T Allowed w) (o : BuildOptions)
      (hallowed : Allowed o w) : Reached T Allowed (Session.after (build o) w)

variable {T : Tree CacheRecord → Prop} {Allowed : BuildOptions → World CacheRecord → Prop}

/-- A script is one that the compiler makes. -/
def IsCompiled (script : CompiledScript) : Prop :=
  ∃ options vocabulary source, compileScript options vocabulary source = .ok script

/-- Every compiled script that is kept has been made by the compiler. -/
def KeepsCompiled (tree : Tree CacheRecord) : Prop :=
  ∀ e ∈ tree.files, ∀ script, e.2.content = .record (.compiled script) → IsCompiled script

theorem KeepsCompiled.put {tree : Tree CacheRecord} (h : KeepsCompiled tree) (p : Place)
    (f : File CacheRecord)
    (hf : ∀ script, f.content = .record (.compiled script) → IsCompiled script) :
    KeepsCompiled (tree.put p f) := by
  intro e he script hscript
  rcases mem_putFile he with he | rfl
  · exact h e he script hscript
  · exact hf script hscript

theorem unmoved_keepsCompiled : Unmoved KeepsCompiled where
  folder tree way p h _ e he := h e (by rwa [Tree.files_addFolder] at he)
  bytes _ _ p _ _ _ h _ := h.put p _ nofun
  packed _ _ p _ _ _ h _ := h.put p _ nofun

/-- A source that compiles gives a compiled script. -/
theorem isCompiled_of_compileBytes {vocabulary : Vocabulary} {t : CompileTask} {source : Bytes}
    {script : CompiledScript} (h : compileBytes o vocabulary t source = .ok script) :
    IsCompiled script := by
  obtain ⟨text, -, h⟩ := of_bind h
  obtain ⟨statements, -, h⟩ := of_bind h
  exact ⟨_, _, _, h⟩

/-- Every script that is kept was compiled. -/
theorem keepsCompiled_compileTask (o : BuildOptions) (vocabulary : Vocabulary) (t : CompileTask) :
    Ensures KeepsCompiled (compileTask o vocabulary t)
      (fun script tree => KeepsCompiled tree ∧ IsCompiled script) KeepsCompiled := by
  have hput {tree : Tree CacheRecord} (h : KeepsCompiled tree) {source : Bytes}
      {script : CompiledScript} (hmake : compileBytes o vocabulary t source = .ok script)
      (p : Place) (time : Int) :
      KeepsCompiled (tree.put p ⟨.record (.compiled script), time⟩) := by
    refine h.put p _ fun script' heq => ?_
    cases heq
    exact isCompiled_of_compileBytes hmake
  refine ensures_compileTask unmoved_keepsCompiled.folder (fun _ => id) ?_ ?_ ?_
  · intro tree source text shown script h _ _ _ _ hpair
    obtain ⟨f, hf, hcontent⟩ := hpair.compiled.exists_mem
    exact ⟨h, h _ hf script hcontent⟩
  · intro tree tree' source text shown script h _ _ _ hmake hjust
    obtain ⟨time, time', rfl, -⟩ := hjust.kept
    exact ⟨(hput h hmake _ time).put _ _ nofun, isCompiled_of_compileBytes hmake⟩
  · intro tree tree' source script time h hmake hhalf
    rw [hhalf.eq]
    exact hput h hmake _ time

/-- So it is in every world that builds have reached. -/
theorem Reached.keepsCompiled (h : Reached T Allowed w) : KeepsCompiled w.tree := by
  induction h with
  | start _ h => exact fun e he script hscript => absurd hscript (h e he _)
  | change _ _ hrecords ih =>
    exact fun e he script hscript => ih e (hrecords e he _ hscript) script hscript
  | build _ o _ ih =>
    refine after_build unmoved_keepsCompiled ih fun template w₁ system _ _ globalTypes t => ?_
    exact (keepsCompiled_compileTask o _ t).imp (fun _ => id) (fun _ _ h => h.1) fun _ => id

theorem Gathered.tree_atFolders (g : Gathered o w) : g.atFolders.tree = w.tree := by
  have h₁ := (keepsTree_readTemplate o (· = w.tree)).of_ok rfl g.template_eq
  have h₂ := (keepsTree_findSources o (· = w.tree)).of_ok h₁ g.sources_eq
  have h₃ := (keepsTree_readGlobals o _ _ (· = w.tree)).of_ok h₂ g.globals_eq
  exact (keepsTree_readFolders o _ _ (· = w.tree)).of_ok h₃ g.folders_eq

theorem Gathered.isCompiled (g : Gathered o w) (hw : Reached T Allowed w) :
    Forall₂ (fun _ script => IsCompiled script) g.sources.scripts g.scripts := by
  have hkept := hw.keepsCompiled
  rw [← g.tree_atFolders] at hkept
  have hscripts := ((ensures_mapTasks (keepsCompiled_compileTask o _)).of_ok hkept g.scripts_eq).2
  rwa [compileTasks, forall₂_map_left_iff] at hscripts

/-! ## Sources in order -/

theorem sortFiles_of_pairwise {codec : Codec} {files : List SourceFile} {key : SourceFile → Bytes}
    (hkey : ∀ f ∈ files, codec.encode (Text.lower f.path) = .ok (key f))
    (hsorted : files.Pairwise fun a b => key a ≤ key b) : sortFiles codec files = .ok files := by
  have hkeyed : files.mapM (fun f => do return (← codec.encode (Text.lower f.path), f)) =
      .ok (files.map fun f => (key f, f)) :=
    mapM_ok fun f hf => by rw [hkey f hf]; rfl
  rw [sortFiles, hkeyed, ok_bind, mergeSort_of_pairwise, map_map]
  · exact congrArg Except.ok (map_id files)
  · rw [pairwise_map]
    exact hsorted.imp decide_eq_true

/-- The sources among the files of folders. -/
def sourcesIn (folders : List (String × List String)) : Sources :=
  folders.foldl (fun s x => x.2.foldl (fun s name => s.add x.1 name) s) {}

/-- Sources in order are found in order. -/
theorem findSources_of_pairwise {p : Place} {below : List Place} {sources : Sources}
    (names : Place → List String) (key : SourceFile → Bytes)
    (hlocate : w.tree.locate o.sourceRoot = .ok (.folder p))
    (hbelow : w.tree.foldersBelow p = below)
    (hnames : ∀ q ∈ below,
      (w.tree.files.filterMap fun e => if e.1.dropLast == q then e.1.getLast? else none) = names q ∧
      (names q).Pairwise fun a b => decide (a ≤ b) = true)
    (hsources : sourcesIn (below.map fun q => (if q == p then o.sourceRoot else
      join o.sourceRoot ("/".intercalate (q.drop p.length)), names q)) = sources)
    (hsorted : ∀ files ∈ [sources.globals, sources.folders, sources.scripts],
      (∀ f ∈ files, o.output.codec.encode (Text.lower f.path) = .ok (key f)) ∧
      files.Pairwise fun a b => key a ≤ key b) :
    findSources o w = .ok sources w := by
  have hfiles : ∀ q ∈ below, w.tree.fileNames q = names q := by
    intro q hq
    obtain ⟨hfound, hpairwise⟩ := hnames q hq
    rw [← hfound] at hpairwise ⊢
    exact mergeSort_of_pairwise hpairwise
  -- The walk lists files in order, and what is in order stays as it is when sorted.
  have hwalk : walk o.sourceRoot w = .ok (below.map fun q => (if q == p then o.sourceRoot else
      join o.sourceRoot ("/".intercalate (q.drop p.length)), names q)) w := by
    refine runBind_eq_ok.mpr ⟨.folder p, w, locate_eq_ok.mpr ⟨hlocate, rfl⟩, ?_⟩
    refine runBind_eq_ok.mpr ⟨w, w, rfl, runPure_eq_ok.mpr ⟨?_, rfl⟩⟩
    rw [hbelow]
    exact map_congr_left fun q hq => by rw [hfiles q hq]
  have hsort : ∀ files ∈ [sources.globals, sources.folders, sources.scripts],
      (ofResult (sortFiles o.output.codec files) : Work _) w = .ok files w := fun files hmem =>
    ofResult_eq_ok.mpr ⟨sortFiles_of_pairwise (hsorted files hmem).1 (hsorted files hmem).2, rfl⟩
  refine runBind_eq_ok.mpr ⟨_, _, hwalk, ?_⟩
  show (do
    let globals ← ofResult (sortFiles o.output.codec (sourcesIn _).globals)
    let folderFiles ← ofResult (sortFiles o.output.codec (sourcesIn _).folders)
    let scripts ← ofResult (sortFiles o.output.codec (sourcesIn _).scripts)
    return ⟨globals, folderFiles, scripts⟩ : Work Sources) w = _
  rw [hsources, runBind_of_ok (hsort _ (by simp)), runBind_of_ok (hsort _ (by simp)),
    runBind_of_ok (hsort _ (by simp))]
  rfl

/-! ## A small project -/

deriving instance DecidableEq for Template, Linked

/-- The source of a script. -/
def sampleText : String := "LBL = 'top'\nS_INT[s.N] = 3\nINT[x.N] = s.N\n"

/-- A command table. -/
def sampleCommands : Bytes :=
  Bytes.ofAscii "YSCM" ++ Bytes.ofNat 4 480 ++ Bytes.ofNat 4 2 ++ Bytes.ofNat 4 0 ++
    Bytes.ofAscii "INT" ++ [0, 0] ++ Bytes.ofAscii "S_INT" ++ [0, 0] ++ replicate 293 0

/-- A template with two commands and a variable of the system, and a project of one script: it
defines a static variable and a temporary one. -/
def sampleFiles : List (Place × File CacheRecord) :=
  [(["t", "ysv.ybn"], ⟨.bytes (Bytes.ofAscii "YSVR" ++ Bytes.ofNat 4 480 ++ Bytes.ofNat 2 1 ++
      [1, 0, 0, 0, 0, 1, 0] ++ replicate 8 0), 0⟩),
    (["t", "ysc.ybn"], ⟨.bytes sampleCommands, 0⟩),
    (["t", "yse.ybn"], ⟨.bytes [], 0⟩),
    (["t", "yscfg.ybn"], ⟨.bytes [], 0⟩),
    (["src", "a.yuri"], ⟨.bytes (Bytes.ofAscii sampleText), 0⟩)]

/-- A template and a source. -/
def sampleWorld : World CacheRecord where
  tree := { folders := [["t"], ["src"], ["w"]], files := sampleFiles }

/-- Options of a plain build. -/
def sampleOptions : BuildOptions where
  key := 0
  version := 480
  sourceRoot := "src"
  workRoot := "w"
  templateRoot := "t"
  archivePath := "out"
  output := ⟨Codec.utf8, false⟩
  compress := id

/-- What is read of the template. -/
def sampleTemplate : Template where
  variableTable := ⟨480, [⟨.global, .system, 0, 0, [], some (.int 0)⟩]⟩
  commands := ⟨480, [⟨"INT", []⟩, ⟨"S_INT", []⟩], replicate 37 "", replicate 256 0⟩
  commandBytes := sampleCommands
  errorBytes := []
  settingBytes := []

theorem readTemplate_sample :
    readTemplate sampleOptions sampleWorld = .ok sampleTemplate sampleWorld := by
  decide +kernel

/-- What is found of sources. -/
def sampleSources : Sources := ⟨[], [], [⟨"src", "src/a.yuri"⟩]⟩

theorem findSources_sample :
    findSources sampleOptions sampleWorld = .ok sampleSources sampleWorld := by
  -- Sorting cannot be evaluated, but what is sorted stands in order.
  have hnone : (sampleWorld.tree.folders.filter fun q => ["src"].isPrefixOf q && q != ["src"]) =
    [] := by decide +kernel
  have hbelow : sampleWorld.tree.foldersBelow ["src"] = [["src"]] := by
    rw [Tree.foldersBelow, hnone, mergeSort_nil]
  exact findSources_of_pairwise (fun _ => ["a.yuri"]) (fun f => Bytes.ofAscii f.path) rfl hbelow
    (by decide +kernel) rfl (by decide +kernel)

/-- What the script is compiled with. -/
def sampleVocabulary : Vocabulary :=
  vocabularyOf sampleOptions sampleTemplate [("__Sys0", .int, 0)] []

/-- Its statements. -/
def sampleStatements : List Stmt :=
  [.assign 1 [.name "LBL"] (.text (.ofString "top")),
    .assign 2 [.subscript (.name "S_INT") (.attribute (.name "s") "N")] (.int 3),
    .assign 3 [.subscript (.name "INT") (.attribute (.name "x") "N")] (.attribute (.name "s") "N")]

/-- The compiled script. -/
def sampleScript (version : Int) : CompiledScript :=
  (compileScript { version, codec := Codec.utf8 } sampleVocabulary sampleStatements).toOption.getD
    default

/-- Its task. -/
def sampleTask : CompileTask := ⟨⟨"src", "src/a.yuri"⟩, []⟩

/-- The world once it is kept. -/
def sampleCompiled : World CacheRecord where
  tree := keepPair sampleWorld.tree "w/a.yuri" ⟨[], [], Bytes.ofAscii sampleText⟩ (sampleScript 480)
    0 0
  log := ["compile src/a.yuri"]

/-- What linking makes of it. -/
def sampleLinked : Linked :=
  (link "src" sampleTemplate.variableTable.entries [] []
    [(sampleTask.file, sampleScript 480)]).toOption.getD default

/-- To pack it. -/
def samplePack : Work (List Archive.Entry) :=
  runTasks false (sampleLinked.tasks.map (linkTask ⟨"w", 0, id⟩))

/-- The packed script. -/
def samplePacked : List Archive.Entry := (result? samplePack sampleCompiled).getD []

deriving instance DecidableEq for LabelTable.Hashed

/-- The label with its hash. -/
def sampleHashed : LabelTable.Hashed where
  nameBytes := Bytes.ofAscii "top"
  hash := Hash.written (Checksum.ofNames 480).value (Bytes.ofAscii "top")
  label := ⟨.ofString "top", 0, 0, 0, 0, 0⟩

/-- The label table. -/
def sampleLabels : Bytes :=
  Bytes.ofAscii "YSLB" ++ Bytes.ofNat 4 480 ++ Bytes.ofNat 4 1 ++
    (LabelTable.index [sampleHashed.hash]).flatMap (Bytes.ofNat 4) ++
    (LabelTable.putLabel sampleHashed).toOption.getD []

/-- The tables. -/
def sampleTables : List Archive.Entry :=
  let scripts := (ScriptList.write Codec.utf8 none none ⟨480, sampleLinked.entries⟩).toOption
  let totals := (Totals.write none ⟨480, 3, 0⟩).toOption
  let known := (VariableTable.write Codec.utf8 none none ⟨480, sampleLinked.known⟩).toOption
  [tableEntry "ysc.ybn" sampleCommands, tableEntry "yscfg.ybn" [], tableEntry "yse.ybn" [],
    tableEntry "ysl.ybn" sampleLabels,
    tableEntry "yst_list.ybn" (scripts.getD []), tableEntry "yst.ybn" (totals.getD []),
    tableEntry "ysv.ybn" (known.getD [])]

theorem write_sampleLabels :
    LabelTable.write Codec.utf8 480 none none [sampleHashed.label] = .ok sampleLabels := by
  have hhashed : LabelTable.hashed Codec.utf8 (Checksum.ofNames 480).value sampleHashed.label =
      .ok sampleHashed := by decide +kernel
  have hentries : [sampleHashed.label].mapM
      (LabelTable.hashed Codec.utf8 (Checksum.ofNames 480).value) = .ok [sampleHashed] := by
    rw [mapM_cons, hhashed]
    rfl
  rw [LabelTable.write]
  refine bind_eq_ok.mpr ⟨(), rfl, bind_eq_ok.mpr ⟨_, hentries, ?_⟩⟩
  rw [mergeSort_singleton]
  decide +kernel

theorem tableEntries_sample :
    tableEntries sampleOptions sampleTemplate sampleLinked = .ok sampleTables := by
  have hlabels : sampleLinked.labels = [sampleHashed.label] := by decide +kernel
  refine bind_eq_ok.mpr ⟨_, hlabels ▸ write_sampleLabels, ?_⟩
  decide +kernel

/-- To write everything. -/
def sampleFinish : Work Unit := finish sampleOptions (samplePacked ++ sampleTables)

/-- The world after the build. -/
def sampleBuilt : World CacheRecord := after sampleFinish (after samplePack sampleCompiled)

theorem scripts_sample : runTasks false ((compileTasks sampleSources []).map
    (compileTask sampleOptions sampleVocabulary)) sampleWorld =
      .ok [sampleScript 480] sampleCompiled := by
  have htasks : compileTasks sampleSources [] = [sampleTask] := by decide +kernel
  have hscript : compileTask sampleOptions sampleVocabulary sampleTask sampleWorld =
      .ok (sampleScript 480) sampleCompiled := by decide +kernel
  rw [htasks]
  exact runBind_eq_ok.mpr ⟨_, _, hscript, rfl⟩

/-- The build step by step. -/
def sampleRecord : Built sampleOptions sampleWorld sampleBuilt where
  template := sampleTemplate
  system := [("__Sys0", .int, 0)]
  sources := sampleSources
  globals := []
  globalTypes := []
  folders := []
  scripts := [sampleScript 480]
  atTemplate := sampleWorld
  atSources := sampleWorld
  atGlobals := sampleWorld
  atFolders := sampleWorld
  atScripts := sampleCompiled
  template_eq := readTemplate_sample
  system_eq := by decide +kernel
  sources_eq := findSources_sample
  globals_eq := rfl
  folders_eq := rfl
  scripts_eq := scripts_sample
  linked := sampleLinked
  packed := samplePacked
  tables := sampleTables
  atPacked := after samplePack sampleCompiled
  linked_eq := by decide +kernel
  packed_eq := eq_ok_of_result? (by decide +kernel)
  tables_eq := tableEntries_sample
  finish_eq := eq_ok_of_result? (by decide +kernel)

theorem build_sample : build sampleOptions sampleWorld = .ok () sampleBuilt := sampleRecord.build_eq

theorem sampleWorld_noRecords : NoRecords sampleWorld.tree := by
  intro e he r
  have hbytes : ∀ e ∈ sampleFiles, ∃ data, e.2.content = .bytes data := by
    simp [sampleFiles]
  obtain ⟨data, hdata⟩ := hbytes e he
  rw [hdata]
  nofun

theorem reached_sampleWorld : Reached Tree.Sane Allowed sampleWorld := by
  refine .start ?_ sampleWorld_noRecords
  unfold Tree.Sane
  decide +kernel

end NovelScript.Project
