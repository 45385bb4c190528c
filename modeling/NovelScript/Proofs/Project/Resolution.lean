import NovelScript.Proofs.Decompile.Variables
import NovelScript.Proofs.Link.Relocation
import NovelScript.Proofs.Project.CompiledReuse
import NovelScript.Proofs.Project.Totals

/-!
# What a name of another file stands for

A name that a script uses without defining it is looked up twice. The compiler looks for its type,
among the types of all declarations that the script can see; the linker looks for its number, among
the numbers that these declarations have got. The two look into different dictionaries, but these
are made in the same way from the same declarations: they have the same names in the same order, and
what they say about a name belongs to one declaration (`Aligned`). This is kept by every step that
makes a dictionary of others, so the two answers are for one variable
(`declaredType?_of_outerNumber`).

A script may have been compiled by an earlier build. It is used again only for the same names and
types, so what it was compiled with is also what the linker goes by, and the number of this variable
is what is written wherever the script names it (`resolution_agrees`).
-/

namespace NovelScript.Project

open List Session

variable {known final known' : List Variable} {v : Variable} {scope : Scope}
  {declared : List Declared} {types : List (String × ValueType)} {folders : List FolderDeclarations}
  {script first n : Nat} {name : String} {globals : List (String × Nat)} {s s' : LinkState}
  {files : List SourceFile} {vocabulary : Vocabulary}

/-! ## Dictionaries with the same names -/

section

variable {α β : Type} {R : String → α → β → Prop} {xs others : List (String × α)}
  {ys others' : List (String × β)}

/-- Two dictionaries have the same names in the same order, and the values of each name are
related. -/
def Aligned (R : String → α → β → Prop) (xs : List (String × α)) (ys : List (String × β)) : Prop :=
  Forall₂ (fun x y => x.1 = y.1 ∧ R x.1 x.2 y.2) xs ys

section

variable (h : Aligned R xs ys)
include h

theorem Aligned.imp {S : String → α → β → Prop}
    (hrel : ∀ name a b, R name a b → S name a b) : Aligned S xs ys :=
  Forall₂.imp (fun _ _ hxy => ⟨hxy.1, hrel _ _ _ hxy.2⟩) h

/-- Aligned lists find related values. -/
theorem Aligned.lookup (name : String) :
    (xs.lookup name = none ∧ ys.lookup name = none) ∨
      ∃ a b, xs.lookup name = some a ∧ ys.lookup name = some b ∧ R name a b := by
  induction h with
  | nil => exact .inl ⟨rfl, rfl⟩
  | @cons x y xs ys hxy _ ih =>
    obtain ⟨x, a⟩ := x
    obtain ⟨y, b⟩ := y
    obtain ⟨rfl, hab⟩ := hxy
    rw [lookup_cons, lookup_cons]
    cases hx : name == x with
    | true =>
      cases eq_of_beq hx
      exact .inr ⟨a, b, rfl, rfl, hab⟩
    | false => exact ih

theorem Aligned.setEntry {name : String} {a : α} {b : β} (hab : R name a b) :
    Aligned R (setEntry xs name a) (setEntry ys name b) := by
  have hany : (xs.any fun x => x.1 == name) = ys.any fun y => y.1 == name := by
    induction h with
    | nil => rfl
    | cons hxy _ ih => rw [any_cons, any_cons, hxy.1, ih]
  unfold Project.setEntry
  change Aligned R (if xs.any fun x => x.1 == name then _ else _) _
  rw [hany]
  split
  · refine forall₂_map_left_iff.mpr (forall₂_map_right_iff.mpr (Forall₂.imp ?_ h))
    rintro ⟨x, a'⟩ ⟨y, b'⟩ ⟨rfl, hab'⟩
    dsimp only
    split
    · next hx => exact ⟨rfl, eq_of_beq hx ▸ hab⟩
    · exact ⟨rfl, hab'⟩
  · exact rel_append h (.cons ⟨rfl, hab⟩ .nil)

/-- Aligned entries are set alike. -/
theorem Aligned.setEntries (hothers : Aligned R others others') :
    Aligned R (setEntries xs others) (setEntries ys others') := by
  induction hothers generalizing xs ys with
  | nil => exact h
  | @cons x y others others' hxy _ ih =>
    obtain ⟨x, a⟩ := x
    obtain ⟨y, b⟩ := y
    obtain ⟨rfl, hab⟩ := hxy
    exact ih (h.setEntry hab)

end

theorem setEntries_append (xs others more : List (String × α)) :
    setEntries xs (others ++ more) = setEntries (setEntries xs others) more := by
  unfold setEntries
  rw [foldl_append]

theorem Aligned.foldl {fs : List String} {step : List (String × α) → String → List (String × α)}
    {step' : List (String × β) → String → List (String × β)}
    (hstep : ∀ f ∈ fs, ∀ xs ys, Aligned R xs ys → Aligned R (step xs f) (step' ys f))
    (h : Aligned R xs ys) : Aligned R (fs.foldl step xs) (fs.foldl step' ys) := by
  induction fs generalizing xs ys with
  | nil => exact h
  | cons f fs ih =>
    obtain ⟨hf, hfs⟩ := forall_mem_cons.mp hstep
    exact ih hfs (hf xs ys h)

/-- What is visible is aligned. -/
theorem Aligned.visible {S : String → String → α → β → Prop}
    {lists : List (String × List (String × α))} {lists' : List (String × List (String × β))}
    (h : Aligned (fun folder => Aligned (S folder)) lists lists') (folder : String) :
    Aligned (fun name a b => ∃ f ∈ foldersAround folder, S f name a b) (visible lists folder)
      (visible lists' folder) := by
  have hreversed : Aligned (fun folder => Aligned (S folder)) lists.reverse lists'.reverse :=
    forall₂_reverse_iff.mpr h
  unfold Project.visible
  refine Aligned.foldl (fun f hf seen seen' hseen => ?_) .nil
  rcases hreversed.lookup f with ⟨hnone, hnone'⟩ | ⟨entries, entries', hsome, hsome', hentries⟩
  · rw [hnone, hnone']
    exact hseen
  · rw [hsome, hsome']
    exact hseen.setEntries (hentries.imp fun name a b hab => ⟨f, hf, hab⟩)

end

/-! ## Types and numbers of declarations -/

/-- A variable that is made for a declaration of a name, at the position of its number, which is not
below another one. -/
def HasNumber (first : Nat) (scope : Scope) (declared : List Declared) (known : List Variable)
    (name : String) (type : ValueType) (n : Nat) : Prop :=
  first ≤ n ∧ ∃ d ∈ declared, d.name = name ∧ d.value.type = type ∧
    ∃ v, known[n]? = some v ∧ variableOf scope 0 n d = .ok v

/-- The names and types of declarations, in their order. -/
def typePairs (declared : List Declared) : List (String × ValueType) :=
  declared.map fun d => (d.name, d.value.type)

theorem getElem?_of_append_prefix (h : known ++ [v] <+: final) : final[known.length]? = some v := by
  obtain ⟨rest, rfl⟩ := h
  rw [append_assoc, getElem?_append_right (Nat.le_refl _), Nat.sub_self]
  rfl

theorem Adds.isPrefix {γ : Type} {T : γ → Variable → Prop} {declared : List γ}
    (h : Adds T known declared known') : known <+: known' := by
  obtain ⟨added, rfl, -⟩ := h.added
  exact prefix_append _ _

theorem aligned_number {all : List Declared} {numbers numbers' : List (String × Nat)}
    (h : number scope known declared numbers = .ok (known', numbers'))
    (hfirst : first ≤ known.length) (hfinal : known' <+: final) (hall : ∀ d ∈ declared, d ∈ all)
    (haligned : Aligned (HasNumber first scope all final) types numbers) :
    Aligned (HasNumber first scope all final) (setEntries types (typePairs declared)) numbers' := by
  induction declared generalizing known types numbers with
  | nil =>
    cases h
    exact haligned
  | cons d rest ih =>
    obtain ⟨v, hv, h⟩ := of_bind h
    have hlength : first ≤ (known ++ [v]).length := by
      rw [length_append]
      exact Nat.le_add_right_of_le hfirst
    refine ih h hlength (fun d' hd' => hall d' (mem_cons_of_mem _ hd')) (haligned.setEntry ?_)
    have hstays : known ++ [v] <+: final := (adds_of_number h).isPrefix.trans hfinal
    exact ⟨hfirst, d, hall d mem_cons_self, rfl, rfl, v, getElem?_of_append_prefix hstays, hv⟩

/-- A variable that is made for a declaration of a name in a folder. -/
def HasFolderNumber (first : Nat) (folders : List FolderDeclarations) (known : List Variable)
    (folder name : String) (type : ValueType) (n : Nat) : Prop :=
  ∃ f ∈ folders, f.folder = folder ∧ HasNumber first .folder f.declared known name type n

/-- Numbers of folders are aligned with their types. -/
theorem aligned_numberFolders {all : List FolderDeclarations}
    {types : List (String × List (String × ValueType))}
    {numbers numbers' : List (String × List (String × Nat))}
    (h : numberFolders known folders numbers = .ok (known', numbers'))
    (hfirst : first ≤ known.length) (hfinal : known' <+: final) (hall : ∀ f ∈ folders, f ∈ all)
    (haligned :
      Aligned (fun folder => Aligned (HasFolderNumber first all final folder)) types numbers) :
    Aligned (fun folder => Aligned (HasFolderNumber first all final folder))
      (types ++ folders.map fun f => (f.folder, typesOf f.declared)) numbers' := by
  induction folders generalizing known types numbers with
  | nil =>
    cases h
    rwa [map_nil, append_nil]
  | cons f rest ih =>
    obtain ⟨⟨known₁, own⟩, hown, h⟩ := of_bind h
    have hstays : known₁ <+: final := (adds_of_numberFolders h).isPrefix.trans hfinal
    have hdeclared : Aligned (HasNumber first .folder f.declared final) (typesOf f.declared) own :=
      aligned_number hown hfirst hstays (fun _ => id) .nil
    have hfolder : Aligned (HasFolderNumber first all final f.folder) (typesOf f.declared) own :=
      hdeclared.imp fun _ _ _ hn => ⟨f, hall f mem_cons_self, rfl, hn⟩
    have hlength := (adds_of_number hown).length
    rw [map_cons, append_cons]
    exact ih h (by omega) (forall_mem_cons.mp hall).2
      (rel_append haligned (.cons ⟨rfl, hfolder⟩ .nil))

/-! ## Both look-ups -/

/-- A variable that a script in a folder can use by a name: it is made for a declaration of the
whole game, or of a folder around the script. -/
inductive IsDeclaredAs (globals : List Declared) (folders : List FolderDeclarations)
    (folder name : String) (v : Variable) : Prop
  | global {d : Declared} (hd : d ∈ globals) (hname : d.name = name) (hscope : v.scope = .global)
      (h : IsVariableOf .global 0 d v)
  | folder {f : FolderDeclarations} {d : Declared} (hf : f ∈ folders)
      (haround : f.folder ∈ foldersAround folder) (hd : d ∈ f.declared) (hname : d.name = name)
      (hscope : v.scope = .folder) (h : IsVariableOf .folder 0 d v)

theorem type_of_variableOf {d : Declared} (h : variableOf scope script n d = .ok v) :
    v.scope = scope ∧ v.type = d.value.type := by
  obtain ⟨init, hinit, h⟩ := of_bind h
  cases h
  exact ⟨rfl, type_of_initialOf hinit⟩

theorem declaredType_ne_unknown (value : DeclaredValue) : value.type ≠ .unknown := by
  cases value <;> exact nofun

/-- A name that is linked has the type that it was compiled with. -/
theorem declaredType?_of_outerNumber {globals : List Declared} {folder : String}
    {folderNumbers globalNumbers : List (String × Nat)}
    (hglobals : Aligned (HasNumber first .global globals final) vocabulary.globals globalNumbers)
    (hfolders : Aligned (fun name type n => ∃ f ∈ foldersAround folder,
      HasFolderNumber first folders final f name type n) vocabulary.folders folderNumbers)
    (hnew : ∀ f ∈ folders, ∀ d ∈ f.declared, vocabulary.globals.lookup d.name = none)
    (h : outerNumber folderNumbers globalNumbers name = .ok n) :
    ∃ v, final[n]? = some v ∧ v.number = n ∧
      vocabulary.declaredType? name = some v.type ∧ IsDeclaredAs globals folders folder name v := by
  unfold outerNumber at h
  unfold Vocabulary.declaredType?
  rcases hfolders.lookup name with ⟨hnone, hnone'⟩ | ⟨type, m, htype, hm, f, haround, hnumber⟩
  · -- no folder declares the name, so both look among the global variables
    rw [hnone', orFault_eq_ok] at h
    rw [hnone]
    rcases hglobals.lookup name with
      ⟨-, hnone'⟩ | ⟨type, m, htype, hm, -, d, hd, rfl, rfl, v, hv, hmade⟩
    · rw [hnone'] at h
      cases h
    · rw [hm, Option.some_inj] at h
      subst h
      obtain ⟨hscope, hvtype⟩ := type_of_variableOf hmade
      exact ⟨v, hv, number_of_variableOf hmade, by rw [htype, hvtype],
        .global hd rfl hscope ⟨_, hmade⟩⟩
  · obtain ⟨g, hg, rfl, -, d, hd, rfl, rfl, v, hv, hmade⟩ := hnumber
    rw [htype]
    cases m with
    | succ m =>
      rw [hm] at h
      cases h
      obtain ⟨hscope, hvtype⟩ := type_of_variableOf hmade
      refine ⟨v, hv, number_of_variableOf hmade, ?_, .folder hg haround hd rfl hscope ⟨_, hmade⟩⟩
      split
      · next heq => exact absurd (Option.some.inj heq) (declaredType_ne_unknown _)
      · next heq => cases heq
      · next heq => rw [← heq, hvtype]
    | zero =>
      -- the number zero is not found, and no global variable has the name
      rw [hm, orFault_eq_ok] at h
      rcases hglobals.lookup d.name with ⟨-, hnone⟩ | ⟨_, _, hsome, -⟩
      · rw [hnone] at h
        cases h
      · rw [hnew g hg d hd] at hsome
        cases hsome

/-! ## Linking -/

/-- The linker has found the numbers of all names that symbols refer to. -/
def FindsNames (folders globals : List (String × Nat)) (symbols : List SymbolUse)
    (links : List Link) : Prop :=
  Forall₂ (fun u l => ∀ name, u.symbol = .reference name →
    outerNumber folders globals name = .ok l.number) symbols links

theorem findsNames_of_linkSymbols {folders : List (String × Nat)} {symbols : List SymbolUse}
    {links : List Link} (h : linkSymbols script folders globals s symbols = .ok (links, s')) :
    FindsNames folders globals symbols links := by
  induction symbols generalizing s links with
  | nil =>
    cases h
    exact .nil
  | cons u rest ih =>
    obtain ⟨⟨link, s₁⟩, hlink, h⟩ := of_bind h
    obtain ⟨⟨others, s₂⟩, hothers, h⟩ := of_bind h
    cases h
    refine .cons (fun name hname => ?_) (ih hothers)
    rw [linkSymbol, hname] at hlink
    obtain ⟨n, hn, hlink⟩ := of_bind hlink
    cases hlink
    exact hn

/-- Scripts find their names by their folders. -/
theorem findsNames_of_linkScripts {root : String} {folders : List (String × List (String × Nat))}
    {scripts : List ((SourceFile × CompiledScript) × Nat)} {tasks : List LinkTask}
    (h : linkScripts root folders globals s scripts = .ok (tasks, s')) :
    Forall₂ (fun x t => FindsNames (visible folders x.1.1.folder) globals x.1.2.symbols t.links)
      scripts tasks := by
  induction scripts generalizing s tasks with
  | nil =>
    cases h
    exact .nil
  | cons x rest ih =>
    obtain ⟨⟨file, script⟩, n⟩ := x
    obtain ⟨⟨links, s₁⟩, hlinks, h⟩ := of_bind h
    obtain ⟨⟨others, s₂⟩, hothers, h⟩ := of_bind h
    cases h
    exact .cons (findsNames_of_linkSymbols hlinks) (ih hothers)

/-! ## Declarations of a build -/

variable {o : BuildOptions} {w w' : World CacheRecord} (b : Built o w w')
  {Allowed : BuildOptions → World CacheRecord → Prop}

/-- The types of globals are those that are declared. -/
theorem readGlobals_eq_ok {types' : List (String × ValueType)}
    (h : readGlobals o files types w = .ok (declared, types') w') :
    types' = setEntries types (typePairs declared) := by
  induction files generalizing types declared w with
  | nil =>
    cases h
    rfl
  | cons f rest ih =>
    obtain ⟨own, w₁, -, h₁⟩ := of_runBind h
    obtain ⟨_, w₂, -, h₂⟩ := of_runBind h₁
    obtain ⟨⟨others, types₁⟩, w₃, hothers, h₃⟩ := of_runBind h₂
    cases h₃
    rw [ih hothers]
    unfold typePairs
    rw [map_append, setEntries_append]

theorem lookup_of_requireNew {taken : List (String × ValueType)} {violation : String → Violation}
    (h : requireNew taken violation declared = .ok ()) :
    ∀ d ∈ declared, taken.lookup d.name = none := by
  induction declared with
  | nil => exact fun d hd => absurd hd not_mem_nil
  | cons first rest ih =>
    obtain ⟨_, hfirst, hrest⟩ := of_bind h
    rw [require_eq_ok, Option.isNone_iff_eq_none] at hfirst
    intro d hd
    rcases mem_cons.mp hd with rfl | hd
    · exact hfirst
    · exact ih hrest d hd

theorem declared_of_readFolders (h : readFolders o types files w = .ok folders w') :
    ∀ f ∈ folders, (∃ path w₁ w₂, readDeclarations o .folder path w₁ = .ok f.declared w₂) ∧
      ∀ d ∈ f.declared, types.lookup d.name = none := by
  unfold readFolders at h
  induction files generalizing folders w with
  | nil =>
    cases h
    exact fun f hf => absurd hf not_mem_nil
  | cons file rest ih =>
    rw [mapM_cons] at h
    obtain ⟨first, w₁, hfirst, h₁⟩ := of_runBind h
    obtain ⟨others, w₂, hothers, h₂⟩ := of_runBind h₁
    cases h₂
    obtain ⟨declared, w₃, hdeclared, hfirst₁⟩ := of_runBind hfirst
    obtain ⟨_, w₄, hnew, hfirst₂⟩ := of_runBind hfirst₁
    cases hfirst₂
    intro f hf
    rcases mem_cons.mp hf with rfl | hf
    · exact ⟨⟨_, _, _, hdeclared⟩, lookup_of_requireNew (ofResult_eq_ok.mp hnew).1⟩
    · exact ih hothers f hf

/-- The names that are declared outside of a script in a folder, without commands. -/
def outerNames (globalTypes : List (String × ValueType)) (folders : List FolderDeclarations)
    (folder : String) : Vocabulary :=
  { commands := [], globals := globalTypes, folders := seenTypes folders folder }

/-- A number is that of a variable which is declared by a name and can be seen from a folder, of the
type that the compiler finds. -/
def Built.Declares (b : Built o w w') (folder name : String) (n : Nat) : Prop :=
  ∃ v, b.linked.known[n]? = some v ∧ v.number = n ∧
    (outerNames b.globalTypes b.folders folder).declaredType? name = some v.type ∧
    IsDeclaredAs b.globals b.folders folder name v

/-- The dictionaries of numbers that the scripts of a build are linked by. -/
structure Built.Numbers (b : Built o w w') (first : Nat) (globalNumbers : List (String × Nat))
    (folderNumbers : List (String × List (String × Nat))) : Prop where
  globals : Aligned (HasNumber first .global b.globals b.linked.known) b.globalTypes globalNumbers
  folders : Aligned (fun folder => Aligned (HasFolderNumber first b.folders b.linked.known folder))
    (b.folders.map fun f => (f.folder, typesOf f.declared)) folderNumbers
  found : Forall₂ (fun (x : SourceFile × CompiledScript) (t : LinkTask) =>
    FindsNames (visible folderNumbers x.1.folder) globalNumbers x.2.symbols t.links)
    b.sourced b.linked.tasks

/-- A build numbers its globals and folders. -/
theorem Built.exists_numbers : ∃ globalNumbers folderNumbers,
    b.Numbers b.template.variableTable.entries.length globalNumbers folderNumbers := by
  obtain ⟨known₁, known₂, globalNumbers, folderNumbers, tasks, s, hglobals, hfolders, hscripts,
    hlinked⟩ := linkScripts_of_link b.linked_eq
  have hfinal : known₂ <+: b.linked.known := by
    rw [hlinked]
    exact (linksAll_of_linkScripts hscripts).known.isPrefix
  have hstart : b.template.variableTable.entries.length ≤ known₁.length := by
    rw [(adds_of_number hglobals).length]
    exact Nat.le_add_right _ _
  refine ⟨globalNumbers, folderNumbers, ?_, ?_, ?_⟩
  · rw [readGlobals_eq_ok b.globals_eq]
    exact aligned_number hglobals (Nat.le_refl _)
      ((adds_of_numberFolders hfolders).isPrefix.trans hfinal) (fun _ => id) .nil
  · exact aligned_numberFolders hfolders hstart hfinal (fun _ => id) .nil
  · rw [hlinked, ← zipIdx_map_fst 0 b.sourced, forall₂_map_left_iff, zipIdx_map_fst]
    exact findsNames_of_linkScripts hscripts

/-- In a build that succeeds, the linker finds for a name only a variable of the type that the
compiler finds. -/
theorem Built.declaredType?_of_reference :
    Forall₂ (fun (x : SourceFile × CompiledScript) (t : LinkTask) =>
      Forall₂ (fun u l => ∀ name, u.symbol = .reference name →
        b.Declares x.1.folder name l.number) x.2.symbols t.links) b.sourced b.linked.tasks := by
  obtain ⟨globalNumbers, folderNumbers, h⟩ := b.exists_numbers
  have hnew := fun f hf => (declared_of_readFolders b.folders_eq f hf).2
  refine h.found.imp fun x t hx => hx.imp fun u l hu name hname => ?_
  exact declaredType?_of_outerNumber h.globals (h.folders.visible x.1.folder) hnew (hu name hname)

/-! ## What is written -/

theorem segments_of_linkTask {options : LinkOptions} {t : LinkTask} {entry : Archive.Entry}
    (h : linkTask options t w = .ok entry w') :
    ∃ segments, changeExpressions (writeLinks · t.links) t.segments = .ok segments := by
  obtain ⟨segments, _, hsegments, -⟩ := of_runBind h
  exact ⟨segments, (ofResult_eq_ok.mp hsegments).1⟩

/-- A build that succeeds has written the numbers of all its scripts. -/
theorem Built.exists_segments : ∀ t ∈ b.linked.tasks,
    ∃ segments, changeExpressions (writeLinks · t.links) t.segments = .ok segments := by
  have hensures (t : LinkTask) :
      Ensures (fun _ => True) (linkTask ⟨o.workRoot, o.key, o.compress⟩ t)
      (fun _ _ => True ∧
        ∃ segments, changeExpressions (writeLinks · t.links) t.segments = .ok segments)
      fun _ => True := by
    intro w _
    cases hrun : linkTask ⟨o.workRoot, o.key, o.compress⟩ t w with
    | ok entry w' => exact ⟨trivial, segments_of_linkTask hrun⟩
    | error f w' => trivial
  have hpacked := ((ensures_mapTasks hensures).of_ok trivial b.packed_eq).2
  intro t ht
  obtain ⟨_, -, h⟩ := exists_of_mem_forall₂_right hpacked.flip ht
  exact h

/-- Tasks keep the places of the symbols. -/
theorem Built.offsets_eq : Forall₂ (fun (x : SourceFile × CompiledScript) (t : LinkTask) =>
    t.segments = x.2.segments ∧ t.links.map Link.offsets = x.2.symbols.map SymbolUse.offsets)
    b.sourced b.linked.tasks := by
  obtain ⟨_, _, _, _, tasks, s, -, -, hscripts, hlinked⟩ := linkScripts_of_link b.linked_eq
  rw [hlinked, ← zipIdx_map_fst 0 b.sourced, forall₂_map_left_iff, zipIdx_map_fst]
  exact (linksAll_of_linkScripts hscripts).ready.imp fun _ _ h => ⟨h.segments, h.offsets⟩

/-- A compiled script is linked: its expression section holds the number of each symbol at all
places of the symbol. -/
structure LinkedTo (script : CompiledScript) (links : List Link) (expressions : Bytes) : Prop where
  segments : ∃ segments, changeExpressions (writeLinks · links) script.segments = .ok segments ∧
    changeExpressions (fun _ => .ok expressions) script.segments = .ok segments
  numbers : ∀ (s : Nat) u link, script.symbols[s]? = some u → links[s]? = some link →
    ∀ offset ∈ u.offsets, StandsAt expressions (offset, link.number)

theorem linkedTo_of_compilesTo {options : CompileOptions} {source : List Stmt}
    {drafts : List Draft.Command} {p : Progress} {a : Draft.Assembly} {script : CompiledScript}
    {links : List Link} {segments : List Bytes}
    (h : CompilesTo options vocabulary source drafts p a script)
    (hoffsets : links.map Link.offsets = script.symbols.map SymbolUse.offsets)
    (hsegments : changeExpressions (writeLinks · links) script.segments = .ok segments) :
    ∃ expressions, LinkedTo script links expressions := by
  have hchange := hsegments
  rw [h.segments] at hchange
  obtain ⟨expressions, hwrite, hchange⟩ := exists_expressions h.assembly hchange
  rw [← h.segments] at hchange
  refine ⟨expressions, ⟨segments, hsegments, hchange⟩, fun s u link hu hlink offset hoffset => ?_⟩
  have hsame : (links.map Link.offsets)[s]? = (script.symbols.map SymbolUse.offsets)[s]? := by
    rw [hoffsets]
  rw [getElem?_map, getElem?_map, hu, hlink, Option.map_some, Option.map_some,
    Option.some_inj] at hsame
  exact standsAt_of_writeLinks h.assembly (hoffsets.trans h.offsets) hwrite link
    (mem_of_getElem? hlink) offset (hsame ▸ hoffset)

/-- All scripts of a build are linked. -/
theorem Built.linkedTo (hw : Reached Tree.Sane Allowed w) :
    Forall₂ (fun (x : SourceFile × CompiledScript) (t : LinkTask) =>
      ∃ expressions, LinkedTo x.2 t.links expressions) b.sourced b.linked.tasks := by
  obtain ⟨-, hmade⟩ := forall₂_iff_zip.mp (b.isMadeFor hw)
  obtain ⟨hlength, htasks⟩ := forall₂_iff_zip.mp b.offsets_eq
  refine forall₂_iff_zip.mpr ⟨hlength, fun {x t} hmem => ?_⟩
  obtain ⟨segments, hsegments⟩ := b.exists_segments t (of_mem_zip hmem).2
  obtain ⟨hsame, hoffsets⟩ := htasks hmem
  rw [hsame] at hsegments
  obtain ⟨_, _, _, _, ⟨_, _, _, _, -, -, -, hfrom⟩, -⟩ := hmade (of_mem_zip hmem).1
  obtain ⟨drafts, p, a, hto⟩ := compilesTo_of_compileScript hfrom.compiled
  exact linkedTo_of_compilesTo hto hoffsets hsegments

/-! ## Both moments together -/

/-- Every reference by a name that is compiled to the number of a symbol is checked with a type, and
has the type that follows from it. -/
def ReferredWith (v : Vocabulary) (n : Names) (s : Nat) (name : String) (type : ValueType) : Prop :=
  ∀ kind n₁ base suffix coded n₂,
    Referenced v kind n₁ base suffix name (firstUserNumber + s) coded n₂ →
    n₁.Numbered v → n₂.symbols <:+ n.symbols →
    ∃ x, Suffix.ofName? suffix = some x ∧ ((type != .text) == x.isNumber) = true ∧
      coded.type = x.result.getD type

theorem referredWith_of_declaredType? {v : Vocabulary} {n : Names} (hn : n.Numbered v) {s : Nat}
    {type : ValueType} (hs : n.symbols.reverse[s]? = some (.reference name))
    (htype : v.declaredType? name = some type) : ReferredWith v n s name type := by
  intro kind n₁ base suffix coded n₂ href hn₁ hgrow
  obtain ⟨type', x, hresolve, hsuffix, hmatch, rfl⟩ := href.compiled
  obtain ⟨hextends, hfind⟩ := Names.resolve_eq_ok hresolve
  have hn₂ := hextends.numbered hn₁
  -- the number is that of this symbol and of no other
  have honly {symbol : Symbol} (h : n₂.Holds (firstUserNumber + s) symbol) :
      symbol = .reference name := by
    obtain ⟨s', hnumber, hs'⟩ := h.mono hgrow
    have hsame : s' = s := by omega
    rw [hsame, hs, Option.some_inj] at hs'
    exact hs'.symm
  have hlisted : name ∈ n.symbolNames :=
    mem_filterMap.mpr ⟨_, mem_reverse.mp (mem_of_getElem? hs), rfl⟩
  rcases Names.find?_eq_some hfind with ht | hstatic | hr | hsystem
  · cases honly (hn₂.temporaries ht)
  · obtain ⟨d, hd, -⟩ := hn₂.statics hstatic
    cases honly hd
  · have hsame := (hn₂.references hr).2
    rw [htype, Option.some_inj] at hsame
    rw [hsame]
    exact ⟨x, hsuffix, hmatch, rfl⟩
  · rw [hn.system name hlisted] at hsystem
    cases hsystem

/-- What the two look-ups for the names of a script come to. -/
structure Built.Agrees (b : Built o w w') (file : SourceFile) (script : CompiledScript)
    (links : List Link) : Prop where
  /-- The script is made for its file, with the names and types that it sees. -/
  made : ∃ o' v text statements, b.MadeFor file script o' v text statements
  /-- Every name that the script refers to has the number of a variable, global or of a folder, that
  is declared by this name and can be seen; and whatever the script has been compiled from with
  these names, each of its references to the name has been checked with this variable's type. -/
  resolved : ∀ s name, (script.symbols[s]?).map SymbolUse.symbol = some (.reference name) →
    ∃ link v, links[s]? = some link ∧ b.linked.known[link.number]? = some v ∧
      v.number = link.number ∧ IsDeclaredAs b.globals b.folders file.folder name v ∧
      ∀ options commands system source drafts p a,
        CompilesTo options ⟨commands, system, b.globalTypes, seenTypes b.folders file.folder⟩ source
          drafts p a script →
        ReferredWith ⟨commands, system, b.globalTypes, seenTypes b.folders file.folder⟩ p.names s
          name v.type
  /-- This number is written at all places where the script names the variable. -/
  written : ∃ expressions, LinkedTo script links expressions

/-- **The compiler and the linker mean the same variable by a name.** In every build that succeeds,
also one that uses scripts which earlier builds have compiled, for all scripts. -/
theorem resolution_agrees (hw : Reached Tree.Sane Allowed w) (h : build o w = .ok () w') :
    ∃ b : Built o w w', List.Forall₂ (fun x t => b.Agrees x.1 x.2 t.links) b.sourced
      b.linked.tasks := by
  obtain ⟨b⟩ := built_of_build h
  obtain ⟨-, hmade⟩ := List.forall₂_iff_zip.mp (b.isMadeFor hw)
  obtain ⟨hlength, hreferences⟩ := List.forall₂_iff_zip.mp b.declaredType?_of_reference
  obtain ⟨-, hlinked⟩ := List.forall₂_iff_zip.mp (b.linkedTo hw)
  refine ⟨b, List.forall₂_iff_zip.mpr ⟨hlength, fun {x t} hmem => ?_⟩⟩
  refine ⟨hmade (List.of_mem_zip hmem).1, fun s name hs => ?_, hlinked hmem⟩
  obtain ⟨u, hu, hname⟩ := Option.map_eq_some_iff.mp hs
  obtain ⟨link, hlink, hnumbered⟩ := exists_getElem?_of_forall₂ (hreferences hmem) hu
  obtain ⟨v, hv, hnumber, htype, hdeclared⟩ := hnumbered name hname
  refine ⟨link, v, hlink, hv, hnumber, hdeclared,
    fun options commands system source drafts p a hc => ?_⟩
  have hnames := (compiledStatements_of_statements hc.statements).leads.numbered
    (Names.numbered_empty _)
  refine referredWith_of_declaredType? hnames ?_ htype
  rw [← hc.symbols, List.getElem?_map]
  exact hs

/-! ## A project with nested folders -/

/-- A command table. -/
def nestedCommands : Bytes :=
  let names := "INT" :: "LET" :: BlockRole.names.map Prod.fst
  Bytes.ofAscii "YSCM" ++ Bytes.ofNat 4 480 ++ Bytes.ofNat 4 names.length ++ Bytes.ofNat 4 0 ++
    (names.flatMap fun name => Bytes.ofAscii name ++ [0, 0]) ++ replicate 293 0

/-- A script that uses a global variable and one of its folder. -/
def nestedText : String := "LBL = 'top'\nINT[x.N] = f.N + g.N\n"

/-- A project in which an inner folder declares a name again, for a variable of another type. -/
def nestedFiles : List (Place × File CacheRecord) :=
  [(["t", "ysv.ybn"], ⟨.bytes (Bytes.ofAscii "YSVR" ++ Bytes.ofNat 4 480 ++ Bytes.ofNat 2 1 ++
      [1, 0, 0, 0, 0, 1, 0] ++ replicate 8 0), 0⟩),
    (["t", "ysc.ybn"], ⟨.bytes nestedCommands, 0⟩),
    (["t", "yse.ybn"], ⟨.bytes [], 0⟩),
    (["t", "yscfg.ybn"], ⟨.bytes [], 0⟩),
    (["src", "global.yuri"], ⟨.bytes (Bytes.ofAscii "G_INT[g.N] = 42\n"), 0⟩),
    (["src", "global_f.yuri"], ⟨.bytes (Bytes.ofAscii "F_STR[f.S]\n"), 0⟩),
    (["src", "h", "a.yuri"], ⟨.bytes (Bytes.ofAscii nestedText), 0⟩),
    (["src", "h", "global_f.yuri"], ⟨.bytes (Bytes.ofAscii "F_INT[f.N] = 7\n"), 0⟩)]

/-- A folder in a folder, each with declarations. -/
def nestedWorld : World CacheRecord where
  tree := { folders := [["t"], ["src"], ["src", "h"], ["w"]], files := nestedFiles }

/-- Options of a build that saves its scripts. -/
def nestedOptions : BuildOptions := { sampleOptions with savePath := some "ybn" }

/-- What is read of the template. -/
def nestedTemplate : Template where
  variableTable := sampleTemplate.variableTable
  commands := ⟨480, ("INT" :: "LET" :: BlockRole.names.map Prod.fst).map fun name => ⟨name, []⟩,
    replicate 37 "", replicate 256 0⟩
  commandBytes := nestedCommands
  errorBytes := []
  settingBytes := []

/-- The one script. -/
def nestedScript : SourceFile := ⟨"src/h", "src/h/a.yuri"⟩

/-- What is found of sources. -/
def nestedSources : Sources :=
  ⟨[⟨"src", "src/global.yuri"⟩],
    [⟨"src", "src/global_f.yuri"⟩, ⟨"src/h", "src/h/global_f.yuri"⟩], [nestedScript]⟩

theorem findSources_nested :
    findSources nestedOptions nestedWorld = .ok nestedSources nestedWorld := by
  have hone : (nestedWorld.tree.folders.filter fun q => ["src"].isPrefixOf q && q != ["src"]) =
    [["src", "h"]] := by decide +kernel
  have hbelow : nestedWorld.tree.foldersBelow ["src"] = [["src"], ["src", "h"]] := by
    rw [Tree.foldersBelow, hone, mergeSort_singleton]
  exact findSources_of_pairwise
    (fun q => [if q = ["src"] then "global.yuri" else "a.yuri", "global_f.yuri"])
    (fun f => Bytes.ofAscii f.path) rfl hbelow (by decide +kernel) rfl (by decide +kernel)

/-- The global variable. -/
def nestedGlobals : List Declared := [⟨"g", .declared, [], .int 42⟩]

/-- The variables of both folders. -/
def nestedFolders : List FolderDeclarations :=
  [⟨"src", [⟨"f", .declared, [], .text (.ofString "")⟩]⟩, ⟨"src/h", [⟨"f", .declared, [], .int 7⟩]⟩]

/-- The world once declarations have been read. -/
def nestedDeclared : World CacheRecord :=
  { nestedWorld with log := ["src/global.yuri", "src/global_f.yuri", "src/h/global_f.yuri"] }

/-- What the script is compiled with. -/
def nestedVocabulary : Vocabulary :=
  vocabularyOf nestedOptions nestedTemplate [("__Sys0", .int, 0)] [("g", .int)]

/-- Its task. -/
def nestedTask : CompileTask := ⟨nestedScript, [("f", .int)]⟩

/-- The compiled script. -/
def nestedMade : CompiledScript where
  texts := 0
  statics := 0
  temporaries := 1
  labels := [⟨0, .ofString "top", 0, 0⟩]
  symbols := [⟨[4], .temporary⟩, ⟨[10], .reference "f"⟩, ⟨[16], .reference "g"⟩]
  segments := [Bytes.ofAscii "YSTB" ++
      [224, 1, 0, 0, 1, 0, 0, 0, 4, 0, 0, 0, 24, 0, 0, 0, 21, 0, 0, 0, 4, 0, 0, 0, 0, 0, 0, 0],
    [0, 2, 0, 0], [0, 0, 1, 0, 6, 0, 0, 0, 0, 0, 0, 0, 0, 0, 1, 0, 15, 0, 0, 0, 6, 0, 0, 0],
    [72, 3, 0, 64, 232, 3, 72, 3, 0, 64, 233, 3, 72, 3, 0, 64, 234, 3, 43, 0, 0], [2, 0, 0, 0]]

/-- The world once it is kept. -/
def nestedCompiled : World CacheRecord where
  tree := keepPair (nestedWorld.tree.addFolder ["w", "h"]) "w/h/a.yuri"
    ⟨[("g", .int)], [("f", .int)], Bytes.ofAscii nestedText⟩ nestedMade 0 0
  log := nestedDeclared.log ++ ["compile src/h/a.yuri"]

/-- What linking makes of it. -/
def nestedLinked : Linked where
  known :=
    [⟨.global, .system, 0, 0, [], some (.int 0)⟩, ⟨.global, .declared, 0, 1, [], some (.int 42)⟩,
    ⟨.folder, .declared, 0, 2, [], some (.text [])⟩, ⟨.folder, .declared, 0, 3, [], some (.int 7)⟩]
  entries := [⟨0, "h\\a", 0, 1, 1, 0⟩]
  labels := [⟨.ofString "top", 0, 0, 0, 0, 0⟩]
  tasks := [⟨0, "h/a", [⟨[4], 4⟩, ⟨[10], 3⟩, ⟨[16], 1⟩], nestedMade.segments⟩]
  variableCount := 5
  textCount := 0

/-- To pack it. -/
def nestedPack : Work (List Archive.Entry) :=
  runTasks false (nestedLinked.tasks.map (linkTask ⟨"w", 0, id⟩))

/-- The packed script. -/
def nestedPacked : List Archive.Entry := (result? nestedPack nestedCompiled).getD []

/-- The tables. -/
def nestedTables : List Archive.Entry :=
  let scripts := (ScriptList.write Codec.utf8 none none ⟨480, nestedLinked.entries⟩).toOption
  let totals := (Totals.write none ⟨480, 5, 0⟩).toOption
  let known := (VariableTable.write Codec.utf8 none none ⟨480, nestedLinked.known⟩).toOption
  [tableEntry "ysc.ybn" nestedCommands, tableEntry "yscfg.ybn" [], tableEntry "yse.ybn" [],
    tableEntry "ysl.ybn" sampleLabels,
    tableEntry "yst_list.ybn" (scripts.getD []), tableEntry "yst.ybn" (totals.getD []),
    tableEntry "ysv.ybn" (known.getD [])]

theorem tableEntries_nested :
    tableEntries nestedOptions nestedTemplate nestedLinked = .ok nestedTables := by
  refine bind_eq_ok.mpr ⟨_, write_sampleLabels, ?_⟩
  decide +kernel

/-- To write everything. -/
def nestedFinish : Work Unit := finish nestedOptions (nestedPacked ++ nestedTables)

/-- The world after the build. -/
def nestedBuilt : World CacheRecord := after nestedFinish (after nestedPack nestedCompiled)

theorem scripts_nested : runTasks false ((compileTasks nestedSources nestedFolders).map
    (compileTask nestedOptions nestedVocabulary)) nestedDeclared =
      .ok [nestedMade] nestedCompiled := by
  have htasks : compileTasks nestedSources nestedFolders = [nestedTask] := by decide +kernel
  have hscript : compileTask nestedOptions nestedVocabulary nestedTask nestedDeclared =
      .ok nestedMade nestedCompiled := by decide +kernel
  rw [htasks]
  exact runBind_eq_ok.mpr ⟨_, _, hscript, rfl⟩

/-- The build step by step. -/
def nestedRecord : Built nestedOptions nestedWorld nestedBuilt where
  template := nestedTemplate
  system := [("__Sys0", .int, 0)]
  sources := nestedSources
  globals := nestedGlobals
  globalTypes := [("g", .int)]
  folders := nestedFolders
  scripts := [nestedMade]
  atTemplate := nestedWorld
  atSources := nestedWorld
  atGlobals := { nestedWorld with log := ["src/global.yuri"] }
  atFolders := nestedDeclared
  atScripts := nestedCompiled
  template_eq := by decide +kernel
  system_eq := by decide +kernel
  sources_eq := findSources_nested
  globals_eq := by decide +kernel
  folders_eq := by decide +kernel
  scripts_eq := scripts_nested
  linked := nestedLinked
  packed := nestedPacked
  tables := nestedTables
  atPacked := after nestedPack nestedCompiled
  linked_eq := by decide +kernel
  packed_eq := eq_ok_of_result? (by decide +kernel)
  tables_eq := tableEntries_nested
  finish_eq := eq_ok_of_result? (by decide +kernel)

theorem build_nested : build nestedOptions nestedWorld = .ok () nestedBuilt := nestedRecord.build_eq

theorem reached_nestedWorld : Reached Tree.Sane Allowed nestedWorld := by
  have hsane : nestedWorld.tree.Sane := by
    unfold Tree.Sane
    decide +kernel
  have hbytes : ∀ e ∈ nestedFiles, ∃ data, e.2.content = .bytes data := by
    simp [nestedFiles]
  refine .start hsane fun e he r hr => ?_
  obtain ⟨data, hdata⟩ := hbytes e he
  rw [hdata] at hr
  cases hr

theorem resolution_agrees_nestedWorld :
    Reached Tree.Sane (fun _ _ => True) nestedWorld ∧
      build nestedOptions nestedWorld = .ok () nestedBuilt ∧
      ∃ b : Built nestedOptions nestedWorld nestedBuilt,
        List.Forall₂ (fun x t => b.Agrees x.1 x.2 t.links) b.sourced b.linked.tasks := by
  have hw : Reached Tree.Sane (fun _ _ => True) nestedWorld := reached_nestedWorld
  exact ⟨hw, build_nested, resolution_agrees hw build_nested⟩

end NovelScript.Project
