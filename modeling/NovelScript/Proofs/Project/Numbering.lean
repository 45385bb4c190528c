import Mathlib.Algebra.BigOperators.Group.List.Basic
import NovelScript.Project.Build
import NovelScript.Proofs.Compile.Symbols

/-!
# The numbers of variables

Numbers are given in two rows at once. The lasting variables, which stand in the variable list, get
their positions in it: first those of the system, then the global ones, those of folders and the
static ones of each script. The temporary variables get the numbers after them, but their row is
started before the static ones are placed, from the counts of the compiled scripts.

Each step says what it adds to the two rows (`Links` for the symbols of a script, `LinksAll` for all
scripts). As the counts are those of the symbols, the second row starts where the first one ends; so
all numbers together are those below the count of variables, each given once (`Linked.Numbered`).
-/

namespace NovelScript

open List

/-- The declaration of a static variable that a script defines. -/
def Symbol.declared? : Symbol → Option Declared
  | .definition d => some d
  | _ => none

/-- The static variables that symbols define. -/
def definitionsOf (symbols : List SymbolUse) : List Declared :=
  symbols.filterMap fun u => u.symbol.declared?

theorem length_definitionsOf (symbols : List SymbolUse) :
    (definitionsOf symbols).length = symbols.countP fun u => u.symbol.isDefinition := by
  rw [definitionsOf, length_filterMap_eq_countP]
  congr 1
  funext u
  cases u.symbol <;> rfl

namespace Project

variable {known known' : List Variable} {v : Variable} {scope : Scope} {script : Nat} {d : Declared}
  {s s' : LinkState} {symbols : List SymbolUse} {links : List Link} {u : SymbolUse}
variable {n : Nat} {α : Type} {globals : List (String × Nat)} {R : α → Variable → Prop}

/-! ## Lasting variables -/

/-- Every variable stands at its number. -/
def InPlace (known : List Variable) : Prop :=
  known.map Variable.number = (range known.length).map Nat.cast

/-- A variable of a declaration. -/
def IsVariableOf (scope : Scope) (script : Nat) (d : Declared) (v : Variable) : Prop :=
  ∃ n, variableOf scope script n d = .ok v

/-- A variable with the next number stands in place. -/
theorem InPlace.append_singleton (h : InPlace known) (hv : v.number = known.length) :
    InPlace (known ++ [v]) := by
  unfold InPlace at *
  rw [map_append, h, length_append, length_singleton, range_succ,
    map_append, map_singleton, map_singleton, hv]

theorem InPlace.number_of_getElem? (h : InPlace known) {i : Nat} (hv : known[i]? = some v) :
    v.number = i := by
  obtain ⟨hi, -⟩ := List.getElem?_eq_some_iff.mp hv
  have hnumber : (known.map Variable.number)[i]? = some v.number := by
    rw [getElem?_map, hv]
    rfl
  rw [h, getElem?_map, getElem?_range hi, Option.map_some, Option.some.injEq] at hnumber
  exact hnumber.symm

theorem InPlace.map_number_right {first rest : List Variable} (h : InPlace (first ++ rest)) :
    rest.map Variable.number = (range' first.length rest.length).map Nat.cast := by
  have hdrop := congrArg (drop first.length) h
  rw [← map_drop, ← map_drop, drop_left, range_eq_range', drop_range',
    length_append, Nat.add_sub_cancel_left, Nat.zero_add, Nat.mul_one] at hdrop
  exact hdrop

theorem number_of_variableOf (h : variableOf scope script n d = .ok v) : v.number = n := by
  obtain ⟨init, -, h⟩ := of_bind h
  cases h
  rfl

/-- Variables for declarations are put at the end of a list. -/
structure Adds (R : α → Variable → Prop) (known : List Variable) (declared : List α)
    (known' : List Variable) : Prop where
  added : ∃ added, known' = known ++ added ∧ Forall₂ R declared added
  inPlace : InPlace known → InPlace known'

theorem Adds.nil (R : α → Variable → Prop) (known : List Variable) : Adds R known [] known :=
  ⟨⟨[], (append_nil _).symm, .nil⟩, id⟩

/-- Variables are added in turn. -/
theorem Adds.append {known₁ known₂ : List Variable} {first rest : List α}
    (h : Adds R known first known₁) (h' : Adds R known₁ rest known₂) :
    Adds R known (first ++ rest) known₂ := by
  obtain ⟨added, rfl, hadded⟩ := h.added
  obtain ⟨added', rfl, hadded'⟩ := h'.added
  exact ⟨⟨added ++ added', append_assoc _ _ _, rel_append hadded hadded'⟩, h'.inPlace ∘ h.inPlace⟩

theorem Adds.length {declared : List α} (h : Adds R known declared known') :
    known'.length = known.length + declared.length := by
  obtain ⟨added, rfl, hadded⟩ := h.added
  rw [length_append, hadded.length_eq]

theorem adds_singleton (h : variableOf scope script known.length d = .ok v) :
    Adds (IsVariableOf scope script) known [d] (known ++ [v]) :=
  ⟨⟨[v], rfl, .cons ⟨_, h⟩ .nil⟩, fun hk => hk.append_singleton (number_of_variableOf h)⟩

/-- Numbering adds a variable for each declaration. -/
theorem adds_of_number {declared : List Declared} {numbers numbers' : List (String × Nat)}
    (h : number scope known declared numbers = .ok (known', numbers')) :
    Adds (IsVariableOf scope 0) known declared known' := by
  induction declared generalizing known numbers with
  | nil =>
    cases h
    exact .nil _ _
  | cons d rest ih =>
    obtain ⟨v, hv, h⟩ := of_bind h
    exact (adds_singleton hv).append (ih h)

/-- Numbering folders adds theirs in turn. -/
theorem adds_of_numberFolders {folders : List FolderDeclarations}
    {numbers numbers' : List (String × List (String × Nat))}
    (h : numberFolders known folders numbers = .ok (known', numbers')) :
    Adds (IsVariableOf .folder 0) known (folders.flatMap FolderDeclarations.declared) known' := by
  induction folders generalizing known numbers with
  | nil =>
    cases h
    exact .nil _ _
  | cons f rest ih =>
    obtain ⟨⟨known₁, own⟩, hown, h⟩ := of_bind h
    exact (adds_of_number hown).append (ih h)

/-! ## The symbols of a script -/

/-- The numbers of symbols of a kind. -/
def numbersOf (kind : Symbol → Bool) (symbols : List SymbolUse) (links : List Link) : List Nat :=
  ((symbols.zip links).filter fun (u, _) => kind u.symbol).map fun (_, l) => l.number

theorem numbersOf_cons (kind : Symbol → Bool) (u : SymbolUse) (l : Link) (symbols : List SymbolUse)
    (links : List Link) :
    numbersOf kind (u :: symbols) (l :: links) =
      (if kind u.symbol then [l.number] else []) ++ numbersOf kind symbols links := by
  unfold numbersOf
  rw [zip_cons_cons]
  cases h : kind u.symbol <;> simp [h]

/-- What linking symbols does: each symbol gets one number, the static variables the next positions
of the variable list and the temporary ones the next numbers of their own. -/
structure Links (script : Nat) (s : LinkState) (symbols : List SymbolUse) (links : List Link)
    (s' : LinkState) : Prop where
  offsets : links.map Link.offsets = symbols.map SymbolUse.offsets
  known : Adds (IsVariableOf .static script) s.known (definitionsOf symbols) s'.known
  statics : numbersOf Symbol.isDefinition symbols links =
    range' s.known.length (definitionsOf symbols).length
  temporaries : numbersOf Symbol.isTemporary symbols links =
    range' s.nextTemporary (symbols.countP fun u => u.symbol.isTemporary)
  next : s'.nextTemporary = s.nextTemporary + symbols.countP fun u => u.symbol.isTemporary

theorem Links.cons {s₁ : LinkState} (h : Links script s₁ symbols links s')
    (hknown : Adds (IsVariableOf .static script) s.known u.symbol.declared?.toList s₁.known)
    (hnext : s₁.nextTemporary = s.nextTemporary + if u.symbol.isTemporary then 1 else 0)
    (hstatic : u.symbol.isDefinition = true → n = s.known.length)
    (htemporary : u.symbol.isTemporary = true → n = s.nextTemporary) :
    Links script s (u :: symbols) (⟨u.offsets, n⟩ :: links) s' := by
  have hdefinitions : definitionsOf (u :: symbols) =
      u.symbol.declared?.toList ++ definitionsOf symbols := by
    cases hu : u.symbol <;> simp [definitionsOf, hu, Symbol.declared?]
  have hstatics : (if u.symbol.isDefinition then [n] else []) =
      range' s.known.length u.symbol.declared?.toList.length := by
    cases hu : u.symbol <;> simp_all [Symbol.isDefinition, Symbol.declared?]
  have htemporaries : (if u.symbol.isTemporary then [n] else []) =
      range' s.nextTemporary (if u.symbol.isTemporary then 1 else 0) := by
    cases hu : u.symbol.isTemporary <;> simp_all
  refine ⟨by simp [h.offsets], hdefinitions ▸ hknown.append h.known, ?_, ?_, ?_⟩
  · rw [numbersOf_cons, hstatics, h.statics, hknown.length, hdefinitions, length_append,
      range'_append_1]
  · rw [numbersOf_cons, htemporaries, h.temporaries, hnext, countP_cons,
      Nat.add_comm (countP _ _), range'_append_1]
  · rw [h.next, hnext, countP_cons]
    omega

/-- Symbols are linked in turn. -/
theorem links_of_linkSymbols {folders : List (String × Nat)}
    (h : linkSymbols script folders globals s symbols = .ok (links, s')) :
    Links script s symbols links s' := by
  induction symbols generalizing s links with
  | nil =>
    cases h
    exact ⟨rfl, .nil _ _, rfl, rfl, rfl⟩
  | cons u rest ih =>
    obtain ⟨⟨link, s₁⟩, hlink, h⟩ := of_bind h
    obtain ⟨⟨others, s₂⟩, hothers, h⟩ := of_bind h
    cases h
    obtain ⟨offsets, symbol⟩ := u
    cases symbol with
    | temporary =>
      cases hlink
      exact (ih hothers).cons (.nil _ _) rfl (fun h => by cases h) fun _ => rfl
    | reference name =>
      obtain ⟨n, -, hlink⟩ := of_bind hlink
      cases hlink
      exact (ih hothers).cons (.nil _ _) rfl (fun h => by cases h) fun h => by cases h
    | definition d =>
      obtain ⟨v, hv, hlink⟩ := of_bind hlink
      cases hlink
      exact (ih hothers).cons (adds_singleton hv) rfl (fun _ => rfl) fun h => by cases h

/-! ## All scripts -/

/-- The static variables of scripts, each with the number of its script. -/
def staticsOf (scripts : List ((SourceFile × CompiledScript) × Nat)) : List (Nat × Declared) :=
  scripts.flatMap fun ((_, script), n) => (definitionsOf script.symbols).map (n, ·)

/-- The numbers that are given to the symbols of a kind in all scripts. -/
def allNumbersOf (kind : Symbol → Bool) (scripts : List ((SourceFile × CompiledScript) × Nat))
    (tasks : List LinkTask) : List Nat :=
  (scripts.zip tasks).flatMap fun (s, t) => numbersOf kind s.1.2.symbols t.links

/-- The temporary variables of scripts. -/
def countTemporaries (scripts : List ((SourceFile × CompiledScript) × Nat)) : Nat :=
  (scripts.map fun s => s.1.2.symbols.countP fun u => u.symbol.isTemporary).sum

/-- A script is ready for linking, and all of its symbols have numbers. -/
structure IsTaskOf (root : String) (s : (SourceFile × CompiledScript) × Nat) (t : LinkTask) :
    Prop where
  number : t.number = s.2
  path : t.path = scriptPath root s.1.1.path
  segments : t.segments = s.1.2.segments
  offsets : t.links.map Link.offsets = s.1.2.symbols.map SymbolUse.offsets

/-- What linking scripts one after another does. -/
structure LinksAll (root : String) (s : LinkState)
    (scripts : List ((SourceFile × CompiledScript) × Nat)) (tasks : List LinkTask)
    (s' : LinkState) : Prop where
  ready : Forall₂ (IsTaskOf root) scripts tasks
  known : Adds (fun x v => IsVariableOf .static x.1 x.2 v) s.known (staticsOf scripts) s'.known
  statics : allNumbersOf Symbol.isDefinition scripts tasks =
    range' s.known.length (staticsOf scripts).length
  temporaries : allNumbersOf Symbol.isTemporary scripts tasks =
    range' s.nextTemporary (countTemporaries scripts)
  next : s'.nextTemporary = s.nextTemporary + countTemporaries scripts

/-- So are scripts. -/
theorem linksAll_of_linkScripts {root : String} {folders : List (String × List (String × Nat))}
    {scripts : List ((SourceFile × CompiledScript) × Nat)} {tasks : List LinkTask}
    (h : linkScripts root folders globals s scripts = .ok (tasks, s')) :
    LinksAll root s scripts tasks s' := by
  induction scripts generalizing s tasks with
  | nil =>
    cases h
    exact ⟨.nil, .nil _ _, rfl, rfl, rfl⟩
  | cons x rest ih =>
    obtain ⟨⟨file, script⟩, n⟩ := x
    obtain ⟨⟨links, s₁⟩, hlinks, h⟩ := of_bind h
    obtain ⟨⟨others, s₂⟩, hothers, h⟩ := of_bind h
    cases h
    have hfirst := links_of_linkSymbols hlinks
    have hrest := ih hothers
    -- The variables of this script, each with its number.
    have hadds : Adds (fun x v => IsVariableOf .static x.1 x.2 v) s.known
        ((definitionsOf script.symbols).map (n, ·)) s₁.known := by
      obtain ⟨added, hknown, hadded⟩ := hfirst.known.added
      exact ⟨⟨added, hknown, forall₂_map_left_iff.mpr hadded⟩, hfirst.known.inPlace⟩
    have hlength := hadds.length
    have hready : IsTaskOf root ((file, script), n)
        ⟨n, scriptPath root file.path, links, script.segments⟩ :=
      ⟨by dsimp only, by dsimp only, by dsimp only, hfirst.offsets⟩
    refine ⟨.cons hready hrest.ready, hadds.append hrest.known, ?_, ?_, ?_⟩
    · show numbersOf _ _ _ ++ allNumbersOf _ rest others = range' _ (_ ++ staticsOf rest).length
      rw [hfirst.statics, hrest.statics, hlength, length_append, length_map, range'_append_1]
    · show numbersOf _ _ _ ++ allNumbersOf _ rest others = range' _ (_ + countTemporaries rest)
      rw [hfirst.temporaries, hrest.temporaries, hfirst.next, range'_append_1]
    · rw [hrest.next, hfirst.next]
      show _ = s.nextTemporary + (_ + countTemporaries rest)
      rw [Nat.add_assoc]

/-! ## The whole project -/

theorem map_zipIdx_fst {β : Type} (f : α → β) (l : List α) :
    (l.zipIdx.map fun x => f x.1) = l.map f := by
  rw [← Function.comp_def f Prod.fst, ← map_map, zipIdx_map_fst]

variable {root : String} {system : List Variable} {globals : List Declared}
  {folders : List FolderDeclarations} {scripts : List (SourceFile × CompiledScript)} {l : Linked}

/-- The static variables of scripts are as many as they count. -/
theorem length_staticsOf (h : ∀ s ∈ scripts, s.2.Counted) :
    (staticsOf scripts.zipIdx).length = total (scripts.map fun s => s.2.statics) := by
  rw [staticsOf, length_flatMap, total_eq_sum]
  simp only [length_map, length_definitionsOf]
  rw [map_zipIdx_fst (fun s : SourceFile × CompiledScript =>
    s.2.symbols.countP fun u => u.symbol.isDefinition)]
  exact congrArg sum (map_congr_left fun s hs => (h s hs).statics.symm)

theorem countTemporaries_eq_sum (h : ∀ s ∈ scripts, s.2.Counted) :
    countTemporaries scripts.zipIdx = (scripts.map fun s => s.2.temporaries).sum := by
  rw [countTemporaries, map_zipIdx_fst (fun s : SourceFile × CompiledScript =>
    s.2.symbols.countP fun u => u.symbol.isTemporary)]
  exact congrArg sum (map_congr_left fun s hs => (h s hs).temporaries.symm)

/-- What numbering comes to: the lasting variables without the static ones, the linked scripts and
the state at the end. -/
theorem linkScripts_of_link (h : link root system globals folders scripts = .ok l) :
    ∃ known₁ known₂ globalNumbers folderNumbers tasks s,
      number .global system globals [] = .ok (known₁, globalNumbers) ∧
      numberFolders known₁ folders [] = .ok (known₂, folderNumbers) ∧
      linkScripts root folderNumbers globalNumbers
        ⟨known₂, total (scripts.map fun s => s.2.statics) + known₂.length⟩ scripts.zipIdx =
          .ok (tasks, s) ∧
      l = {
        known := s.known
        entries := scripts.zipIdx.map fun ((file, script), n) =>
          entryOf n (scriptPath root file.path) script
        labels := scripts.zipIdx.flatMap fun ((_, script), n) => labelsOf n script
        tasks
        variableCount := s.nextTemporary
        textCount := total (scripts.map fun s => s.2.texts) } := by
  obtain ⟨⟨known₁, globalNumbers⟩, hglobals, h⟩ := of_bind h
  obtain ⟨⟨known₂, folderNumbers⟩, hfolders, h⟩ := of_bind h
  obtain ⟨⟨tasks, s⟩, hscripts, h⟩ := of_bind h
  obtain ⟨_, -, h⟩ := of_bind h
  cases h
  exact ⟨known₁, known₂, globalNumbers, folderNumbers, tasks, s, hglobals, hfolders, hscripts, rfl⟩

/-- **The variables of a project are numbered without gaps.** -/
structure Linked.Numbered (system : List Variable) (globals : List Declared)
    (folders : List FolderDeclarations) (scripts : List (SourceFile × CompiledScript))
    (l : Linked) : Prop where
  /-- Every script is linked, and every symbol of it has a number. -/
  ready : ∃ root, Forall₂ (IsTaskOf root) scripts.zipIdx l.tasks
  /-- The lasting variables are those of the system, the global ones, those of folders, and the
  static ones of all scripts, to which the symbols of the scripts are linked. -/
  lasting : ∃ ofGlobals ofFolders ofScripts,
    l.known = system ++ ofGlobals ++ ofFolders ++ ofScripts ∧
    Forall₂ (IsVariableOf .global 0) globals ofGlobals ∧
    Forall₂ (IsVariableOf .folder 0) (folders.flatMap FolderDeclarations.declared) ofFolders ∧
    Forall₂ (fun x v => IsVariableOf .static x.1 x.2 v) (staticsOf scripts.zipIdx) ofScripts ∧
    ofScripts.map Variable.number =
      (allNumbersOf Symbol.isDefinition scripts.zipIdx l.tasks).map Nat.cast
  /-- The number of a lasting variable is its position. -/
  position : ∀ (i : Nat) (v : Variable), l.known[i]? = some v → v.number = i
  /-- Temporary variables have numbers behind those of all lasting ones. -/
  behind : ∀ n ∈ allNumbersOf Symbol.isTemporary scripts.zipIdx l.tasks, l.known.length ≤ n
  /-- All numbers together are those below the count of variables, each of them once. -/
  all : l.known.map Variable.number ++
      (allNumbersOf Symbol.isTemporary scripts.zipIdx l.tasks).map Nat.cast =
    (range l.variableCount).map Nat.cast
  variableCount : (l.variableCount : Int) =
    system.length + globals.length + (folders.flatMap FolderDeclarations.declared).length +
      (l.entries.map ScriptEntry.variableCount).sum
  textCount : (l.textCount : Int) = (l.entries.map ScriptEntry.textCount).sum
  labelCount : (l.labels.length : Int) = (l.entries.map ScriptEntry.labelCount).sum

theorem sum_entries (f : ScriptEntry → Int) (g : CompiledScript → Nat)
    (h : ∀ n path script, f (entryOf n path script) = g script) :
    ((scripts.zipIdx.map fun ((file, script), n) =>
      entryOf n (scriptPath root file.path) script).map f).sum =
      ((scripts.map fun s => g s.2).sum : Nat) := by
  have hcast (counts : List Nat) : ((counts.sum : Nat) : Int) = (counts.map Nat.cast).sum := by
    induction counts with
    | nil => rfl
    | cons n rest ih => rw [sum_cons, map_cons, sum_cons, ← ih, Int.natCast_add]
  rw [hcast, map_map, map_map,
    ← map_zipIdx_fst (Nat.cast ∘ fun s : SourceFile × CompiledScript => g s.2)]
  exact congrArg sum (map_congr_left fun _ _ => h _ _ _)

/-- Linking numbers variables without gaps. -/
theorem numbered_of_link (hsystem : InPlace system) (hcounted : ∀ s ∈ scripts, s.2.Counted)
    (h : link root system globals folders scripts = .ok l) :
    l.Numbered system globals folders scripts := by
  obtain ⟨known₁, known₂, globalNumbers, folderNumbers, tasks, s, hglobals, hfolders, hscripts,
    rfl⟩ := linkScripts_of_link h
  have hadds₁ := adds_of_number hglobals
  have hadds₂ := adds_of_numberFolders hfolders
  have hall := linksAll_of_linkScripts hscripts
  -- Globals come first, then folders, then the static variables of scripts.
  have hplace : InPlace s.known := hall.known.inPlace (hadds₂.inPlace (hadds₁.inPlace hsystem))
  have hlength : s.known.length = total (scripts.map fun s => s.2.statics) + known₂.length := by
    rw [hall.known.length, length_staticsOf hcounted, Nat.add_comm]
  obtain ⟨ofGlobals, rfl, hofGlobals⟩ := hadds₁.added
  obtain ⟨ofFolders, rfl, hofFolders⟩ := hadds₂.added
  obtain ⟨ofScripts, hknown, hofScripts⟩ := hall.known.added
  have htemporaries : allNumbersOf Symbol.isTemporary scripts.zipIdx tasks =
      range' s.known.length (countTemporaries scripts.zipIdx) := by
    rw [hall.temporaries, hlength]
  constructor
  case ready => exact ⟨root, hall.ready⟩
  case lasting =>
    refine ⟨ofGlobals, ofFolders, ofScripts, hknown, hofGlobals, hofFolders, hofScripts, ?_⟩
    rw [hknown] at hplace
    rw [hplace.map_number_right, hall.statics, hofScripts.length_eq]
  case position => exact fun i v hv => hplace.number_of_getElem? hv
  case behind =>
    intro n hn
    rw [htemporaries, mem_range'_1] at hn
    exact hn.1
  case all =>
    show s.known.map _ ++ _ = (range s.nextTemporary).map _
    rw [htemporaries, hplace, ← map_append, hall.next, ← hlength, range_eq_range',
      range_eq_range', ← range'_append_1, Nat.zero_add]
  case variableCount =>
    show (s.nextTemporary : Int) = _
    rw [sum_entries ScriptEntry.variableCount (fun script => script.temporaries + script.statics)
      (fun _ _ _ => by simp [entryOf]), hall.next, countTemporaries_eq_sum hcounted, total_eq_sum,
      sum_map_add]
    have hg := hofGlobals.length_eq
    have hf := hofFolders.length_eq
    simp only [length_append]
    omega
  case textCount =>
    show ((total _ : Nat) : Int) = _
    rw [sum_entries ScriptEntry.textCount CompiledScript.texts fun _ _ _ => rfl, total_eq_sum]
  case labelCount =>
    show ((flatMap _ _).length : Int) = _
    rw [sum_entries ScriptEntry.labelCount (fun script => script.labels.length) fun _ _ _ => rfl,
      length_flatMap]
    simp only [labelsOf, length_map]
    rw [map_zipIdx_fst (fun s : SourceFile × CompiledScript => s.2.labels.length)]

/-! ## The check at the end -/

/-- A step does not fail with a fault. -/
def Avoids {α : Type} (fault : Fault) (x : Except Fault α) : Prop := x ≠ .error fault

section

variable {α β : Type} {fault : Fault}
variable {other : Fault}

theorem avoids_ok (a : α) : Avoids fault (.ok a) := nofun

theorem avoids_error (h : other ≠ fault) : Avoids fault (.error other : Except Fault α) :=
  fun heq => h (Except.error.inj heq)

theorem avoids_orFault (h : other ≠ fault) (x : Option α) : Avoids fault (orFault x other) := by
  cases x with
  | none => exact avoids_error h
  | some a => exact avoids_ok a

theorem avoids_require {holds : Bool} (h : holds = false → other ≠ fault) :
    Avoids fault (require holds other : Except Fault Unit) := by
  cases holds with
  | false => exact avoids_error (h rfl)
  | true => exact avoids_ok ()

/-- A step avoids a fault if its parts do. -/
theorem avoids_bind {x : Except Fault α} {f : α → Except Fault β} (hx : Avoids fault x)
    (hf : ∀ a, x = .ok a → Avoids fault (f a)) : Avoids fault (x >>= f) := by
  cases x with
  | error other => exact avoids_error fun heq => hx (congrArg Except.error heq)
  | ok a => exact hf a rfl

end

/-- The fault of a variable that is not where its number says. -/
abbrev misplaced : Fault := Condition.variablePosition

theorem avoids_quote (w : Wording) : Avoids misplaced (Literal.quote w) := by
  refine avoids_bind (avoids_require fun _ => by decide) fun _ _ => avoids_bind ?_ fun _ _ =>
    avoids_bind (avoids_require fun _ => by decide) fun _ _ => avoids_ok _
  unfold Literal.unquote
  split
  · exact avoids_error nofun
  · split
    · split
      · exact avoids_ok _
      · exact avoids_error nofun
    · exact avoids_error (by decide)

theorem avoids_variableOf (scope : Scope) (script n : Nat) (d : Declared) :
    Avoids misplaced (variableOf scope script n d) := by
  refine avoids_bind ?_ fun _ _ => avoids_ok _
  unfold initialOf
  split
  · exact avoids_ok _
  · exact avoids_ok _
  · exact avoids_bind (avoids_orFault (by decide) _) fun _ _ => avoids_ok _
  · split
    · exact avoids_ok _
    · exact avoids_bind (avoids_quote _) fun _ _ => avoids_ok _

theorem avoids_number (scope : Scope) (known : List Variable) (declared : List Declared)
    (numbers : List (String × Nat)) : Avoids misplaced (number scope known declared numbers) := by
  induction declared generalizing known numbers with
  | nil => exact avoids_ok _
  | cons d rest ih => exact avoids_bind (avoids_variableOf _ _ _ _) fun _ _ => ih _ _

theorem avoids_numberFolders (known : List Variable) (folders : List FolderDeclarations)
    (numbers : List (String × List (String × Nat))) :
    Avoids misplaced (numberFolders known folders numbers) := by
  induction folders generalizing known numbers with
  | nil => exact avoids_ok _
  | cons f rest ih => exact avoids_bind (avoids_number _ _ _ _) fun _ _ => ih _ _

theorem avoids_linkSymbols (script : Nat) (folders globals : List (String × Nat)) (s : LinkState)
    (symbols : List SymbolUse) :
    Avoids misplaced (linkSymbols script folders globals s symbols) := by
  induction symbols generalizing s with
  | nil => exact avoids_ok _
  | cons u rest ih =>
    refine avoids_bind ?_ fun _ _ => avoids_bind (ih _) fun _ _ => avoids_ok _
    unfold linkSymbol
    split
    · exact avoids_ok _
    · refine avoids_bind ?_ fun _ _ => avoids_ok _
      unfold outerNumber
      split
      · exact avoids_ok _
      · exact avoids_orFault (by simp) _
    · exact avoids_bind (avoids_variableOf _ _ _ _) fun _ _ => avoids_ok _

theorem avoids_linkScripts (root : String) (folders : List (String × List (String × Nat)))
    (globals : List (String × Nat)) (s : LinkState)
    (scripts : List ((SourceFile × CompiledScript) × Nat)) :
    Avoids misplaced (linkScripts root folders globals s scripts) := by
  induction scripts generalizing s with
  | nil => exact avoids_ok _
  | cons x rest ih =>
    exact avoids_bind (avoids_linkSymbols _ _ _ _ _) fun _ _ => avoids_bind (ih _) fun _ _ =>
      avoids_ok _

/-- Linking never fails for a variable out of place. -/
theorem avoids_link (root : String) (system : List Variable) (globals : List Declared)
    (folders : List FolderDeclarations) (hcounted : ∀ s ∈ scripts, s.2.Counted) :
    Avoids misplaced (link root system globals folders scripts) := by
  refine avoids_bind (avoids_number _ _ _ _) fun _ _ => ?_
  refine avoids_bind (avoids_numberFolders _ _ _) fun _ _ => ?_
  refine avoids_bind (avoids_linkScripts _ _ _ _ _) fun x hx => ?_
  refine avoids_bind (avoids_require fun hfalse => ?_) fun _ _ => avoids_ok _
  obtain ⟨tasks, s⟩ := x
  have hall := linksAll_of_linkScripts hx
  rw [hall.known.length, length_staticsOf hcounted, Nat.add_comm, beq_self_eq_true] at hfalse
  cases hfalse

end Project

end NovelScript
