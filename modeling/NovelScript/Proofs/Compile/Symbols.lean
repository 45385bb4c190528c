import NovelScript.Compile.Script
import NovelScript.Proofs.Assembly.Placement
import NovelScript.Proofs.Compile.Statement

/-!
# Symbols of compiled statements

A compiled script names variables by numbers, and every number from the first user number on must be
that of a symbol. `Progress.Leads` collects what compiling a part of a script does to the progress:
symbols and labels are only added, commands are counted, labels have the positions of their
commands, names stay numbered, and the instructions of the part name no symbol that is not there
after it. It holds of every rule, and parts that follow each other can be put together
(`Leads.append`); so it holds of whole scripts (`CompiledStatements.leads`).

The variables that a script defines are counted apart from its symbols, and the two agree
(`counted_of_compileScript`).
-/

namespace NovelScript

open List Compiling

variable {v : Vocabulary} {c : CompileContext} {p p₁ p' : Progress}
variable {count count' line : Nat} {i : Instr} {a : Draft.Argument} {n n' : Names}
  {commands : List Draft.Command} {keywords : List (Option String × Expr)}
  {given : List (Option String × Draft.Argument)}
  {places places' : List (Option String × Option Draft.Argument)} {body source : List Stmt}
  {name : String} {d : DeclarationCommand} {dims : List Dimension} {value target : Expr}
  {depth : Depth} {s : Stmt} {t : Coded} {head : Draft.Command} {next : Option Nat}
  {options : CompileOptions} {vocabulary : Vocabulary} {compiled : CompiledScript}
  {command : String} (start : Nat)

/-- The numbers of the system's variables come before all others. -/
def Vocabulary.SystemFirst (v : Vocabulary) : Prop :=
  ∀ name type number, v.system.lookup name = some (type, number) → number < (firstUserNumber : Int)

/-! ## Numbers within the symbols -/

theorem checkSymbol_mono (h : checkSymbol count i = .ok ()) (hle : count ≤ count') :
    checkSymbol count' i = .ok () := by
  cases i with
  | access kind mark number =>
    simp only [checkSymbol, require_eq_ok, decide_eq_true_eq] at h ⊢
    omega
  | _ => rfl

/-- All numbers in an argument are those of the system or of the first symbols. -/
def Draft.Argument.Within (count : Nat) (a : Draft.Argument) : Prop :=
  a.data.Accepted (checkSymbol count)

theorem Draft.Argument.Within.mono (h : a.Within count) (hle : count ≤ count') :
    a.Within count' := by
  unfold Draft.Argument.Within at h ⊢
  cases hdata : a.data with
  | code code =>
    rw [hdata] at h
    exact fun i hi => checkSymbol_mono (h i hi) hle
  | _ => trivial

/-- What an instruction names is known, so it is a number of the system or of a symbol. -/
theorem checkSymbol_of_known (h : i.Known v n) (hn : n.Numbered v) (hv : v.SystemFirst) :
    checkSymbol n.symbols.length i = .ok () := by
  cases i with
  | access kind mark number =>
    obtain ⟨name, type, hfind⟩ := h
    have := hn.lt_nextNumber (fun hs => hv _ _ _ hs) hfind
    simpa [checkSymbol, Names.nextNumber] using this
  | _ => rfl

/-- The code of an expression names the system's variables and known symbols only. -/
theorem Compiled.within {e : Expr} {coded : Coded} (h : Compiled v n e coded n') (hn : n.Numbered v)
    (hv : v.SystemFirst) (assignment : Assignment) :
    (coded.argument assignment).Within n'.symbols.length :=
  fun i hi => checkSymbol_of_known (h.known i hi) (h.extends.numbered hn) hv

/-! ## Labels -/

/-- The positions of the labels among commands that start at a position. -/
def labelPositions (start : Nat) : List Draft.Command → List Nat
  | [] => []
  | c :: rest =>
    if c.presence = .label then start :: labelPositions (start + 1) rest
    else labelPositions (start + 1) rest

theorem labelPositions_append (first rest : List Draft.Command) :
    labelPositions start (first ++ rest) =
      labelPositions start first ++ labelPositions (start + first.length) rest := by
  induction first generalizing start with
  | nil => rfl
  | cons command first ih =>
    rw [cons_append, labelPositions, labelPositions, ih, length_cons,
      show start + 1 + first.length = start + (first.length + 1) by omega]
    split <;> rfl

theorem le_of_mem_labelPositions {start i : Nat} (h : i ∈ labelPositions start commands) :
    start ≤ i := by
  induction commands generalizing start with
  | nil => cases h
  | cons command rest ih =>
    rw [labelPositions] at h
    split at h
    · rcases mem_cons.mp h with rfl | h
      · exact Nat.le_refl _
      · exact Nat.le_of_succ_le (ih h)
    · exact Nat.le_of_succ_le (ih h)

/-- Labels stand at different positions. -/
theorem nodup_labelPositions (commands : List Draft.Command) :
    (labelPositions start commands).Nodup := by
  induction commands generalizing start with
  | nil => exact nodup_nil
  | cons command rest ih =>
    rw [labelPositions]
    split
    · refine nodup_cons.mpr ⟨fun hmem => ?_, ih _⟩
      exact absurd (le_of_mem_labelPositions hmem) (by omega)
    · exact ih _

/-! ## Added symbols -/

/-- Whether a symbol is a static variable that the script defines. -/
def Symbol.isDefinition : Symbol → Bool
  | .definition _ => true
  | _ => false

/-- Whether a symbol stands for a temporary variable. -/
def Symbol.isTemporary : Symbol → Bool
  | .temporary => true
  | _ => false

/-- Symbols are added. The variables among them that the script defines are counted, also if a name
has been defined before, and are not the system's. -/
structure Progress.Adds (p : Progress) (added : List Symbol) (p' : Progress) : Prop where
  symbols : p'.names.symbols = added ++ p.names.symbols
  statics : p'.statics = p.statics + added.countP Symbol.isDefinition
  temporaries : p'.temporaries = p.temporaries + added.countP Symbol.isTemporary
  own : ∀ d, .definition d ∈ added → d.extension ≠ .system

/-- Symbols that are added in two steps are added together. -/
theorem Progress.Adds.append {added added' : List Symbol} (h : p.Adds added p₁)
    (h' : p₁.Adds added' p') : p.Adds (added' ++ added) p' where
  symbols := by rw [h'.symbols, h.symbols, append_assoc]
  statics := by rw [h'.statics, h.statics, countP_append]; omega
  temporaries := by rw [h'.temporaries, h.temporaries, countP_append]; omega
  own d hd := (mem_append.mp hd).elim (h'.own d) (h.own d)

theorem Progress.adds_named (h : p.names.Extends v n) : ∃ added, p.Adds added (p.named n) := by
  obtain ⟨names, hnames⟩ := h.symbols
  exact ⟨_, hnames, by simp [Function.comp_def, Symbol.isDefinition, named],
    by simp [Function.comp_def, Symbol.isTemporary, named], by simp⟩

/-- No command defines a variable of the system. -/
theorem extension_of_ofName? (h : DeclarationCommand.ofName? name = some d) :
    d.extension ≠ .system := by
  have hall : ∀ c ∈ DeclarationCommand.all, c.extension ≠ .system := by decide
  exact hall d (mem_of_find?_eq_some h)

theorem Defined.adds (hd : DeclarationCommand.ofName? command = some d)
    (h : Defined d name dims value p p') : ∃ added, p.Adds added p' := by
  cases h with
  | static =>
    refine ⟨[_], rfl, rfl, rfl, fun declared hmem => ?_⟩
    cases mem_singleton.mp hmem
    exact extension_of_ofName? hd
  | temporary => exact ⟨[_], rfl, rfl, rfl, by simp⟩

/-! ## Progress -/

/-- Commands lead from one progress to another. -/
structure Progress.Leads (v : Vocabulary) (p : Progress) (commands : List Draft.Command)
    (p' : Progress) : Prop where
  symbols : ∃ added, p.Adds added p'
  labels : ∃ added, p'.labels = added ++ p.labels ∧
    added.reverse.map DraftLabel.command = labelPositions p.count commands
  fresh : (p.labels.map DraftLabel.name).Nodup → (p'.labels.map DraftLabel.name).Nodup
  count : p'.count = p.count + commands.length
  numbered : p.names.Numbered v → p'.names.Numbered v
  within : p.names.Numbered v → v.SystemFirst →
    ∀ command ∈ commands, ∀ a ∈ command.arguments, a.Within p'.names.symbols.length
  apart : p.names.Numbered v → p.names.Apart v → p'.names.Apart v

namespace Progress

theorem Leads.refl (v : Vocabulary) (p : Progress) : p.Leads v [] p :=
  ⟨⟨[], rfl, rfl, rfl, by simp⟩, ⟨[], rfl, rfl⟩, id, rfl, id, fun _ _ _ h => (by cases h),
    fun _ => id⟩

theorem Leads.suffix (h : p.Leads v commands p') : p.names.symbols <:+ p'.names.symbols := by
  obtain ⟨added, hadded⟩ := h.symbols
  exact ⟨added, hadded.symbols.symm⟩

/-- Progress goes on where it has come to. -/
theorem Leads.append {first rest : List Draft.Command} (h : p.Leads v first p₁)
    (h' : p₁.Leads v rest p') : p.Leads v (first ++ rest) p' where
  symbols := by
    obtain ⟨added, hadded⟩ := h.symbols
    obtain ⟨added', hadded'⟩ := h'.symbols
    exact ⟨_, hadded.append hadded'⟩
  labels := by
    obtain ⟨added, hlabels, hpositions⟩ := h.labels
    obtain ⟨added', hlabels', hpositions'⟩ := h'.labels
    refine ⟨added' ++ added, by rw [hlabels', hlabels, append_assoc], ?_⟩
    rw [reverse_append, map_append, hpositions, hpositions', h.count, labelPositions_append]
  fresh := h'.fresh ∘ h.fresh
  count := by rw [h'.count, h.count, length_append, Nat.add_assoc]
  numbered := h'.numbered ∘ h.numbered
  within hn hv command hcommand a ha := by
    rcases mem_append.mp hcommand with hfirst | hrest
    · exact (h.within hn hv command hfirst a ha).mono h'.suffix.length_le
    · exact h'.within (h.numbered hn) hv command hrest a ha
  apart hn ha := h'.apart (h.numbered hn) (h.apart hn ha)

theorem leads_named {n : Names} (h : p.names.Extends v n) : p.Leads v [] (p.named n) where
  symbols := adds_named h
  labels := ⟨[], rfl, rfl⟩
  fresh := id
  count := rfl
  numbered := h.numbered
  within _ _ _ h := by cases h
  apart _ := h.apart

/-- A command may name all symbols that its arguments have added. -/
theorem Leads.placed {command : Draft.Command} (h : p.Leads v [] p₁)
    (hkept : command.presence = .kept) (hcommand : p.names.Numbered v → v.SystemFirst →
      ∀ a ∈ command.arguments, a.Within p₁.names.symbols.length) (line : Option Nat) :
    p.Leads v [command] (p₁.placed line) where
  symbols := h.symbols.imp fun _ h => ⟨h.symbols, h.statics, h.temporaries, h.own⟩
  labels := by
    obtain ⟨added, hlabels, hpositions⟩ := h.labels
    exact ⟨added, hlabels, by simpa [labelPositions, hkept] using hpositions⟩
  fresh := h.fresh
  count := by
    show p₁.count + 1 = _
    rw [h.count]
    rfl
  numbered := h.numbered
  within hn hv x hx := by
    rw [mem_singleton.mp hx]
    exact hcommand hn hv
  apart := h.apart

end Progress

/-! ## Calls -/

theorem CompiledArguments.extends (h : CompiledArguments v n keywords given n') :
    n.Extends v n' := by
  induction h with
  | nil => exact .refl v _
  | cons h _ ih => exact h.extends.trans ih

/-- Arguments of a call name known symbols. -/
theorem CompiledArguments.within (h : CompiledArguments v n keywords given n') (hn : n.Numbered v)
    (hv : v.SystemFirst) : ∀ g ∈ given, g.2.Within n'.symbols.length := by
  induction h with
  | nil => simp
  | cons h hrest ih =>
    intro g hg
    rcases mem_cons.mp hg with rfl | hg
    · exact (h.within hn hv _).mono hrest.extends.suffix.length_le
    · exact ih (h.extends.numbered hn) g hg

/-- All arguments in the places that are filled are within the symbols. -/
def PlacesWithin (count : Nat) (places : List (Option String × Option Draft.Argument)) : Prop :=
  ∀ k a, (k, some a) ∈ places → a.Within count

theorem CompiledPlaces.extends (h : CompiledPlaces v n keywords places n') : n.Extends v n' := by
  induction h with
  | nil => exact .refl v _
  | left _ ih => exact ih
  | given _ h _ ih => exact h.extends.trans ih

theorem CompiledPlaces.within (h : CompiledPlaces v n keywords places n') (hn : n.Numbered v)
    (hv : v.SystemFirst) : PlacesWithin n'.symbols.length places := by
  induction h with
  | nil =>
    intro k a ha
    cases ha
  | left _ ih =>
    intro k a ha
    rcases mem_cons.mp ha with heq | ha
    · cases heq
    · exact ih hn k a ha
  | given _ h hrest ih =>
    intro k a ha
    rcases mem_cons.mp ha with heq | ha
    · cases heq
      exact (h.within hn hv _).mono hrest.extends.suffix.length_le
    · exact ih (h.extends.numbered hn) k a ha

theorem CompiledFills.extends (h : CompiledFills v n places body places' n') : n.Extends v n' := by
  induction h with
  | nil => exact .refl v _
  | cons _ h _ _ ih => exact h.extends.trans ih

theorem PlacesWithin.fill {keyword : String} {b : Draft.Argument} (h : PlacesWithin count places)
    (hle : count ≤ count') (hb : b.Within count') :
    PlacesWithin count' (fill keyword b places) := by
  intro k a ha
  obtain ⟨⟨k', a'⟩, hmem, heq⟩ := mem_map.mp ha
  dsimp only at heq
  split at heq
  · cases heq
    exact hb
  · cases heq
    exact (h k a hmem).mono hle

/-- So do those that the body of a call fills in. -/
theorem CompiledFills.within (h : CompiledFills v n places body places' n') (hn : n.Numbered v)
    (hv : v.SystemFirst) (hplaces : PlacesWithin n.symbols.length places) :
    PlacesWithin n'.symbols.length places' := by
  induction h with
  | nil => exact hplaces
  | cons _ h _ _ ih =>
    exact ih (h.extends.numbered hn)
      (hplaces.fill h.extends.suffix.length_le (h.within hn hv _))

/-- A call is one step of progress. -/
theorem leads_keywordCommand (h : p.Leads v [] p₁)
    (hgiven : p.names.Numbered v → v.SystemFirst → ∀ g ∈ given, g.2.Within p₁.names.symbols.length)
    (hcommand : keywordCommand c line name given p₁ = .ok (commands, p')) :
    p.Leads v commands p' := by
  obtain ⟨info, code, arguments, parameters, -, harguments, rfl, rfl⟩ :=
    keywordCommand_eq_ok hcommand
  refine h.placed rfl (fun hn hv a ha => ?_) _
  obtain ⟨g, hg, keyword, id, -, -, rfl⟩ := exists_of_mem_forall₂_right harguments ha
  exact hgiven hn hv g hg

/-! ## Statements -/

theorem Progress.Free.declaredType? (h : p.Free v name) : v.declaredType? name = none := by
  rw [Vocabulary.declaredType?, h.folders]
  exact h.globals

/-- A definition adds a symbol of its own. -/
theorem Defined.leads (h : Defined d name dims value p p')
    (hd : DeclarationCommand.ofName? command = some d) (hfree : p.Free v name) :
    p.Leads v [] p' := by
  have hadds := h.adds hd
  cases h with
  | static _ hlocal => exact ⟨hadds, ⟨[], rfl, rfl⟩, id, rfl,
      fun hn => hn.addStatic hfree.statics hfree.declaredType? hfree.system,
      fun _ _ _ h => (by cases h), fun _ ha => ha.addStatic hfree.folders hfree.globals hlocal⟩
  | temporary => exact ⟨hadds, ⟨[], rfl, rfl⟩, id, rfl,
      fun hn => hn.addTemporary _ _, fun _ _ _ h => (by cases h),
      fun hn ha => ha.addTemporary hn hfree.statics hfree.declaredType? _⟩

theorem CompiledDefinition.leads {value : Option Expr}
    (h : CompiledDefinition c p line name target value commands p') :
    p.Leads c.vocabulary commands p' := by
  obtain ⟨hd, -, hfree, hdefined, ht, hw, -⟩ := h
  have hleads := hdefined.leads hd hfree
  refine (hleads.append (Progress.leads_named (ht.extends.trans hw.extends))).placed rfl
    (fun hn hv a ha => ?_) _
  have hn₁ := hleads.numbered hn
  simp only [Progress.command, mem_cons, not_mem_nil, or_false] at ha
  rcases ha with rfl | rfl
  · exact (ht.within hn₁ hv _).mono hw.extends.suffix.length_le
  · exact hw.within (ht.extends.numbered hn₁) hv _

theorem CompiledStore.leads {op : Option BinaryOp}
    (h : CompiledStore c p line target op value commands p') :
    p.Leads c.vocabulary commands p' := by
  obtain ⟨ht, -, hw, -⟩ := h
  refine (Progress.leads_named (ht.extends.trans hw.extends)).placed rfl (fun hn hv a ha => ?_) _
  simp only [Progress.command, mem_cons, not_mem_nil, or_false] at ha
  rcases ha with rfl | rfl
  · exact (ht.within hn hv _).mono hw.extends.suffix.length_le
  · exact hw.within (ht.extends.numbered hn) hv _

/-- A statement without blocks leads on. -/
theorem CompiledSimple.leads (h : CompiledSimple c depth p s commands p') :
    p.Leads c.vocabulary commands p' := by
  cases h with
  | pass => exact .refl _ _
  | label hfresh =>
    refine ⟨⟨[], rfl, rfl, rfl, by simp⟩, ⟨[_], rfl, rfl⟩, fun hnames => ?_, rfl, id, by simp,
      fun _ => id⟩
    refine nodup_cons.mpr ⟨fun hmem => ?_, hnames⟩
    obtain ⟨l, hl, hname⟩ := mem_map.mp hmem
    exact hfresh l hl hname
  | codec => exact ⟨⟨[], rfl, rfl, rfl, by simp⟩, ⟨[], rfl, rfl⟩, id, rfl, id, by simp, fun _ => id⟩
  | word =>
    refine (Progress.Leads.refl _ p).placed rfl (fun _ _ a ha => ?_) _
    rw [mem_singleton.mp ha]
    trivial
  | returnCode =>
    refine ⟨⟨[], rfl, rfl, rfl, by simp⟩, ⟨[], rfl, rfl⟩, id, rfl, id, ?_, fun _ => id⟩
    intro _ _ command hcommand a ha
    rw [mem_singleton.mp hcommand] at ha
    rw [mem_singleton.mp ha]
    trivial
  | evaluate he =>
    refine (Progress.leads_named he.extends).placed rfl (fun hn hv a ha => ?_) _
    rw [mem_singleton.mp ha]
    exact he.within hn hv _
  | call hgiven hcommand =>
    exact leads_keywordCommand (Progress.leads_named hgiven.extends)
      (fun hn hv => hgiven.within hn hv) hcommand
  | context hplaces _ hfills hgiven hcommand =>
    refine leads_keywordCommand (Progress.leads_named (hplaces.extends.trans hfills.extends))
      (fun hn hv g hg => ?_) hcommand
    subst hgiven
    exact hfills.within (hplaces.extends.numbered hn) hv (hplaces.within hn hv) g.1 g.2
      (mem_map.mpr ⟨g, hg, rfl⟩)
  | define h | defineAs h | store _ h | augment h => exact h.leads

/-- The command of a condition leads on, whatever it jumps to. -/
theorem leads_condition {test : Expr} {command : Draft.Command}
    (htest : Compiled v p.names test t n) (hkept : command.presence = .kept)
    (hcommand : ∀ a ∈ command.arguments, a = t.argument .set ∨
      ∀ count, a.data.Accepted (checkSymbol count)) (line : Option Nat) :
    p.Leads v [command] ((p.named n).placed line) := by
  refine (Progress.leads_named htest.extends).placed hkept (fun hn hv a ha => ?_) line
  rcases hcommand a ha with rfl | hother
  · exact htest.within hn hv _
  · exact hother _

theorem leads_bare (v : Vocabulary) (p : Progress) (line : Option Nat) (code : Nat) :
    p.Leads v [p.command line code] (p.placed line) :=
  (Progress.Leads.refl v p).placed rfl (fun _ _ _ ha => by cases ha) line

theorem mem_openChain {close : Nat} (ha : a ∈ (openChain head t next close).arguments) :
    a = t.argument .set ∨ ∀ count, a.data.Accepted (checkSymbol count) := by
  simp only [openChain, mem_cons, not_mem_nil, or_false] at ha
  rcases ha with rfl | rfl | rfl
  · exact .inl rfl
  · cases next <;> exact .inr fun _ => trivial
  · exact .inr fun _ => trivial

theorem mem_continueChain (ha : a ∈ (continueChain head t next).arguments) :
    a = t.argument .set ∨ ∀ count, a.data.Accepted (checkSymbol count) := by
  simp only [continueChain, mem_cons, not_mem_nil, or_false] at ha
  rcases ha with rfl | rfl | rfl
  · exact .inl rfl
  · cases next with
    | some => exact .inr fun _ => trivial
    | none => exact .inr fun _ _ hi => by cases hi
  · exact .inr fun _ _ hi => by cases hi

mutual

/-- A statement leads on through its blocks. -/
theorem CompiledStatement.leads {depth : Depth} {s : Stmt} {commands : List Draft.Command} :
    ∀ {p p' : Progress}, CompiledStatement c depth p s commands p' →
      p.Leads c.vocabulary commands p'
  | _, _, .simple h => h.leads
  | _, _, .branch htest _ hbody hchain _ =>
    (((leads_condition htest rfl (fun _ => mem_openChain) _).append hbody.leads).append
      hchain.leads).append (leads_bare _ _ _ _)
  | _, _, .loop htest _ hbody _ => by
    refine ((leads_condition htest rfl (fun a ha => ?_) _).append hbody.leads).append
      (leads_bare _ _ _ _)
    simp only [Progress.command, mem_cons, not_mem_nil, or_false] at ha
    rcases ha with rfl | rfl
    · exact .inl rfl
    · exact .inr fun _ => trivial

theorem CompiledStatements.leads {depth : Depth} {body : List Stmt}
    {commands : List Draft.Command} :
    ∀ {p p' : Progress}, CompiledStatements c depth p body commands p' →
      p.Leads c.vocabulary commands p'
  | _, _, .nil => .refl _ _
  | _, _, .cons h hrest => h.leads.append hrest.leads

theorem CompiledChain.leads {depth : Depth} {elseBody : List Stmt} {next : Option Nat}
    {commands : List Draft.Command} :
    ∀ {p p' : Progress}, CompiledChain c depth p elseBody next commands p' →
      p.Leads c.vocabulary commands p'
  | _, _, .nil => .refl _ _
  | p, _, .elseIf _ htest _ hbody hchain =>
    (((leads_bare _ _ _ _).append
      (leads_condition (p := p.placed none) htest rfl (fun _ => mem_continueChain) _)).append
      hbody.leads).append hchain.leads
  | _, _, .otherwise _ _ _ hbody =>
    ((leads_bare _ _ _ _).append (leads_bare _ _ _ _)).append hbody.leads

end

/-- **No instruction of a script names a symbol that the script does not have.** -/
theorem accepted_of_statements {codec : Codec} (hv : c.vocabulary.SystemFirst)
    (h : statements c depth body { codec } = .ok (commands, p)) :
    ∀ command ∈ commands, ∀ a ∈ command.arguments,
      a.data.Accepted (checkSymbol p.names.symbols.length) :=
  (compiledStatements_of_statements h).leads.within (Names.numbered_empty _) hv

/-! ## The places of symbols -/

/-- The place of a number in an instruction that names a symbol. -/
def useOf? (s : Nat) : Nat × Nat × Instr → Option Nat
  | (offset, _, .access _ _ number) =>
    if number = firstUserNumber + s then some (offset + numberOffset) else none
  | _ => none

theorem useOf?_eq_some {s o offset size : Nat} :
    useOf? s (offset, size, i) = some o ↔
      (∃ kind mark, i = .access kind mark (firstUserNumber + s)) ∧ o = offset + numberOffset := by
  unfold useOf?
  cases i with
  | access kind mark number =>
    dsimp only
    split
    · next h => simp [h, eq_comm]
    · next h => simp [h]
  | _ => simp

/-- A use is noted for its own symbol only. -/
theorem getElem?_noteUse (offset size s : Nat) (i : Instr) (uses : Array (List Nat)) :
    (noteUse offset i uses)[s]? = uses[s]?.map ((useOf? s (offset, size, i)).toList ++ ·) := by
  unfold noteUse useOf?
  cases i with
  | access kind mark number =>
    dsimp only
    split
    · rw [if_neg (by omega)]
      simp
    · rw [Array.getElem?_modify]
      by_cases hs : number = firstUserNumber + s
      · rw [if_pos hs, if_pos (by omega)]
        rfl
      · rw [if_neg hs, if_neg (by omega)]
        simp
  | _ => simp

/-- Every symbol has all places that name it, and no others. -/
theorem getElem?_symbolUses {s : Nat} (hs : s < count) (instructions : List (Nat × Nat × Instr)) :
    (symbolUses count instructions)[s]? = some (instructions.filterMap (useOf? s)) := by
  induction instructions with
  | nil => simp [symbolUses, hs]
  | cons x rest ih =>
    obtain ⟨offset, size, i⟩ := x
    rw [show symbolUses count ((offset, size, i) :: rest) =
      noteUse offset i (symbolUses count rest) from rfl, getElem?_noteUse offset size, ih,
      filterMap_cons]
    cases useOf? s (offset, size, i) <;> rfl

theorem size_symbolUses (count : Nat) (instructions : List (Nat × Nat × Instr)) :
    (symbolUses count instructions).size = count := by
  induction instructions with
  | nil => simp [symbolUses]
  | cons x rest ih =>
    have hnote (offset : Nat) (i : Instr) (uses : Array (List Nat)) :
        (noteUse offset i uses).size = uses.size := by
      unfold noteUse
      split
      · split <;> simp
      · rfl
    rw [symbolUses, foldr_cons, hnote]
    exact ih

/-! ## Scripts -/

/-- A script is compiled: to commands first, which are then assembled. -/
structure CompilesTo (options : CompileOptions) (vocabulary : Vocabulary) (source : List Stmt)
    (commands : List Draft.Command) (p : Progress) (a : Draft.Assembly)
    (compiled : CompiledScript) : Prop where
  statements : Compiling.statements (options.context vocabulary) {} source
    { codec := options.codec } = .ok (commands, p)
  assembly : Draft.assemble options.version options.shownVersion p.codec
    (checkSymbol p.names.symbols.length) commands = .ok a
  segments : compiled.segments = a.segments
  offsets : compiled.symbols.map SymbolUse.offsets =
    (symbolUses p.names.symbols.length a.instructions).toList
  symbols : compiled.symbols.map SymbolUse.symbol = p.names.symbols.reverse
  labels : compiled.labels = p.labels.reverse.map
    (DraftLabel.compiled options.version (a.placed.map Draft.Placed.place).toArray)

/-- A script that is compiled comes from statements and an assembly. -/
theorem compilesTo_of_compileScript (h : compileScript options vocabulary source = .ok compiled) :
    ∃ commands p a, CompilesTo options vocabulary source commands p a compiled := by
  obtain ⟨⟨commands, p⟩, hstatements, h⟩ := of_bind h
  obtain ⟨a, hassembly, h⟩ := of_bind h
  rw [length_reverse] at hassembly
  cases h
  have hlength : (symbolUses p.names.symbols.reverse.length a.instructions).toList.length =
      p.names.symbols.reverse.length := by
    rw [Array.length_toList, size_symbolUses]
  refine ⟨commands, p, a, hstatements, hassembly, rfl, ?_, ?_, rfl⟩
  · rw [← map_uncurry_zip_eq_zipWith, map_map]
    exact (map_fst_zip (Nat.le_of_eq hlength)).trans (by rw [length_reverse])
  · rw [← map_uncurry_zip_eq_zipWith, map_map]
    exact map_snd_zip (Nat.le_of_eq hlength.symm)

/-! ## The variables of scripts -/

/-- The counts of a compiled script are those of its symbols. -/
structure CompiledScript.Counted (script : CompiledScript) : Prop where
  statics : script.statics = script.symbols.countP fun u => u.symbol.isDefinition
  temporaries : script.temporaries = script.symbols.countP fun u => u.symbol.isTemporary

theorem CompilesTo.adds {a : Draft.Assembly}
    (h : CompilesTo options vocabulary source commands p a compiled) :
    Progress.Adds { codec := options.codec } p.names.symbols p := by
  obtain ⟨added, hadded⟩ := (compiledStatements_of_statements h.statements).leads.symbols
  cases hadded.symbols.trans (append_nil added)
  exact hadded

section

variable (h : compileScript options vocabulary source = .ok compiled)
include h

/-- The variables that a script defines are counted as its symbols tell. -/
theorem counted_of_compileScript : compiled.Counted := by
  obtain ⟨commands, p, a, hto⟩ := compilesTo_of_compileScript h
  have hsymbols (f : Symbol → Bool) :
      compiled.symbols.countP (fun u => f u.symbol) = 0 + p.names.symbols.countP f := by
    rw [← countP_reverse (l := p.names.symbols), ← hto.symbols, countP_map, Nat.zero_add]
    rfl
  obtain ⟨⟨_, p'⟩, hstatements, h⟩ := of_bind h
  obtain ⟨_, -, h⟩ := of_bind h
  cases h
  cases hto.statements.symm.trans hstatements
  exact ⟨hto.adds.statics.trans (hsymbols _).symm, hto.adds.temporaries.trans (hsymbols _).symm⟩

end

end NovelScript
