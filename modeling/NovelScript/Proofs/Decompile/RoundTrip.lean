import NovelScript.Proofs.Decompile.Naming
import NovelScript.Proofs.Decompile.Readable
import NovelScript.Proofs.Decompile.Statements
import NovelScript.Proofs.Link.Relocation
import NovelScript.Proofs.Session

/-!
# Compiled scripts are restored

A plain script is compiled, its variables get numbers, and it is encrypted, read back and decompiled
with tables that hold its variables and labels. What comes out is the script again, with the names
of the decompiler and in the form of `restoreAll`.
-/

namespace NovelScript

open List Draft Project

variable {source : List Stmt} {own : Option Nat} {waiting : WaitingLabels}
  {data : List (List (List Draft.Piece))} {d : Decompiler} {options : CompileOptions}
  {vocabulary : Vocabulary} {p : Progress} {a : Draft.Assembly} {compiled : CompiledScript}
  {table : CommandTable}
variable {commands : List Draft.Command} {labels : LabelTable} {links : List Project.Link}
  {known : VariableTable}

/-! ## Labels at the end -/

/-- Whether a statement makes no command: an empty one or a label. -/
def Stmt.isIdle : Stmt → Bool
  | .pass _ => true
  | s => s.label?.isSome

/-- Whether every label is followed by a command. Labels in blocks are, by what closes the block. -/
def labelsAreFollowed : List Stmt → Bool
  | [] => true
  | s :: rest => (s.label?.isNone || rest.any fun t => !t.isIdle) && labelsAreFollowed rest

theorem pending_restore (order : List Wording) (r : Restoring) (s : Stmt) :
    (s.restore order r).2.pending = if s.isIdle then s.label?.toList ++ r.pending else [] := by
  have hline (t : Stmt) (ht : ∀ line, t ≠ .pass line) : (t.restoreLine order r).2.pending =
      if t.isIdle then t.label?.toList ++ r.pending else [] := by
    have hidle : t.isIdle = t.label?.isSome := by
      cases t with
      | pass line => exact absurd rfl (ht line)
      | _ => rfl
    rw [Stmt.restoreLine, hidle]
    cases t.label? <;> rfl
  cases s with
  | pass line => rfl
  | branch line test body elseBody =>
    rw [restore_branch]
    rfl
  | loop line test body elseBody =>
    rw [Stmt.restore]
    rfl
  | _ => exact hline _ fun line h => by cases h

/-- No label is left behind statements that follow it. -/
theorem pending_restoreAll {order : List Wording} {r : Restoring}
    (h : labelsAreFollowed source = true)
    (hr : r.pending = [] ∨ source.any (fun s => !s.isIdle) = true) :
    (restoreAll order r source).2.pending = [] := by
  induction source generalizing r with
  | nil => simpa [restoreAll] using hr
  | cons s rest ih =>
    rw [labelsAreFollowed, Bool.and_eq_true, Bool.or_eq_true] at h
    rw [restoreAll]
    refine ih h.2 ?_
    rw [pending_restore]
    cases hidle : s.isIdle with
    | false => exact .inl rfl
    | true =>
      rw [any_cons, hidle, Bool.not_true, Bool.false_or] at hr
      rcases h.1 with hlabel | hlater
      · refine hr.imp_left fun hpending => ?_
        rw [Option.isNone_iff_eq_none] at hlabel
        simp [hlabel, hpending]
      · exact .inr hlater

/-! ## Labels of a draft -/

/-- The label at a command of a draft. -/
def labelAt (labels : List DraftLabel) (i : Nat) : Wording :=
  ((labels.find? fun l => l.command == i).map DraftLabel.name).getD default

/-- The command that a label stands before. -/
def labelIndex (labels : List DraftLabel) (name : Wording) : Nat :=
  ((labels.find? fun l => l.name == name).map DraftLabel.command).getD 0

theorem find?_of_nodup_map {α κ : Type} [BEq κ] [LawfulBEq κ] {key : α → κ} {items : List α}
    (h : (items.map key).Nodup) {a : α} (ha : a ∈ items) :
    (items.find? fun b => key b == key a) = some a := by
  induction items with
  | nil => cases ha
  | cons b rest ih =>
    rw [map_cons, nodup_cons] at h
    rcases mem_cons.mp ha with rfl | ha
    · simp
    · have hne : key b ≠ key a := fun heq => h.1 (mem_map.mpr ⟨a, ha, heq.symm⟩)
      rw [find?_cons, beq_eq_false_iff_ne.mpr hne]
      exact ih h.2 ha

/-- Labels stand where the draft has them. -/
theorem mem_labelPositions {start i : Nat} :
    i ∈ labelPositions start commands ↔
      ∃ k c, commands[k]? = some c ∧ c.presence = .label ∧ i = start + k := by
  induction commands generalizing start with
  | nil => simp [labelPositions]
  | cons command rest ih =>
    have hrest : (∃ k c, rest[k]? = some c ∧ c.presence = .label ∧ i = start + 1 + k) ↔
        ∃ k c, (command :: rest)[k + 1]? = some c ∧ c.presence = .label ∧ i = start + (k + 1) := by
      simp only [getElem?_cons_succ, show ∀ k, start + 1 + k = start + (k + 1) by omega]
    rw [labelPositions]
    by_cases hlabel : command.presence = .label
    · rw [if_pos hlabel, mem_cons, ih, hrest]
      constructor
      · rintro (rfl | ⟨k, c, h⟩)
        · exact ⟨0, command, rfl, hlabel, rfl⟩
        · exact ⟨k + 1, c, h⟩
      · rintro ⟨k, c, hk, hc, rfl⟩
        cases k with
        | zero => exact .inl rfl
        | succ k => exact .inr ⟨k, c, hk, hc, rfl⟩
    · rw [if_neg hlabel, ih, hrest]
      constructor
      · rintro ⟨k, c, h⟩
        exact ⟨k + 1, c, h⟩
      · rintro ⟨k, c, hk, hc, rfl⟩
        cases k with
        | zero =>
          cases hk
          exact absurd hc hlabel
        | succ k => exact ⟨k, c, hk, hc, rfl⟩

theorem labelPositions_relocate (numbers : Nat → Nat) (start : Nat)
    (commands : List Draft.Command) :
    labelPositions start (commands.map (Draft.Command.relocate numbers)) =
      labelPositions start commands := by
  induction commands generalizing start with
  | nil => rfl
  | cons command rest ih =>
    rw [map_cons, labelPositions, labelPositions, ih]
    rfl

/-- Labels that stand in a draft, each at a position of its own and under a name of its own. -/
structure StandIn (labels : List DraftLabel) (commands : List Draft.Command) : Prop where
  positions : labels.reverse.map DraftLabel.command = labelPositions 0 commands
  names : (labels.map DraftLabel.name).Nodup

namespace StandIn

variable {labels : List DraftLabel} {commands : List Draft.Command}
variable {l : DraftLabel}

section

variable (h : StandIn labels commands)
include h

theorem mem_positions {i : Nat} :
    i ∈ labels.map DraftLabel.command ↔ i ∈ labelPositions 0 commands := by
  rw [← h.positions, map_reverse, mem_reverse]

theorem labelAt_eq (hl : l ∈ labels) : labelAt labels l.command = l.name := by
  have hnodup : (labels.map DraftLabel.command).Nodup := by
    have hpositions := nodup_labelPositions 0 commands
    rwa [← h.positions, map_reverse, nodup_reverse] at hpositions
  rw [labelAt, find?_of_nodup_map hnodup hl]
  rfl

theorem labelIndex_eq (hl : l ∈ labels) : labelIndex labels l.name = l.command := by
  rw [labelIndex, find?_of_nodup_map h.names hl]
  rfl

end

end StandIn

/-- At the start all labels are due. -/
theorem due_start {version : Int} {labels : List DraftLabel}
    (hlength : commands.length = data.length)
    (hkept : ∀ c ∈ commands, c.presence = .kept ∨ c.presence = .label)
    (hlabels : StandIn labels commands)
    (hwaiting : ∀ w ∈ waiting, some w.script = own → ∃ l ∈ labels, l.name = w.name ∧
      w.offset = ((placesOf (placeFrom version {} (commands.zip data))).getD
        l.command {}).readOffset version) :
    Due version own waiting (labelIndex labels) (labelAt labels) 0 {} (commands.zip data) []
      waiting where
  kept x hx := hkept x.1 (of_mem_zip hx).1
  labelled k c d hk hlabel := by
    have hget : commands[k]? = some c := (getElem?_zip_eq_some.mp hk).1
    have hmem : 0 + k ∈ labelPositions 0 commands :=
      mem_labelPositions.mpr ⟨k, c, hget, hlabel, rfl⟩
    obtain ⟨l, hl, hcommand⟩ := mem_map.mp (hlabels.mem_positions.mpr hmem)
    rw [← hcommand, hlabels.labelAt_eq hl, hlabels.labelIndex_eq hl]
  past _ _ _ hlt := absurd hlt (Nat.not_lt_zero _)
  future w hw hown _ := by
    obtain ⟨l, hl, hname, hoffset⟩ := hwaiting w hw hown
    obtain ⟨k, c, hk, hlabel, hcommand⟩ :=
      mem_labelPositions.mp (hlabels.mem_positions.mp (mem_map_of_mem hl))
    rw [Nat.zero_add] at hcommand
    -- A label has a place in the draft although no part is written for it.
    have hplaced := @Draft.map_command_placeFrom version _ _ {} hlength
    rw [← hplaced, getElem?_map, Option.map_eq_some_iff] at hk
    obtain ⟨p, hp, rfl⟩ := hk
    refine ⟨p, ?_, hlabel, ?_, ?_⟩
    · rw [← hname, hlabels.labelIndex_eq hl, hcommand]
      exact hp
    · have hget : (placesOf (placeFrom version {} (commands.zip data)))[k]? =
          some p.place := by
        rw [placesOf, getElem?_toArray, getElem?_map, hp]
        rfl
      rw [hoffset, hcommand, Array.getD_eq_getD_getElem?, hget]
      rfl
    · rw [← hname, hlabels.labelIndex_eq hl, hlabels.labelAt_eq hl]
  before _ h := by cases h
  left _ _ := rfl

theorem offsetOf_compiled (version : Int) (places : Array Draft.Place) (l : DraftLabel) :
    WaitingLabels.offsetOf version (l.compiled version places).position =
      (places.getD l.command {}).readOffset version := by
  unfold WaitingLabels.offsetOf DraftLabel.compiled Draft.Place.readOffset isSplit
  by_cases h : 300 ≤ version
  · simp only [h, decide_true, if_true]
    omega
  · simp only [h, decide_false, if_false, Bool.false_eq_true]

/-! ## Scripts -/

/-- What a compiled script is linked with. -/
def CompiledScript.linkage (compiled : CompiledScript) (vocabulary : Vocabulary)
    (links : List Project.Link) (names : VariableNames) : Linkage :=
  ⟨vocabulary, compiled.symbols.map SymbolUse.symbol, numberOf links, names⟩

theorem ofTables_eq_ok {commands : CommandTable}
    (h : Decompiler.ofTables commands known labels = .ok (d, waiting)) :
    d.version = known.version ∧ labels.version = known.version ∧ d.commands = commands ∧
      VariableNames.ofTable known.entries = .ok d.names ∧
      WaitingLabels.ofTable labels d.scripts = .ok waiting := by
  obtain ⟨scripts, -, h⟩ := of_bind h
  obtain ⟨_, -, h⟩ := of_bind h
  obtain ⟨_, hlabels, h⟩ := of_bind h
  obtain ⟨_, -, h⟩ := of_bind h
  obtain ⟨_, hwaiting, h⟩ := of_bind h
  obtain ⟨_, hnames, h⟩ := of_bind h
  cases h
  rw [require_eq_ok, beq_iff_eq] at hlabels
  exact ⟨rfl, hlabels, rfl, hnames, hwaiting⟩

/-- Labels of a compiled script stand in its draft. -/
theorem standIn_of_compilesTo (h : CompilesTo options vocabulary source commands p a compiled) :
    StandIn p.labels commands := by
  have hleads := (compiledStatements_of_statements h.statements).leads
  obtain ⟨added, hadded, hpositions⟩ := hleads.labels
  rw [append_nil] at hadded
  exact ⟨hadded ▸ hpositions, hleads.fresh nodup_nil⟩

/-- A fold over labelled commands shows the script. -/
theorem statements_eq_ok {number : Int} {script : Script} {s : StatementState}
    {waiting' : WaitingLabels} (hversion : script.version = d.version)
    (hown : d.labelledScript number = .ok own)
    (hfold : script.commands.foldlM (d.labelledStatement own) {} waiting = .ok s waiting') :
    d.statements number script waiting = .ok s.blocks.statements waiting' := by
  refine runBind_eq_ok.mpr ⟨(), waiting, runRequire_eq_ok.mpr ⟨beq_iff_eq.mpr hversion, rfl⟩, ?_⟩
  refine runBind_eq_ok.mpr ⟨own, waiting, ofResult_eq_ok.mpr ⟨hown, rfl⟩, ?_⟩
  exact runBind_eq_ok.mpr ⟨s, waiting', hfold, runPure_eq_ok.mpr ⟨rfl, rfl⟩⟩

/-- The symbols of a script get numbers of sixteen bits, which are written at their places. -/
structure CompiledScript.LinkedBy (compiled : CompiledScript) (links : List Project.Link) :
    Prop where
  offsets : links.map Project.Link.offsets = compiled.symbols.map SymbolUse.offsets
  numbers : ∀ l ∈ links, l.number < 0x10000

/-- The codec of a script keeps the texts of the commands that its statements come to. -/
def KeepsTexts (options : CompileOptions) (vocabulary : Vocabulary) (source : List Stmt) : Prop :=
  ∀ commands p, Compiling.statements (options.context vocabulary) {} source
      { codec := options.codec } = .ok (commands, p) →
    ∀ c ∈ commands, ∀ x ∈ c.arguments, ∀ w ∈ x.data.texts, options.codec.Keeps w

section

variable (h : CompilesTo options vocabulary source commands p a compiled)
include h

/-- A linked script can be read: as the commands of its draft with the numbers of the variables, at
the places of the draft. -/
theorem read_of_linkedBy (hversion : 200 ≤ options.version ∧ options.version < 600)
    (hshown : options.shownVersion = none) (htexts : KeepsTexts options vocabulary source)
    (hlinks : compiled.LinkedBy links) {key : Int} (hkey : 0 ≤ key ∧ key < 256 ^ 4)
    (hforms : Draft.HasForms table)
    (hplainly : Progress.Plainly table { codec := options.codec } commands p) :
    ∃ segments keyBytes rs data,
      changeExpressions (writeLinks · links) compiled.segments = .ok segments ∧
      Script.keyBytes key = .ok keyBytes ∧
      Script.read table.code { key := some key, codec := options.codec }
        (encrypt keyBytes segments).flatten = .ok ⟨options.version, key, rs⟩ ∧
      commands.length = data.length ∧
      placesOf (placeFrom options.version {} ((commands.map
        (Draft.Command.relocate (numberOf links))).zip data)) = placesOf a.placed ∧
      Forall₂ (Draft.Placed.ReadAs table options.version (placesOf a.placed))
        (keptOf options.version (placeFrom options.version {} ((commands.map
          (Draft.Command.relocate (numberOf links))).zip data))) rs := by
  have hassembly := h.assembly
  rw [hshown, hplainly.codec] at hassembly
  -- The linked script is the assembly of the relocated draft.
  obtain ⟨a', hassembly', hplaced, hsegments⟩ :=
    assemble_relocate (numberOf_lt hlinks.numbers) hassembly
  have hwrite :=
    writeLinks_expressionBytes hassembly (hlinks.offsets.trans h.offsets) hlinks.numbers
  rw [← hplaced] at hwrite
  obtain ⟨data, hdata, hplaced', -⟩ := assemble_eq_ok.mp hassembly'
  have hregular : ∀ c ∈ commands.map (Draft.Command.relocate (numberOf links)),
      c.Regular table := by
    intro c hc
    obtain ⟨c', hc', rfl⟩ := mem_map.mp hc
    exact (hplainly.regular c' hc').relocate _
  have hkeeps : ∀ c ∈ commands.map (Draft.Command.relocate (numberOf links)), ∀ x ∈ c.arguments,
      ∀ w ∈ x.data.texts, options.codec.Keeps w := by
    intro c hc x hx w hw
    obtain ⟨c', hc', rfl⟩ := mem_map.mp hc
    obtain ⟨x', hx', rfl⟩ := mem_map.mp hx
    exact htexts commands p h.statements c' hc' x' hx' w (Data.texts_relocate _ ▸ hw)
  have hreadable := readable_of_regular hassembly' hregular hkeeps
  have hkeyBytes := keyBytes_eq hkey
  obtain ⟨rs, hread, hrs⟩ :=
    read_of_readable hforms hversion hkeyBytes hassembly' hreadable
  have hplaces : placesOf a'.placed = placesOf a.placed := by
    rw [hplaced, placesOf_relocate]
  refine ⟨a'.segments, _, rs, data, ?_, hkeyBytes, hread, ?_, hplaced' ▸ hplaces, ?_⟩
  · rw [h.segments]
    exact hsegments _ hwrite
  · rw [← hdata.length_eq, length_map]
  · rw [← hplaced', ← hplaces]
    exact hrs

/-- Labels of the table are due in the script. -/
theorem due_of_holdsLabels
    (hplainly : Progress.Plainly table { codec := options.codec } commands p) {number scripts : Nat}
    (hlabels : HoldsLabels labels number compiled.labels)
    (hwaiting : WaitingLabels.ofTable labels scripts = .ok waiting)
    (hversion : labels.version = options.version) {numbers : Nat → Nat}
    (hlength : commands.length = data.length)
    (hplaces : placesOf (placeFrom options.version {}
      ((commands.map (Draft.Command.relocate numbers)).zip data)) = placesOf a.placed) :
    Due options.version (if scripts ≤ number then none else some number) waiting
      (labelIndex p.labels) (labelAt p.labels) 0 {}
      ((commands.map (Draft.Command.relocate numbers)).zip data) [] waiting := by
  have hstand := standIn_of_compilesTo h
  refine due_start (by rwa [length_map]) (fun c hc => ?_)
    ⟨by rw [labelPositions_relocate]; exact hstand.positions, hstand.names⟩ fun w hw hown => ?_
  · obtain ⟨c', hc', rfl⟩ := mem_map.mp hc
    exact (hplainly.regular c' hc').presence.imp_right And.left
  · obtain ⟨compiledLabel, hmem, hname, hoffset⟩ :=
      exists_label_of_waiting hlabels hwaiting hw hown
    rw [h.labels] at hmem
    obtain ⟨l, hl, rfl⟩ := mem_map.mp hmem
    refine ⟨l, mem_reverse.mp hl, hname, ?_⟩
    rw [hoffset, hversion, offsetOf_compiled, hplaces]
    rfl

end

/-! ## The whole way -/

/-- Links a compiled script, encrypts it, reads it back and decompiles it. -/
def decompileLinked (d : Decompiler) (waiting : WaitingLabels) (number key : Int) (codec : Codec)
    (links : List Project.Link) (compiled : CompiledScript) : Except Fault (List Stmt) := do
  let segments ← changeExpressions (writeLinks · links) compiled.segments
  let keyBytes ← Script.keyBytes key
  let script ← Script.read d.commands.code { key := some key, codec }
    (encrypt keyBytes segments).flatten
  match d.statements number script waiting with
  | .ok statements _ => .ok statements
  | .error fault _ => .error fault

/-- Tables hold a linked script: its commands and those that blocks are told by, its variables under
their numbers, and its labels under the number of the script. -/
structure HoldScript (vocabulary : Vocabulary) (version : Int) (compiled : CompiledScript)
    (links : List Project.Link) (number : Nat) (table : CommandTable) (known : VariableTable)
    (labels : LabelTable) : Prop where
  commands : table.commands = vocabulary.commands
  roles : ∀ name ∈ "LET" :: BlockRole.names.map Prod.fst, ∃ n, table.code name = .ok n
  version : known.version = version
  linked : HoldsVariables known.entries vocabulary (compiled.symbols.map SymbolUse.symbol)
    (numberOf links)
  labels : HoldsLabels labels number compiled.labels

/-- A linked script can be read and decompiled with tables that hold it, and its statements are
restored. -/
theorem decompiles_of_linkedBy {options : CompileOptions} {vocabulary : Vocabulary}
    {source : List Stmt} {commands : List Draft.Command} {p : Progress} {a : Draft.Assembly}
    {compiled : CompiledScript} (h : CompilesTo options vocabulary source commands p a compiled)
    (hversion : options.version = 290 ∨ 300 ≤ options.version ∧ options.version < 600)
    (hshown : options.shownVersion = none) (htexts : KeepsTexts options vocabulary source)
    (hplain : allArePlain options.version source = true)
    (hlinks : compiled.LinkedBy links) {key : Int} (hkey : 0 ≤ key ∧ key < 256 ^ 4) {number : Nat}
    {table : CommandTable} {labels : LabelTable}
    (htables : HoldScript vocabulary options.version compiled links number table known labels)
    {d : Decompiler} {waiting : WaitingLabels}
    (hd : Decompiler.ofTables table known labels = .ok (d, waiting))
    (hsound : (compiled.linkage vocabulary links d.names).Sound) :
    ∃ segments keyBytes script waiting',
      changeExpressions (writeLinks · links) compiled.segments = .ok segments ∧
      Script.keyBytes key = .ok keyBytes ∧
      Script.read d.commands.code { key := some key, codec := options.codec }
        (encrypt keyBytes segments).flatten = .ok script ∧
      d.statements number script waiting =
        .ok (restoreAll (labels.namesOf number)
          ⟨(compiled.linkage vocabulary links d.names).startNames, []⟩ source).1 waiting' := by
  obtain ⟨hdVersion, hlabelsVersion, rfl, hnames, hwaiting⟩ := ofTables_eq_ok hd
  rw [htables.version] at hdVersion hlabelsVersion
  have hstatements := compiledStatements_of_statements h.statements
  have hplainly := hstatements.plainly htables.commands hplain
  have hroles : d.HasRoles := htables.roles
  obtain ⟨segments, keyBytes, rs, data, hsegments, hkeyBytes, hread, hlength, hplaces, hrs⟩ :=
    read_of_linkedBy h (by omega) hshown htexts hlinks hkey hroles.forms hplainly
  -- what happens at each command, with the labels before it
  have hdue := due_of_holdsLabels h hplainly htables.labels hwaiting hlabelsVersion hlength hplaces
  obtain ⟨events, hevents, hrun⟩ := exists_happens (d := d) hdue hrs
  rw [map_fst_zip (by rw [length_map]; exact Nat.le_of_eq hlength)] at hevents
  have hsymbols : (compiled.linkage vocabulary links d.names).symbols = p.names.symbols.reverse :=
    h.symbols
  have hk : (compiled.linkage vocabulary links d.names).KnownTo d := by
    refine ⟨hsound, hroles, htables.commands, rfl, ?_⟩
    rw [hdVersion, isSplit, decide_eq_true_iff]
    omega
  have hpart : (compiled.linkage vocabulary links d.names).Part d (labelAt p.labels)
      { codec := options.codec } commands p events := by
    refine ⟨by rw [hdVersion]; exact hevents,
      fun label hlabel => (standIn_of_compilesTo h).labelAt_eq hlabel,
      ⟨[], by rw [append_nil, hsymbols]⟩, ?_⟩
    have hassembly := h.assembly
    rw [hshown] at hassembly
    exact spelled_of_assemble hassembly hplainly.regular
  have hrestores : (compiled.linkage vocabulary links d.names).Restores d (labels.namesOf number)
      (labelAt p.labels) { codec := options.codec } commands p _ :=
    hstatements.restores hk (by rw [hdVersion]; exact hplain)
  obtain ⟨locals, -, hreact⟩ := hrestores events ⟨_, []⟩ [] hpart (Linkage.follows_start hsound)
  rw [order_eq_namesOf hwaiting htables.labels.nonneg] at hrun
  obtain ⟨waiting', hfold⟩ := hrun _ _ (hreact {} [])
  have hresult : d.statements number ⟨options.version, key, rs⟩ waiting = .ok _ waiting' :=
    statements_eq_ok hdVersion.symm (labelledScript_natCast d number) hfold
  rw [nil_append, OpenBlocks.statements_add] at hresult
  exact ⟨segments, keyBytes, _, waiting', hsegments, hkeyBytes, hread, hresult⟩

/-- **A plain script is restored** when it is linked, encrypted, read back and decompiled with
tables that hold it. The statements are its own in their restored form, no label is lost, and
different variables have different names. -/
theorem decompileLinked_eq_restoreAll {options : CompileOptions} {vocabulary : Vocabulary}
    {source : List Stmt} {compiled : CompiledScript}
    (hcompiled : compileScript options vocabulary source = .ok compiled)
    (hversion : options.version = 290 ∨ 300 ≤ options.version ∧ options.version < 600)
    (hshown : options.shownVersion = none) (htexts : KeepsTexts options vocabulary source)
    (hv : vocabulary.SystemFirst) (hplain : allArePlain options.version source = true)
    (hfollowed : labelsAreFollowed source = true) {links : List Project.Link}
    (hlinks : compiled.LinkedBy links) {key : Int} (hkey : 0 ≤ key ∧ key < 256 ^ 4) {number : Nat}
    {table : CommandTable} {known : VariableTable} {labels : LabelTable}
    (htables : HoldScript vocabulary options.version compiled links number table known labels)
    {d : Decompiler} {waiting : WaitingLabels}
    (hd : Decompiler.ofTables table known labels = .ok (d, waiting)) :
    let l := compiled.linkage vocabulary links d.names
    let restored := restoreAll (labels.namesOf number) ⟨l.startNames, []⟩ source
    decompileLinked d waiting number key options.codec links compiled = .ok restored.1 ∧
      restored.2.pending = [] ∧ l.KeepsApart := by
  intro l restored
  obtain ⟨commands, p, a, h⟩ := compilesTo_of_compileScript hcompiled
  obtain ⟨-, -, -, hnames, -⟩ := ofTables_eq_ok hd
  have hsymbols : l.symbols = p.names.symbols.reverse := h.symbols
  have hnumbered := (compiledStatements_of_statements h.statements).leads.numbered
    (Names.numbered_empty _)
  -- The tables hold the script, so its names are sound whatever else they hold.
  have hsound : l.Sound := sound_of_holdsVariables hv hnumbered hsymbols hnames htables.linked
  obtain ⟨segments, keyBytes, script, waiting', hsegments, hkeyBytes, hread, hresult⟩ :=
    decompiles_of_linkedBy h hversion hshown htexts hplain hlinks hkey htables hd hsound
  refine ⟨?_, pending_restoreAll hfollowed (.inl rfl),
    Linkage.keepsApart_of_holdsVariables hsound hnumbered hsymbols hnames htables.linked⟩
  rw [decompileLinked, hsegments, ok_bind, hkeyBytes, ok_bind, hread, ok_bind, hresult]

/-! ## A script as an example -/

/-- A vocabulary with the commands of blocks and two that define variables. -/
def storyVocabulary : Vocabulary where
  commands := ("INT" :: "S_STR" :: "LET" :: BlockRole.names.map Prod.fst).map fun name => ⟨name, []⟩
  system := [("level", .int, 5)]

/-- A script with a label, definitions and blocks, over the names of its variables. -/
def story (x s level : String) (line : Nat → Nat) : List Stmt :=
  [.assign (line 1) [.name "LBL"] (.text (.ofString "again")),
    .assign (line 2) [.subscript (.name "INT") (.attribute (.name x) "N")] (.int 7),
    .expression (line 3) (.subscript (.name "S_STR") (.attribute (.name s) "S")),
    .loop (line 4) (.compare (.attribute (.name level) "N") [(.lt, .attribute (.name x) "N")])
      [.branch (line 5) (.attribute (.name level) "N") [.pass (line 6)]
          [.expression (line 7) (.text (.ofString "Hello"))],
        .augment (line 8) (.attribute (.name level) "N") .add (.int 1)] [],
    .expression (line 9) (.yield (some (.int 3)))]

/-- Its symbols, with their places. -/
def storySymbols : List SymbolUse :=
  [⟨[4, 31], .temporary⟩, ⟨[14], .definition ⟨"s", .declared, [], .text (.ofString "")⟩⟩]

/-- Numbers for the two symbols of the story. -/
def storyLinks : List Project.Link := [⟨[4, 31], 7⟩, ⟨[14], 6⟩]

/-- The commands of the story. -/
def storyTable : CommandTable := ⟨480, storyVocabulary.commands, [], []⟩

/-- Its variables. -/
def storyVariables : VariableTable :=
  ⟨480, [⟨.global, .system, 0, 5, [], some (.int 0)⟩,
    ⟨.static, .declared, 0, 6, [], some (.text [])⟩]⟩

/-- Its label. -/
def storyLabels : LabelTable := ⟨480, [⟨.ofString "again", 0, 0, 0, 0, 0⟩]⟩

/-- The names that its variables are shown by. -/
def storyNames : VariableNames :=
  replicate 5 none ++ [some ⟨"__Sys5", ⟨.global, .system, 0, 5, [], some (.int 0)⟩⟩,
    some ⟨"sStr6", ⟨.static, .declared, 0, 6, [], some (.text [])⟩⟩]

theorem exists_code_of_isSome {table : CommandTable} {names : List String}
    (h : ∀ name ∈ names, (table.code? name).isSome = true) :
    ∀ name ∈ names, ∃ n, table.code name = .ok n := by
  intro name hname
  obtain ⟨n, hn⟩ := Option.isSome_iff_exists.mp (h name hname)
  exact ⟨n, orFault_eq_ok.mpr hn⟩

theorem systemFirst_story : storyVocabulary.SystemFirst := by
  intro name type number h
  rcases Names.lookup_cons_eq_some h with ⟨-, heq⟩ | h
  · cases heq
    decide
  · cases h

theorem holdScript_story (hsymbols : compiled.symbols = storySymbols)
    (hlabels : compiled.labels = [⟨0, .ofString "again", 0, 0⟩]) :
    HoldScript storyVocabulary 480 compiled storyLinks 0 storyTable storyVariables storyLabels where
  commands := rfl
  roles := exists_code_of_isSome (by decide +kernel)
  version := rfl
  linked := by
    rw [hsymbols]
    refine ⟨by decide, by decide, ?_, ?_, ?_, ?_, by decide⟩
    · intro x type number h
      rcases Names.lookup_cons_eq_some h with ⟨-, heq⟩ | h
      · cases heq
        exact ⟨_, mem_cons_self, .int 0, rfl, rfl, rfl⟩
      · cases h
    · intro s declared hs
      match s with
      | 0 => cases hs
      | 1 =>
        cases hs
        exact ⟨_, mem_cons_of_mem _ mem_cons_self, .text [], rfl, rfl, rfl⟩
      | s + 2 => cases hs
    · intro s x type hs
      match s with
      | 0 | 1 | s + 2 => cases hs
    · intro s hs v hv hnumber
      match s with
      | 0 =>
        simp only [storyVariables, mem_cons, not_mem_nil, or_false] at hv
        rcases hv with rfl | rfl <;> cases hnumber
      | 1 | s + 2 => cases hs
  labels := by
    refine ⟨by decide, fun name position => ?_⟩
    rw [hlabels]
    simp [storyLabels]

/-- Options with a page of Japanese texts. -/
def storyOptions : CompileOptions := { version := 480, codec := Codec.japanese }

/-- The texts of the story. -/
def storyTexts : List Wording := [.ofString "\"\"", .ofString "Hello"]

theorem keepsTexts_story :
    KeepsTexts storyOptions storyVocabulary (story "x" "s" "level" id) := by
  have htexts : ((Compiling.statements (storyOptions.context storyVocabulary) {}
      (story "x" "s" "level" id) { codec := storyOptions.codec }).map fun r =>
        r.1.flatMap fun c => c.arguments.flatMap fun x => x.data.texts).toOption =
      some storyTexts := by decide +kernel
  have hkept : ∀ w ∈ storyTexts, ((storyOptions.codec.encodeWording w >>=
      storyOptions.codec.decode).map id).toOption = some w.shown := by decide +kernel
  intro commands p h c hc x hx w hw bytes hbytes
  rw [h] at htexts
  have hmem : w ∈ storyTexts := by
    rw [← Option.some.inj htexts]
    exact mem_flatMap.mpr ⟨c, hc, mem_flatMap.mpr ⟨x, hx, hw⟩⟩
  obtain ⟨s, hs, hshown⟩ := exists_ok_of_map (hkept w hmem)
  rw [hbytes, ok_bind] at hs
  rw [hs, ← hshown]
  rfl

theorem decompileLinked_eq_restoreAll_story :
    ∃ compiled d waiting,
      compileScript storyOptions storyVocabulary (story "x" "s" "level" id) = .ok compiled ∧
      compiled.LinkedBy storyLinks ∧
      Decompiler.ofTables storyTable storyVariables storyLabels = .ok (d, waiting) ∧
      decompileLinked d waiting 0 0x12345678 Codec.japanese storyLinks compiled =
        .ok (story "lInt7" "sStr6" "__Sys5" fun _ => 0) := by
  have hparts : ((compileScript storyOptions storyVocabulary (story "x" "s" "level" id)).map
      fun c => (c.symbols, c.labels)).toOption =
      some (storySymbols, [⟨0, .ofString "again", 0, 0⟩]) := by decide +kernel
  have hnames : ((Decompiler.ofTables storyTable storyVariables storyLabels).map
      fun x => x.1.names).toOption = some storyNames := by decide +kernel
  have hkey : (0 : Int) ≤ 0x12345678 ∧ (0x12345678 : Int) < 256 ^ 4 := by decide
  obtain ⟨compiled, hcompiled, hparts⟩ := exists_ok_of_map hparts
  obtain ⟨⟨d, waiting⟩, hd, hnames⟩ := exists_ok_of_map hnames
  obtain ⟨hsymbols, hlabels⟩ := Prod.mk.inj hparts
  have hlinks : compiled.LinkedBy storyLinks := ⟨by rw [hsymbols]; rfl, by decide⟩
  have hresult := (decompileLinked_eq_restoreAll hcompiled (.inr (by decide)) rfl
    keepsTexts_story systemFirst_story (by decide +kernel) (by decide +kernel) hlinks hkey
    (holdScript_story hsymbols hlabels) hd).1
  refine ⟨compiled, d, waiting, hcompiled, hlinks, hd, hresult.trans ?_⟩
  rw [CompiledScript.linkage, hsymbols, show d.names = storyNames from hnames]
  rfl

/-! ## Scripts that are not restored -/

/-- A script that is only a text. -/
def greeting : List Stmt := [.expression 1 (.text (.ofString "Hello"))]

/-- The greeting compiled for a version, with commands of some names. -/
def compiledGreeting (version : Int) (names : List String) : Except Fault CompiledScript :=
  compileScript { version, codec := Codec.ascii } { commands := names.map fun name => ⟨name, []⟩ }
    greeting

/-- The greeting compiled, linked and decompiled. -/
def greetingAfter (version : Int) (names : List String) : Except Fault (List Stmt) := do
  let compiled ← compiledGreeting version names
  let (d, waiting) ← Decompiler.ofTables ⟨version, names.map fun name => ⟨name, []⟩, [], []⟩
    ⟨version, storyVariables.entries⟩ ⟨version, storyLabels.labels⟩
  decompileLinked d waiting 1 0 Codec.ascii [] compiled

/-- A script that sets a variable of its own to a known one. -/
def copying : List Stmt :=
  [.assign 1 [.subscript (.name "INT") (.attribute (.name "x") "N")] (.int 7),
    .assign 2 [.attribute (.name "x") "N"] (.attribute (.name "level") "N")]

/-- The script compiled, linked and decompiled, with a number of the variable that is known. -/
def copyingAfter (number : Nat) : Except Fault (List Stmt) := do
  let compiled ← compileScript storyOptions
    { storyVocabulary with system := [("level", .int, number)] } copying
  let (d, waiting) ← Decompiler.ofTables storyTable
    ⟨480, [⟨.global, .declared, 0, number, [], some (.int 0)⟩]⟩ storyLabels
  decompileLinked d waiting 1 0 Codec.ascii
    (compiled.symbols.map fun symbol => ⟨symbol.offsets, 1001⟩) compiled

/-- The variable that the second statement of a script sets, and the one that it sets it to. -/
def copied? : List Stmt → Option (String × String)
  | [_, .assign _ [.attribute (.name x) _] (.attribute (.name y) _)] => some (x, y)
  | _ => none

/-- Neither a version that readers do not know nor a table without the commands of blocks lets a
script be restored, though it is compiled with either. And a known variable whose number is not
below those of all others is taken for one of the script's own. -/
theorem greeting_not_restored :
    (greetingAfter 480 (BlockRole.names.map Prod.fst)).toOption.isSome = true ∧
    (compiledGreeting 600 (BlockRole.names.map Prod.fst)).toOption.isSome = true ∧
    (greetingAfter 600 (BlockRole.names.map Prod.fst)).toOption.isSome = false ∧
    (compiledGreeting 480 ["IF", "ELSE", "LOOP", "WORD"]).toOption.isSome = true ∧
    (greetingAfter 480 ["IF", "ELSE", "LOOP", "WORD"]).toOption.isSome = false ∧
    (copyingAfter 999).toOption.bind copied? = some ("lInt1001", "gInt999") ∧
    (copyingAfter 1000).toOption.bind copied? = some ("lInt1001", "lInt1001") := by
  decide +kernel

end NovelScript
