import NovelScript.Proofs.Assembly.LinesRead
import NovelScript.Proofs.Compile.LineNumbers
import NovelScript.Proofs.Decompile.Listing
import NovelScript.Proofs.Decompile.Readable

/-!
# The order of lines in a listing

A listing is given up when a command has a lesser line than the one before. The lines of a compiled
script never decrease, so that does not happen to it if it is read with the lines that were written
(`lineOrder_of_compileScript`). Below version 300 that takes commands whose arguments are as long as
the reader takes them to be. The compiler writes the short argument for a statement of its own, but
not for a call of the same command; such a call has an argument only if the command has parameters.
-/

namespace NovelScript

open List
open Script (Context argumentsSize)

variable {version : Int} {parts : List Draft.Part}

/-! ## What the compiler writes -/

/-- A command that is written has arguments of the size that the reader tells from its code, if it
reads any. -/
def Draft.Command.InStep (table : CommandTable) (version : Int) (command : Draft.Command) : Prop :=
  command.presence = .label ∨ ∀ short, table.code "RETURNCODE" = .ok short →
    (command.code.toNat = short → command.arguments.length = 1) →
    total (command.arguments.map (Draft.Argument.size version)) =
      argumentsSize version short command.code.toNat command.arguments.length

/-- The command with the short argument has no parameters, so that no call gives it an argument. -/
def Vocabulary.ShortIsBare (v : Vocabulary) : Prop :=
  ∀ info code, v.command? "RETURNCODE" = some (info, code) → info.parameters = []

theorem total_size_of_ne_number {arguments : List Draft.Argument}
    (h : ∀ a ∈ arguments, ∀ n, a.data ≠ .number n) :
    total (arguments.map (Draft.Argument.size version)) = 12 * arguments.length := by
  induction arguments with
  | nil => rfl
  | cons a rest ih =>
    have ha : a.size version = 12 := by
      have hne := h a mem_cons_self
      unfold Draft.Argument.size
      split
      · next n hn => exact absurd hn (hne n)
      · rfl
    have hrest := ih fun b hb => h b (mem_cons_of_mem _ hb)
    rw [map_cons, length_cons, Nat.mul_succ, ← hrest, Nat.add_comm, ← ha]
    rfl

section

variable {c : CompileContext} {table : CommandTable} {depth : Depth} {p p' : Progress} {s : Stmt}
  {commands : List Draft.Command} {command : Draft.Command} {name : String} {line : Nat}
  {names : List String}

/-- A command that is not the one with the short argument has twelve bytes for each argument. -/
theorem inStep_of_isNamed (htable : table.commands = c.vocabulary.commands)
    (h : command.IsNamed c name line) (hname : name ≠ "RETURNCODE")
    (harguments : ∀ a ∈ command.arguments, ∀ n, a.data ≠ .number n) :
    command.InStep table version := by
  refine .inr fun short hshort _ => ?_
  obtain ⟨code, hcode, heq⟩ := h.code
  have hne : code ≠ short := fun h =>
    hname (CommandTable.code_injective (hcode.code_eq_ok htable) (h ▸ hshort))
  rw [total_size_of_ne_number harguments, argumentsSize, heq, Int.toNat_natCast, if_neg hne]

/-- A call of the command with the short argument is in step if it has no arguments: then it is not
read at all. -/
theorem inStep_keywordCommand (htable : table.commands = c.vocabulary.commands)
    (hname : name = "RETURNCODE" → c.vocabulary.ShortIsBare)
    {given : List (Option String × Draft.Argument)} (hgiven : ∀ g ∈ given, g.2.IsValue)
    (h : Compiling.keywordCommand c line name given p = .ok (commands, p')) :
    ∀ x ∈ commands, x.InStep table version := by
  obtain ⟨info, code, arguments, parameters, hinfo, harguments, rfl, -⟩ := keywordCommand_eq_ok h
  rw [forall_mem_singleton]
  by_cases hshort : name = "RETURNCODE"
  · subst hshort
    have hbare := hname rfl info code hinfo
    refine .inr fun short hcode hone => ?_
    have hfound : table.code "RETURNCODE" = .ok code :=
      (CommandTable.code_of_command? htable hinfo).1
    have hlength : arguments.length = 1 := hone (Except.ok.inj (hfound.symm.trans hcode))
    cases harguments with
    | nil => cases hlength
    | cons hfirst _ =>
      obtain ⟨_, _, -, hid, -⟩ := hfirst
      rw [CommandInfo.argument?, hbare] at hid
      cases hid
  · have hnamed : ({ p.command (some line) code arguments with parameters } :
        Draft.Command).IsNamed c name line := ⟨⟨code, ⟨info, hinfo⟩, rfl⟩, rfl, rfl⟩
    refine inStep_of_isNamed htable hnamed hshort fun a ha n => ?_
    obtain ⟨g, hg, _, _, -, -, rfl⟩ := exists_of_mem_forall₂_right harguments ha
    obtain ⟨_, hcode⟩ := (hgiven g hg).code
    simp [hcode]

/-- A command with values keeps the reader in step. -/
theorem inStep_values {code : Nat} {arguments : List Draft.Argument} {own : Option Nat}
    (htable : table.commands = c.vocabulary.commands) (hcode : c.HasCode name code)
    (hname : name ≠ "RETURNCODE") (harguments : ∀ a ∈ arguments, ∀ n, a.data ≠ .number n) :
    (p.command own code arguments).InStep table version :=
  inStep_of_isNamed htable ⟨⟨_, hcode, rfl⟩, rfl, rfl⟩ hname harguments

theorem CompiledSimple.called_notMem (h : CompiledSimple c depth p s commands p')
    (hcalls : CallsNone names (s.owners true)) : ∀ name ∈ s.called?, name ∉ names := by
  cases h with
  | call | context => exact hcalls _ mem_cons_self
  | _ => exact fun _ hname => by cases hname

theorem CompiledSimple.inStep (hversion : version < 300)
    (htable : table.commands = c.vocabulary.commands) (h : CompiledSimple c depth p s commands p')
    (hcalls : ∀ name ∈ s.called?, name = "RETURNCODE" → c.vocabulary.ShortIsBare) :
    ∀ x ∈ commands, x.InStep table version := by
  cases h with
  | pass | codec => exact fun _ hx => absurd hx not_mem_nil
  | label => exact forall_mem_singleton.mpr (.inl rfl)
  | word hcode =>
    exact forall_mem_singleton.mpr (inStep_values htable hcode (by decide) (by simp))
  | returnCode _ hcode =>
    refine forall_mem_singleton.mpr (.inr fun short hshort _ => ?_)
    obtain rfl := Except.ok.inj ((hcode.code_eq_ok htable).symm.trans hshort)
    have hsplit : Draft.isSplit version = false := by simpa [Draft.isSplit] using hversion
    simp [Progress.command, Draft.Argument.size, hsplit, argumentsSize, hversion]
  | evaluate he hcode =>
    exact forall_mem_singleton.mpr
      (inStep_values htable hcode (by decide) (by simp [Coded.argument]))
  | call hgiven hcommand =>
    exact inStep_keywordCommand htable (hcalls _ rfl) hgiven.isValue hcommand
  | context hplaces _ hfills hgiven hcommand =>
    subst hgiven
    refine inStep_keywordCommand htable (hcalls _ rfl) (fun g hg => ?_) hcommand
    exact hfills.isValue hplaces.isValue g.1 g.2 (mem_map.mpr ⟨g, hg, rfl⟩)
  | define h | defineAs h =>
    obtain ⟨hd, -, -, -, -, -, hcode⟩ := h
    refine forall_mem_singleton.mpr
      (inStep_values htable hcode ?_ (by simp [Coded.argument]))
    rintro rfl
    exact Decompiler.notMem_of_ofName? hd (by decide)
  | store _ h | augment h =>
    obtain ⟨-, -, -, hcode⟩ := h
    exact forall_mem_singleton.mpr
      (inStep_values htable hcode (by decide) (by simp [Coded.argument]))

theorem ne_number_of_openChain (head : Draft.Command) (t : Coded) (next : Option Nat)
    (close : Nat) :
    ∀ a ∈ (Compiling.openChain head t next close).arguments, ∀ n, a.data ≠ .number n := by
  cases next <;> simp [Compiling.openChain, Coded.argument]

theorem ne_number_of_continueChain (head : Draft.Command) (t : Coded) (next : Option Nat) :
    ∀ a ∈ (Compiling.continueChain head t next).arguments, ∀ n, a.data ≠ .number n := by
  cases next <;> simp [Compiling.continueChain, Coded.argument]

mutual

/-- The commands of a statement are in step, block by block, if no call names the command with the
short argument or that has no parameters. -/
theorem CompiledStatement.inStep (hversion : version < 300)
    (htable : table.commands = c.vocabulary.commands)
    (hbare : "RETURNCODE" ∉ names → c.vocabulary.ShortIsBare) {depth : Depth} {s : Stmt}
    {commands : List Draft.Command} :
    ∀ {p p' : Progress}, CompiledStatement c depth p s commands p' →
      CallsNone names (s.owners true) → ∀ x ∈ commands, x.InStep table version
  | _, _, .simple h, hcalls =>
    h.inStep hversion htable fun _ hname heq => hbare (heq ▸ h.called_notMem hcalls _ hname)
  | _, _, .branch _ hopen hbody hchain hclose, hcalls => by
    obtain ⟨hbodyCalls, hchainCalls⟩ := hcalls.tail.append
    simp only [forall_mem_append, forall_mem_singleton]
    exact ⟨⟨⟨inStep_of_isNamed htable ⟨⟨_, hopen, rfl⟩, rfl, rfl⟩ (by decide)
      (ne_number_of_openChain _ _ _ _), hbody.inStep hversion htable hbare hbodyCalls⟩,
      hchain.inStep hversion htable hbare hchainCalls⟩,
      inStep_values htable hclose (by decide) (by simp)⟩
  | _, _, .loop _ hopen hbody hclose, hcalls => by
    simp only [forall_mem_append, forall_mem_singleton]
    exact ⟨⟨inStep_values htable hopen (by decide) (by simp [Coded.argument]),
      hbody.inStep hversion htable hbare hcalls.tail.append.1⟩,
      inStep_values htable hclose (by decide) (by simp)⟩

/-- So do all commands of statements. -/
theorem CompiledStatements.inStep (hversion : version < 300)
    (htable : table.commands = c.vocabulary.commands)
    (hbare : "RETURNCODE" ∉ names → c.vocabulary.ShortIsBare) {depth : Depth} {body : List Stmt}
    {commands : List Draft.Command} :
    ∀ {p p' : Progress}, CompiledStatements c depth p body commands p' →
      CallsNone names (ownersIn true body) → ∀ x ∈ commands, x.InStep table version
  | _, _, .nil, _ => by simp
  | _, _, .cons h hrest, hcalls => by
    rw [forall_mem_append]
    exact ⟨h.inStep hversion htable hbare hcalls.append.1,
      hrest.inStep hversion htable hbare hcalls.append.2⟩

theorem CompiledChain.inStep (hversion : version < 300)
    (htable : table.commands = c.vocabulary.commands)
    (hbare : "RETURNCODE" ∉ names → c.vocabulary.ShortIsBare) {depth : Depth}
    {elseBody : List Stmt} {next : Option Nat} {commands : List Draft.Command} :
    ∀ {p p' : Progress}, CompiledChain c depth p elseBody next commands p' →
      CallsNone names (chainOwners true elseBody) → ∀ x ∈ commands, x.InStep table version
  | _, _, .nil, _ => by simp
  | _, _, .elseIf hblend _ hcode hbody hchain, hcalls => by
    simp only [forall_mem_append, forall_mem_singleton]
    exact ⟨⟨⟨inStep_values htable hblend (by decide) (by simp),
      inStep_of_isNamed htable ⟨⟨_, hcode, rfl⟩, rfl, rfl⟩ (by decide)
        (ne_number_of_continueChain _ _ _)⟩, hbody.inStep hversion htable hbare hcalls.append.1⟩,
      hchain.inStep hversion htable hbare hcalls.append.2⟩
  | _, _, .otherwise hne hblend hcode hbody, hcalls => by
    rw [chainOwners_of_ne _ hne] at hcalls
    simp only [forall_mem_append, forall_mem_singleton]
    exact ⟨⟨inStep_values htable hblend (by decide) (by simp),
      inStep_values htable hcode (by decide) (by simp)⟩, hbody.inStep hversion htable hbare hcalls⟩

end

end

theorem Draft.Part.inStep_of_writtenAs {ctx : Context} (hsplit : Draft.isSplit version = false)
    {table : CommandTable} {places : Array Draft.Place} {q : Draft.Placed} {x : Draft.Part}
    (hx : q.WrittenAs version places x) (hkept : q.command.presence ≠ .label)
    (h : q.command.InStep table version) (hcodes : ctx.codes = table.code)
    (hversion : ctx.version = version) : x.InStep ctx := by
  have hcode : q.command.code.toNat = x.code := by rw [← hx.code, Int.toNat_natCast]
  intro short hshort hone
  rw [hcode.symm, hx.argumentCount] at hone
  have htold := h.resolve_left hkept short (hcodes ▸ hshort) hone
  have hsize := hx.size
  rw [Draft.Part.command, Draft.Command.size, hsplit, if_neg (by simp), if_neg (by simp),
    length_append, length_append, hx.formed.head, hx.formed.line, htold, hcode,
    ← hx.argumentCount] at hsize
  rw [hversion]
  omega

/-! ## The check -/

namespace Decompiler

variable {d : Decompiler} {own : Option Nat}

/-- The line of a command, without a look at the one before. -/
def placedLine (d : Decompiler) (own : Option Nat) (s : LineState) (c : Command) (isLast : Bool) :
    Labelling LineState := do
  let s := s.moveTo c.line
  let labels ← WaitingLabels.take own c.offset
  let s := if labels.isEmpty then s
    else s.write (s.labelLine c.line) (labels.map fun name => "#=" ++ name.shown)
  ofResult (d.lineOf s c isLast)

/-- The lines of commands, whatever order they are in. -/
def placedLines (d : Decompiler) (own : Option Nat) (s : LineState) :
    List Command → Labelling LineState
  | [] => return s
  | c :: rest => do
    let s ← d.placedLine own s c rest.isEmpty
    d.placedLines own s rest

/-- Where lines rise, nothing is refused. -/
theorem labelledLine_eq_placedLine {s : LineState} {c : Command} (h : s.line ≤ c.line)
    (isLast : Bool) : d.labelledLine own s c isLast = d.placedLine own s c isLast := by
  unfold labelledLine placedLine
  rw [decide_eq_true h]
  rfl

/-- The check of lines that do not decrease never fails. -/
theorem linesFrom_eq_placedLines {commands : List Command} {s : LineState}
    (h : (s.line :: commands.map Command.line).Pairwise (· ≤ ·)) :
    d.linesFrom own s commands = d.placedLines own s commands := by
  induction commands generalizing s with
  | nil => rfl
  | cons c rest ih =>
    obtain ⟨hfirst, hrest⟩ := pairwise_cons.mp h
    funext waiting
    rw [linesFrom, placedLines, ← labelledLine_eq_placedLine (hfirst c.line mem_cons_self)]
    cases hrun : d.labelledLine own s c rest.isEmpty waiting with
    | error f w => rw [runBind_of_error hrun, runBind_of_error hrun]
    | ok s' w =>
      obtain ⟨-, -, hlineOf⟩ := lineOf_of_labelledLine hrun
      obtain ⟨_, _, -, rfl⟩ := ownText_of_lineOf hlineOf
      rw [runBind_of_ok hrun, runBind_of_ok hrun]
      refine congrFun (ih ?_) w
      exact hrest

end Decompiler

/-! ## Compiled scripts -/

/-- A compiled script is read as a script: its links are written, it is combined with a key, and the
file is read with that key, as one of the version that it was compiled for. -/
structure CompiledScript.ReadAs (compiled : CompiledScript) (version : Int)
    (links : List Project.Link) (key : Int) (table : CommandTable) (options : Script.ReadOptions)
    (script : Script) : Prop where
  file : ∃ segments bytes,
    Project.changeExpressions (Project.writeLinks · links) compiled.segments = .ok segments ∧
    Script.keyBytes key = .ok bytes ∧
    Script.read table.code options (Project.encrypt bytes segments).flatten = .ok script
  key : script.key = key
  version : script.version = version

section

variable {options : CompileOptions} {vocabulary : Vocabulary} {source : List Stmt}
  {compiled : CompiledScript} {commands : List Draft.Command} {p : Progress} {a : Draft.Assembly}
  {places : Array Draft.Place} {kept : List Draft.Placed} {script : Script} {table : CommandTable}
  {links : List Project.Link} {key : Int} {ro : Script.ReadOptions}

theorem size_of_foldlM_writeNumber : ∀ {places : List (Nat × Nat)} {data result : Array UInt8},
    places.foldlM (fun d (o, n) => Project.writeNumber d o n) data = .ok result →
      result.size = data.size
  | [], data, result, h => by
    cases h
    rfl
  | place :: rest, data, result, h => by
    obtain ⟨data', hfirst, hrest⟩ := of_bind h
    obtain ⟨_, -, hfirst⟩ := of_bind hfirst
    obtain ⟨_, -, hfirst⟩ := of_bind hfirst
    cases hfirst
    rw [size_of_foldlM_writeNumber hrest, Array.size_setIfInBounds, Array.size_setIfInBounds]

/-- Links change bytes, and add none. -/
theorem length_writeLinks {data result : Bytes} (h : Project.writeLinks data links = .ok result) :
    result.length = data.length := by
  obtain ⟨written, hwritten, h⟩ := of_bind h
  cases h
  exact size_of_foldlM_writeNumber hwritten

theorem lineNumbers_of_writtenAs
    (h : Forall₂ (Draft.Placed.WrittenAs version places) kept parts) :
    parts.map (fun x => (x.lineNumber : Int)) = kept.map fun q => q.command.line := by
  induction h with
  | nil => rfl
  | cons hx _ ih => rw [map_cons, map_cons, hx.line, ih]

/-- A script that a compiled one is read as has the lines of its parts. -/
theorem lines_of_readAs (h : CompilesTo options vocabulary source commands p a compiled)
    (hwritten : Forall₂ (Draft.Placed.WrittenAs options.version places)
      (Draft.keptOf options.version a.placed) parts)
    (hsections : a.sections = Draft.Part.sections options.version parts)
    (htable : table.commands = vocabulary.commands)
    (hread : compiled.ReadAs options.version links key table ro script)
    (hcalls : 300 ≤ options.version ∨ CallsNone ["RETURNCODE"] (ownersIn true source) ∨
      vocabulary.ShortIsBare) :
    script.commands.map Command.line = parts.map fun x => (x.lineNumber : Int) := by
  obtain ⟨segments, bytes, hlinked, hkey, hfile⟩ := hread.file
  rw [← hread.key] at hkey
  obtain ⟨-, -, -, -, hhead⟩ := Draft.assemble_eq_ok.mp h.assembly
  have hheader := Draft.isHeader_of_header hhead
  have hformed : ∀ x ∈ parts, x.Formed options.version := fun x hx => by
    obtain ⟨q, -, hq⟩ := exists_of_mem_forall₂_right hwritten hx
    exact hq.formed
  rw [h.segments, Draft.Assembly.segments, hsections] at hlinked
  rw [hsections] at hhead
  cases hsplit : Draft.isSplit options.version with
  -- New versions store the lines by themselves, whatever the arguments are.
  | true =>
    have hversion : ¬script.version < 300 := by
      rw [hread.version]
      simpa [Draft.isSplit] using hsplit
    rw [Draft.Part.sections, if_pos hsplit] at hlinked
    obtain ⟨linked, hwrite, hlinked⟩ := of_bind hlinked
    cases hlinked
    obtain ⟨make, -, hcommands⟩ := commands_of_read hheader.length hkey hfile
    rw [if_neg hversion] at hcommands
    exact lines_of_readSplit hsplit hhead hformed (length_writeLinks hwrite) hcommands
  | false =>
    have hlow : options.version < 300 := by simpa [Draft.isSplit] using hsplit
    rw [Draft.Part.sections, if_neg (by simp [hsplit])] at hlinked
    obtain ⟨linked, hwrite, hlinked⟩ := of_bind hlinked
    cases hlinked
    obtain ⟨make, hmake, hcommands⟩ := commands_of_read hheader.length hkey hfile
    rw [hread.version, if_pos hlow] at hcommands
    have hstatements := compiledStatements_of_statements h.statements
    -- In old versions a line is found only if the reader keeps in step with the arguments.
    have hinStep : ∀ x ∈ commands, x.InStep table options.version := by
      rcases hcalls.resolve_left (by omega) with hnone | hbare
      · exact hstatements.inStep hlow htable (by simp) hnone
      · have hnone : CallsNone [] (ownersIn true source) := fun _ _ _ _ => not_mem_nil
        exact hstatements.inStep hlow htable (fun _ => hbare) hnone
    refine lines_of_readJoined hsplit hhead hformed (fun bytes x hx => ?_) hcommands
    obtain ⟨q, hq, hqx⟩ := exists_of_mem_forall₂_right hwritten hx
    obtain ⟨hplaced, hkept⟩ := mem_filter.mp hq
    refine Draft.Part.inStep_of_writtenAs hsplit hqx (fun hlabel => ?_)
      (hinStep _ (Draft.commands_of_assemble h.assembly ▸ mem_map_of_mem hplaced)) (hmake bytes).1
      ((hmake bytes).2.trans hread.version)
    rw [hlabel] at hkept
    cases hkept

/-- **The lines of a compiled script start at one and never decrease**, if those of its statements
do. A script that it is read as, with any links and any key, has the same lines, so that no listing
of it is given up over them; but below version 300 no call may name the command with the short
argument, unless that command has no parameters. -/
theorem lineOrder_of_compileScript {options : CompileOptions} {vocabulary : Vocabulary}
    {source : List Stmt} {compiled : CompiledScript}
    (h : compileScript options vocabulary source = .ok compiled)
    (hpositive : ∀ line ∈ sourceLinesIn source, 1 ≤ line)
    (hsorted : (sourceLinesIn source).Pairwise (· ≤ ·)) :
    ∃ parts, compiled.MadeOf options vocabulary source parts ∧
      (∀ x ∈ parts, 1 ≤ x.lineNumber) ∧ (parts.map Draft.Part.lineNumber).Pairwise (· ≤ ·) ∧
      ∀ table links key ro script, table.commands = vocabulary.commands →
        compiled.ReadAs options.version links key table ro script →
        (300 ≤ options.version ∨ CallsNone ["RETURNCODE"] (ownersIn true source) ∨
          vocabulary.ShortIsBare) →
        script.commands.map Command.line = parts.map (fun x => (x.lineNumber : Int)) ∧
        ∀ (d : Decompiler) (own : Option Nat),
          d.linesFrom own {} script.commands = d.placedLines own {} script.commands := by
  obtain ⟨commands, p, a, hto⟩ := compilesTo_of_compileScript h
  obtain ⟨parts, hmade, hwritten⟩ := parts_of_compileScript hto
  obtain ⟨high, -, hrising, -⟩ := (compiledStatements_of_statements hto.statements).risesOver 1
    (List.pairwise_cons.mpr ⟨hpositive, hsorted⟩)
  have hsections : a.sections = Draft.Part.sections options.version parts := by
    obtain ⟨header, hsegments⟩ := hmade.segments
    exact (List.cons.inj (hto.segments.symm.trans hsegments)).2
  -- What is left out of the parts only makes the list of lines shorter.
  have hlines : (1 :: parts.map fun x => (x.lineNumber : Int)).Pairwise (· ≤ ·) := by
    have hkept := hrising.sorted options.version
    rw [← Draft.commands_of_assemble hto.assembly, List.filter_map, List.map_map] at hkept
    rw [lineNumbers_of_writtenAs hwritten]
    exact hkept
  obtain ⟨hones, hordered⟩ := List.pairwise_cons.mp hlines
  refine ⟨parts, hmade, fun x hx => ?_, ?_, fun table links key ro script htable hread hcalls => ?_⟩
  · exact Int.ofNat_le.mp (hones _ (List.mem_map_of_mem hx))
  · rw [List.pairwise_map] at hordered ⊢
    exact hordered.imp Int.ofNat_le.mp
  · have hlinesRead := lines_of_readAs hto hwritten hsections htable hread hcalls
    refine ⟨hlinesRead, fun d own => Decompiler.linesFrom_eq_placedLines ?_⟩
    rw [hlinesRead]
    exact hlines

end

/-! ## Scripts of version 200 -/

/-- The commands of blocks and texts, and a command with a short argument that has a parameter. -/
def shortTable : CommandTable where
  version := 200
  commands := (["END", "IF", "ELSE", "IFEND", "PREP", "IFBLEND", "LOOP", "LOOPEND", "_", "WORD"].map
    fun name => ⟨name, []⟩) ++ [⟨"RETURNCODE", [⟨"X", .int, 0⟩]⟩]
  messages := []
  tail := []

/-- Options of an old version. -/
def shortOptions : CompileOptions := { version := 200, codec := Codec.ascii }

/-- Statements, compiled and read back with a key. -/
def reread (source : List Stmt) : Except Fault (CompiledScript × Script) := do
  let compiled ← compileScript shortOptions { commands := shortTable.commands } source
  let segments ← Project.changeExpressions (Project.writeLinks · []) compiled.segments
  let script ← Script.read shortTable.code { key := some 77, codec := Codec.ascii }
    (Project.encrypt [0, 0, 0, 77] segments).flatten
  return (compiled, script)

theorem readAs_of_reread {source : List Stmt} {compiled : CompiledScript} {script : Script}
    (h : reread source = .ok (compiled, script)) (hversion : script.version = 200)
    (hkey : script.key = 77) :
    compileScript shortOptions { commands := shortTable.commands } source = .ok compiled ∧
      compiled.ReadAs 200 [] 77 shortTable { key := some 77, codec := Codec.ascii } script := by
  obtain ⟨_, hcompiled, h⟩ := of_bind h
  obtain ⟨segments, hsegments, h⟩ := of_bind h
  obtain ⟨_, hread, h⟩ := of_bind h
  cases h
  exact ⟨hcompiled, ⟨segments, [0, 0, 0, 77], hsegments, by decide, hread⟩, hkey, hversion⟩

/-- A text command at a line. -/
def endingTextAt (line : Nat) : Stmt := .expression line (.yield (some (.int 0)))

/-- A condition with two branches in a loop. -/
def conditionOfTexts : List Stmt :=
  [.loop 1 (.int 1)
    [.branch 2 (.int 1) [endingTextAt 3] [.branch 5 (.int 0) [endingTextAt 6] []]] []]

theorem lineOrder_of_conditionOfTexts :
    ∃ compiled script, compileScript shortOptions { commands := shortTable.commands }
        conditionOfTexts = .ok compiled ∧
      compiled.ReadAs 200 [] 77 shortTable { key := some 77, codec := Codec.ascii } script ∧
      script.commands.map Command.line = [1, 2, 3, 3, 3, 6, 6, 6] ∧
      ∀ (d : Decompiler) (own : Option Nat),
        d.linesFrom own {} script.commands = d.placedLines own {} script.commands := by
  have hlines : ((reread conditionOfTexts).map fun x =>
      (x.2.version, x.2.key, x.2.commands.map Command.line)).toOption =
        some (200, 77, [1, 2, 3, 3, 3, 6, 6, 6]) := by decide +kernel
  obtain ⟨⟨compiled, script⟩, hrun, hscript⟩ := exists_ok_of_map hlines
  simp only [Prod.mk.injEq] at hscript
  obtain ⟨hcompiled, hread⟩ := readAs_of_reread hrun hscript.1 hscript.2.1
  have hpositive : ∀ line ∈ sourceLinesIn conditionOfTexts, 1 ≤ line := by decide
  have hsorted : (sourceLinesIn conditionOfTexts).Pairwise (· ≤ ·) := by decide
  have hcalls : CallsNone ["RETURNCODE"] (ownersIn true conditionOfTexts) := by decide
  obtain ⟨parts, -, -, -, hparts⟩ := lineOrder_of_compileScript hcompiled hpositive hsorted
  exact ⟨compiled, script, hcompiled, hread, hscript.2.2,
    (hparts _ _ _ _ _ rfl hread (.inr (.inl hcalls))).2⟩

/-- A call of the command with the short argument, and the statement that has that command. -/
def callOfShort : List Stmt :=
  [.expression 1 (.call (.name "RETURNCODE") [] [(some "X", .int 1)]), endingTextAt 2]

/-- The argument of the call is longer than the reader takes it to be. What is left of it is read as
a command without a line, and a listing is given up there. -/
theorem callOfShort_misread :
    sourceLinesIn callOfShort = [1, 2] ∧
    ∃ compiled script, compileScript shortOptions { commands := shortTable.commands }
        callOfShort = .ok compiled ∧
      compiled.ReadAs 200 [] 77 shortTable { key := some 77, codec := Codec.ascii } script ∧
      Decompiler.linesFrom ⟨200, shortTable, [], 1⟩ (some 0) {} script.commands [] =
        .error (Violation.lineOrder 0 1) [] := by
  have hmisread : ((reread callOfShort).map Prod.snd).toOption =
      some ⟨200, 77, [⟨0, 1, 10, [⟨0, .int, .set, 0, 0, .none⟩], 0⟩, ⟨10, 0, 4, [], 0⟩,
        ⟨16, 131338, 0, [], 0⟩, ⟨22, 1, 0, [], 0⟩]⟩ := by decide +kernel
  obtain ⟨⟨compiled, script⟩, hrun, hscript⟩ := exists_ok_of_map hmisread
  obtain rfl : script = _ := hscript
  obtain ⟨hcompiled, hread⟩ := readAs_of_reread hrun rfl rfl
  exact ⟨rfl, compiled, _, hcompiled, hread, rfl⟩

end NovelScript
