import NovelScript.Proofs.Compile.Coverage

/-!
# How blocks are bracketed

The commands of blocks are brackets: conditions and loops are opened, divided and closed. Reading
the commands with a stack of open blocks tells which command has to name which other (`readBlocks`):
a condition the next branch of its chain, the command that opens a chain or a loop the one that
closes it.

The commands of compiled statements are bracketed, and where one has to name another, the draft has
a jump to it (`CompiledStatements.bracketed`).
-/

namespace NovelScript

open List Compiling Draft.Command.IsNamed

variable {kind : BlockKind}

/-! ## Reading blocks -/

/-- What a command does to blocks. -/
inductive BlockKind where
  | condition
  /-- A further condition of a chain. -/
  | elseIf
  | otherwise | closeChain | loop | closeLoop | plain
  deriving DecidableEq

/-- The kind of a command, by its name and the number of its arguments. -/
def BlockKind.of (name : Option String) (arguments : Nat) : BlockKind :=
  match name with
  | some "IF" => .condition
  | some "ELSE" => if arguments = 0 then .otherwise else .elseIf
  | some "IFEND" => .closeChain
  | some "LOOP" => .loop
  | some "LOOPEND" => .closeLoop
  | _ => .plain

/-- A block that is open. -/
inductive OpenBlock (α : Type) where
  /-- A chain, with the command that opens it and its latest condition, unless a branch without a
  condition came after that. -/
  | chain (opening : α) (latest : Option α)
  | loop (opening : α)
  deriving DecidableEq

/-- An argument of a command, counted from zero, that has to name another command. -/
structure Jump (α : Type) where
  source : α
  argument : Nat
  target : α
  deriving DecidableEq

variable {α β : Type}

/-- What a command of a kind does to the open blocks, and which jumps it tells. -/
def readBlock (kind : BlockKind) (x : α) (blocks : List (OpenBlock α)) :
    Option (List (Jump α) × List (OpenBlock α)) :=
  match kind, blocks with
  | .plain, blocks => some ([], blocks)
  | .condition, blocks => some ([], .chain x (some x) :: blocks)
  | .elseIf, .chain opening (some latest) :: blocks =>
    some ([⟨latest, 1, x⟩], .chain opening (some x) :: blocks)
  | .otherwise, .chain opening (some latest) :: blocks =>
    some ([⟨latest, 1, x⟩], .chain opening none :: blocks)
  | .closeChain, .chain opening _ :: blocks => some ([⟨opening, 2, x⟩], blocks)
  | .loop, blocks => some ([], .loop x :: blocks)
  | .closeLoop, .loop opening :: blocks => some ([⟨opening, 1, x⟩], blocks)
  | _, _ => none

/-- Reads commands one after another. Commands whose blocks do not fit cannot be read. -/
def readBlocks : List (BlockKind × α) → List (OpenBlock α) →
    Option (List (Jump α) × List (OpenBlock α))
  | [], blocks => some ([], blocks)
  | (kind, x) :: rest, blocks => do
    let (first, blocks) ← readBlock kind x blocks
    let (others, blocks) ← readBlocks rest blocks
    return (first ++ others, blocks)

variable {blocks blocks' blocks'' : List (OpenBlock α)} {jumps jumps' : List (Jump α)}
  {items items' : List (BlockKind × α)} {x : α} {P : α → Prop} (f : α → β)

theorem readBlocks_cons (h : readBlock kind x blocks = some (jumps, blocks'))
    (hrest : readBlocks items blocks' = some (jumps', blocks'')) :
    readBlocks ((kind, x) :: items) blocks = some (jumps ++ jumps', blocks'') := by
  rw [readBlocks, h]
  show (readBlocks items blocks').bind _ = _
  rw [hrest]
  rfl

theorem exists_readBlocks_cons
    (h : readBlocks ((kind, x) :: items) blocks = some (jumps, blocks')) :
    ∃ first others middle, readBlock kind x blocks = some (first, middle) ∧
      readBlocks items middle = some (others, blocks') ∧ jumps = first ++ others := by
  obtain ⟨⟨first, middle⟩, hfirst, h⟩ := Option.bind_eq_some_iff.mp h
  obtain ⟨⟨others, last⟩, hothers, h⟩ := Option.bind_eq_some_iff.mp h
  cases h
  exact ⟨first, others, middle, hfirst, hothers, rfl⟩

/-- Blocks are read on from those that are open. -/
theorem readBlocks_append (h : readBlocks items blocks = some (jumps, blocks'))
    (h' : readBlocks items' blocks' = some (jumps', blocks'')) :
    readBlocks (items ++ items') blocks = some (jumps ++ jumps', blocks'') := by
  induction items generalizing blocks jumps with
  | nil =>
    cases h
    exact h'
  | cons item items ih =>
    obtain ⟨first, others, middle, hfirst, hothers, rfl⟩ := exists_readBlocks_cons h
    rw [append_assoc]
    exact readBlocks_cons hfirst (ih hothers)

/-- Commands that are no part of blocks can be left out. -/
theorem readBlocks_filter (keep : BlockKind × α → Bool)
    (hplain : ∀ item ∈ items, keep item = false → item.1 = .plain)
    (h : readBlocks items blocks = some (jumps, blocks')) :
    readBlocks (items.filter keep) blocks = some (jumps, blocks') := by
  induction items generalizing blocks jumps with
  | nil => exact h
  | cons item items ih =>
    obtain ⟨first, others, middle, hfirst, hothers, rfl⟩ := exists_readBlocks_cons h
    have hrest := ih (forall_mem_cons.mp hplain).2 hothers
    cases hkeep : keep item with
    | true =>
      rw [filter_cons_of_pos hkeep]
      exact readBlocks_cons hfirst hrest
    | false =>
      rw [filter_cons_of_neg (by simp [hkeep])]
      have hkind := hplain item mem_cons_self hkeep
      rw [hkind] at hfirst
      cases hfirst
      exact hrest

/-! ## Other names for commands -/

/-- A block, by other names of its commands. -/
def OpenBlock.map (f : α → β) : OpenBlock α → OpenBlock β
  | .chain opening latest => .chain (f opening) (latest.map f)
  | .loop opening => .loop (f opening)

/-- A jump, by other names of its commands. -/
def Jump.map (f : α → β) (j : Jump α) : Jump β := ⟨f j.source, j.argument, f j.target⟩

theorem readBlock_map (h : readBlock kind x blocks = some (jumps, blocks')) :
    readBlock kind (f x) (blocks.map (OpenBlock.map f)) =
      some (jumps.map (Jump.map f), blocks'.map (OpenBlock.map f)) := by
  unfold readBlock at h
  split at h <;> cases h <;> rfl

/-- Blocks are read alike by whatever commands are named. -/
theorem readBlocks_map (h : readBlocks items blocks = some (jumps, blocks')) :
    readBlocks (items.map (Prod.map id f)) (blocks.map (OpenBlock.map f)) =
      some (jumps.map (Jump.map f), blocks'.map (OpenBlock.map f)) := by
  induction items generalizing blocks jumps with
  | nil =>
    cases h
    rfl
  | cons item items ih =>
    obtain ⟨first, others, middle, hfirst, hothers, rfl⟩ := exists_readBlocks_cons h
    rw [map_append]
    exact readBlocks_cons (readBlock_map f hfirst) (ih hothers)

/-- A property of all commands of an open block. -/
def OpenBlock.All (P : α → Prop) : OpenBlock α → Prop
  | .chain opening latest => P opening ∧ ∀ x ∈ latest, P x
  | .loop opening => P opening

theorem readBlock_all (h : readBlock kind x blocks = some (jumps, blocks'))
    (hx : P x) (hblocks : ∀ b ∈ blocks, b.All P) :
    (∀ j ∈ jumps, P j.source ∧ P j.target) ∧ ∀ b ∈ blocks', b.All P := by
  unfold readBlock at h
  split at h <;> cases h <;> simp_all [OpenBlock.All]

/-- Jumps are between commands that are read. -/
theorem readBlocks_all (h : readBlocks items blocks = some (jumps, blocks'))
    (hitems : ∀ item ∈ items, P item.2) (hblocks : ∀ b ∈ blocks, b.All P) :
    ∀ j ∈ jumps, P j.source ∧ P j.target := by
  induction items generalizing blocks jumps with
  | nil =>
    cases h
    exact fun _ h => by cases h
  | cons item items ih =>
    obtain ⟨first, others, middle, hfirst, hothers, rfl⟩ := exists_readBlocks_cons h
    obtain ⟨hjumps, hmiddle⟩ := readBlock_all hfirst (hitems item mem_cons_self) hblocks
    exact forall_mem_append.mpr
      ⟨hjumps, ih hothers (forall_mem_cons.mp hitems).2 hmiddle⟩

/-! ## Commands of a draft -/

/-- The kind of a command of a draft. One that is left out has nothing to do with blocks. -/
def Draft.Command.blockKind (version : Int) (v : Vocabulary) (command : Draft.Command) :
    BlockKind :=
  if command.presence.isLeftOut version then .plain
  else .of (v.nameOf? command.code.toNat) command.arguments.length

/-- The commands of a part of a draft, with their kinds and their positions. -/
def Draft.blockItems (kind : Draft.Command → BlockKind) (start : Nat)
    (commands : List Draft.Command) : List (BlockKind × Draft.Command × Nat) :=
  (commands.zipIdx start).map fun x => (kind x.1, x)

theorem Draft.blockItems_cons (kind : Draft.Command → BlockKind) (start : Nat)
    (command : Draft.Command) (commands : List Draft.Command) :
    blockItems kind start (command :: commands) =
      (kind command, command, start) :: blockItems kind (start + 1) commands := rfl

theorem Draft.blockItems_append (kind : Draft.Command → BlockKind) (start : Nat)
    (xs ys : List Draft.Command) : blockItems kind start (xs ++ ys) =
      blockItems kind start xs ++ blockItems kind (start + xs.length) ys := by
  rw [blockItems, zipIdx_append, map_append]
  rfl

/-- Where a command of a draft has to name another, it has a jump to it. -/
def Jump.StandsInDraft (j : Jump (Draft.Command × Nat)) : Prop :=
  j.source.1.arguments[j.argument]?.map Draft.Argument.data = some (.jump j.target.2)

/-- Commands lead from some open blocks to others, and have the jumps that these ask for. -/
def Draft.LeadsTo (kind : Draft.Command → BlockKind) (start : Nat) (commands : List Draft.Command)
    (blocks blocks' : List (OpenBlock (Draft.Command × Nat))) : Prop :=
  ∃ jumps, readBlocks (blockItems kind start commands) blocks = some (jumps, blocks') ∧
    ∀ j ∈ jumps, j.StandsInDraft

/-- Commands are bracketed, and have the jumps that the blocks ask for. -/
def Draft.Bracketed (kind : Draft.Command → BlockKind) (start : Nat)
    (commands : List Draft.Command) : Prop :=
  ∀ blocks, LeadsTo kind start commands blocks blocks

namespace Draft

variable {kind : Draft.Command → BlockKind} {start : Nat} {first rest : List Draft.Command}

section

variable {blocks blocks' blocks'' : List (OpenBlock (Draft.Command × Nat))}

theorem leadsTo_nil : LeadsTo kind start [] blocks blocks := ⟨[], rfl, fun _ h => by cases h⟩

/-- Commands lead on from the blocks that others have left. -/
theorem LeadsTo.append (h : LeadsTo kind start first blocks blocks')
    (hrest : LeadsTo kind (start + first.length) rest blocks' blocks'') :
    LeadsTo kind start (first ++ rest) blocks blocks'' := by
  obtain ⟨jumps, hread, hjumps⟩ := h
  obtain ⟨jumps', hread', hjumps'⟩ := hrest
  rw [LeadsTo, blockItems_append]
  exact ⟨jumps ++ jumps', readBlocks_append hread hread', forall_mem_append.mpr ⟨hjumps, hjumps'⟩⟩

theorem leadsTo_cons {command : Draft.Command} {k : BlockKind}
    {jumps : List (Jump (Draft.Command × Nat))} (hkind : kind command = k)
    (hstep : readBlock k (command, start) blocks = some (jumps, blocks'))
    (hjumps : ∀ j ∈ jumps, j.StandsInDraft)
    (hrest : LeadsTo kind (start + 1) rest blocks' blocks'') :
    LeadsTo kind start (command :: rest) blocks blocks'' := by
  obtain ⟨jumps', hread', hjumps'⟩ := hrest
  refine ⟨jumps ++ jumps', ?_, forall_mem_append.mpr ⟨hjumps, hjumps'⟩⟩
  rw [blockItems_cons, hkind]
  exact readBlocks_cons hstep hread'

theorem leadsTo_plain {command : Draft.Command} (hkind : kind command = .plain)
    (hrest : LeadsTo kind (start + 1) rest blocks blocks') :
    LeadsTo kind start (command :: rest) blocks blocks' :=
  leadsTo_cons hkind rfl (fun _ h => by cases h) hrest

end

/-- Commands that are no part of blocks open and close none. -/
theorem bracketed_plain {commands : List Draft.Command}
    (h : ∀ command ∈ commands, kind command = .plain) : Bracketed kind start commands := by
  intro blocks
  induction commands generalizing start with
  | nil => exact leadsTo_nil
  | cons command commands ih =>
    obtain ⟨hcommand, hcommands⟩ := forall_mem_cons.mp h
    exact leadsTo_plain hcommand (ih hcommands)

/-- What follows a condition of a chain is bracketed, and the condition has the jumps that it
needs. -/
def ChainBracketed (kind : Draft.Command → BlockKind) (start : Nat) (latest : Draft.Command × Nat)
    (commands : List Draft.Command) : Prop :=
  ∀ opening blocks, ∃ latest', LeadsTo kind start commands
    (.chain opening (some latest) :: blocks) (.chain opening latest' :: blocks)

variable {latest : Draft.Command × Nat} {opening blend further close : Draft.Command} {middle : Nat}

theorem chainBracketed_elseIf (hblend : kind blend = .plain) (hfurther : kind further = .elseIf)
    (hjump : (⟨latest, 1, (further, start + 1)⟩ : Jump _).StandsInDraft)
    (hfirst : Bracketed kind (start + 2) first) (hmiddle : middle = start + 2 + first.length)
    (hrest : ChainBracketed kind middle (further, start + 1) rest) :
    ChainBracketed kind start latest ([blend] ++ [further] ++ first ++ rest) := by
  subst hmiddle
  intro opening blocks
  obtain ⟨latest', hrest⟩ := hrest opening blocks
  have hbody := (hfirst _).append hrest
  exact ⟨latest', leadsTo_plain hblend
    (leadsTo_cons hfurther rfl (forall_mem_singleton.mpr hjump) hbody)⟩

theorem chainBracketed_otherwise (hblend : kind blend = .plain)
    (hfurther : kind further = .otherwise)
    (hjump : (⟨latest, 1, (further, start + 1)⟩ : Jump _).StandsInDraft)
    (hfirst : Bracketed kind (start + 2) first) :
    ChainBracketed kind start latest ([blend] ++ [further] ++ first) :=
  fun _ _ => ⟨none, leadsTo_plain hblend
    (leadsTo_cons hfurther rfl (forall_mem_singleton.mpr hjump) (hfirst _))⟩

/-- A condition with its branches is bracketed, if its jumps name its parts. -/
theorem bracketed_chain (hopening : kind opening = .condition)
    (hclose : kind close = .closeChain) (hfirst : Bracketed kind (start + 1) first)
    (hmiddle : middle = start + 1 + first.length)
    (hrest : ChainBracketed kind middle (opening, start) rest)
    (hjump : (⟨(opening, start), 2, (close, start + 1 + (first ++ rest).length)⟩ :
      Jump _).StandsInDraft) :
    Bracketed kind start ([opening] ++ first ++ rest ++ [close]) := by
  subst hmiddle
  intro blocks
  obtain ⟨latest', hrest⟩ := hrest (opening, start) blocks
  have hbody := (hfirst _).append hrest
  refine leadsTo_cons hopening rfl (fun _ h => by cases h) (hbody.append ?_)
  exact leadsTo_cons hclose rfl (forall_mem_singleton.mpr hjump) leadsTo_nil

/-- A loop is bracketed, if its jump names its end. -/
theorem bracketed_loop (hopening : kind opening = .loop)
    (hclose : kind close = .closeLoop) (hfirst : Bracketed kind (start + 1) first)
    (hjump : (⟨(opening, start), 1, (close, start + 1 + first.length)⟩ : Jump _).StandsInDraft) :
    Bracketed kind start ([opening] ++ first ++ [close]) := by
  intro blocks
  refine leadsTo_cons hopening rfl (fun _ h => by cases h) ((hfirst _).append ?_)
  exact leadsTo_cons hclose rfl (forall_mem_singleton.mpr hjump) leadsTo_nil

end Draft

variable {version : Int} {c : CompileContext} {s : Stmt} {commands : List Draft.Command}
  {name : String}

/-- The name of a command and its arguments tell its kind. -/
theorem Draft.Command.IsNamed.blockKind {line : Nat} {command : Draft.Command}
    (h : command.IsNamed c name line) :
    command.blockKind version c.vocabulary = .of (some name) command.arguments.length := by
  obtain ⟨code, hcode, heq⟩ := h.code
  rw [Draft.Command.blockKind, h.kept, heq, Int.toNat_natCast, hcode.nameOf?]
  rfl

theorem BlockKind.of_eq_plain (h : name ∉ blockNames) (n : Nat) :
    BlockKind.of (some name) n = .plain := by
  unfold BlockKind.of
  split <;> simp_all [blockNames]

/-- A statement without blocks opens none. -/
theorem Stmt.Emits.bracketed (h : s.Emits c commands)
    (hcalls : CallsNone blockNames (s.owners true)) (start : Nat) :
    Draft.Bracketed (Draft.Command.blockKind version c.vocabulary) start commands := by
  refine Draft.bracketed_plain fun command hcommand => ?_
  cases h with
  | silent _ hlabels =>
    rw [Draft.Command.blockKind, hlabels command hcommand]
    rfl
  | own hblock hsilent h hname =>
    rw [mem_singleton.mp hcommand, h.blockKind]
    refine BlockKind.of_eq_plain (fun hmem => ?_) _
    rw [Stmt.owners_of_own hblock hsilent] at hcalls
    rcases hname with hcalled | hname
    · exact hcalls _ (mem_singleton.mpr rfl) _ hcalled hmem
    · exact hname hmem

/-! ## Compiled statements -/

/-- A condition jumps to the next one. -/
def NamesNext (next : Option Nat) (latest : Draft.Command × Nat) : Prop :=
  ∀ n ∈ next, latest.1.arguments[1]?.map Draft.Argument.data = some (.jump n)

theorem namesNext_openChain (head : Draft.Command) (t : Coded) (next : Option Nat) (close n : Nat) :
    NamesNext next (openChain head t next close, n) := by
  rintro m hm
  cases hm
  rfl

theorem namesNext_continueChain (head : Draft.Command) (t : Coded) (next : Option Nat) (n : Nat) :
    NamesNext next (continueChain head t next, n) := by
  rintro m hm
  cases hm
  rfl

mutual

/-- The blocks of a statement are bracketed. -/
theorem CompiledStatement.bracketed {depth : Depth} {s : Stmt} {commands : List Draft.Command} :
    ∀ {p p' : Progress}, CompiledStatement c depth p s commands p' →
      CallsNone blockNames (s.owners true) →
        Draft.Bracketed (Draft.Command.blockKind version c.vocabulary) p.count commands
  | _, _, .simple h, hcalls => h.emits.bracketed hcalls _
  | p, _, .branch _ hopen hbody hchain hclose, hcalls => by
    obtain ⟨hbodyCalls, hchainCalls⟩ := hcalls.tail.append
    have hcount := hbody.leads.count
    have hend := hchain.leads.count
    refine Draft.bracketed_chain
      (blockKind (c := c) ⟨⟨_, hopen, rfl⟩, rfl, rfl⟩)
      (blockKind (c := c) ⟨⟨_, hclose, rfl⟩, rfl, rfl⟩)
      (hbody.bracketed hbodyCalls) hcount
      (hchain.bracketed hchainCalls (namesNext_openChain _ _ _ _ _)) ?_
    show some (Draft.Data.jump _) = some (.jump _)
    rw [hend, hcount, length_append, Nat.add_assoc]
    rfl
  | p, _, .loop _ hopen hbody hclose, hcalls => by
    refine Draft.bracketed_loop
      (blockKind (c := c) ⟨⟨_, hopen, rfl⟩, rfl, rfl⟩)
      (blockKind (c := c) ⟨⟨_, hclose, rfl⟩, rfl, rfl⟩)
      (hbody.bracketed hcalls.tail.append.1) ?_
    show some (Draft.Data.jump _) = some (.jump _)
    rw [hbody.leads.count]
    rfl

theorem CompiledStatements.bracketed {depth : Depth} {body : List Stmt}
    {commands : List Draft.Command} :
    ∀ {p p' : Progress}, CompiledStatements c depth p body commands p' →
      CallsNone blockNames (ownersIn true body) →
        Draft.Bracketed (Draft.Command.blockKind version c.vocabulary) p.count commands
  | _, _, .nil, _ => fun _ => Draft.leadsTo_nil
  | _, _, .cons h hrest, hcalls => by
    have hothers := hrest.bracketed hcalls.append.2
    rw [h.leads.count] at hothers
    exact fun blocks => (h.bracketed hcalls.append.1 blocks).append (hothers blocks)

theorem CompiledChain.bracketed {depth : Depth} {elseBody : List Stmt} {next : Option Nat}
    {commands : List Draft.Command} :
    ∀ {p p' : Progress}, CompiledChain c depth p elseBody next commands p' →
      CallsNone blockNames (chainOwners true elseBody) → ∀ {latest : Draft.Command × Nat},
        NamesNext next latest → Draft.ChainBracketed
          (Draft.Command.blockKind version c.vocabulary) p.count latest commands
  | _, _, .nil, _, latest, _ => fun _ _ => ⟨some latest, Draft.leadsTo_nil⟩
  | _, _, .elseIf hblend _ hcode hbody hchain, hcalls, _, hlatest =>
    Draft.chainBracketed_elseIf
      (blockKind (c := c) ⟨⟨_, hblend, rfl⟩, rfl, rfl⟩)
      (blockKind (c := c) ⟨⟨_, hcode, rfl⟩, rfl, rfl⟩)
      (hlatest _ rfl) (hbody.bracketed hcalls.append.1) hbody.leads.count
      (hchain.bracketed hcalls.append.2 (namesNext_continueChain _ _ _ _))
  | p, _, .otherwise hne hblend hcode hbody, hcalls, latest, hlatest => by
    rw [chainOwners_of_ne _ hne] at hcalls
    exact Draft.chainBracketed_otherwise
      (blockKind (c := c) ⟨⟨_, hblend, rfl⟩, rfl, rfl⟩)
      (blockKind (c := c) ⟨⟨_, hcode, rfl⟩, rfl, rfl⟩)
      (hlatest _ rfl) (hbody.bracketed hcalls)

end

end NovelScript
