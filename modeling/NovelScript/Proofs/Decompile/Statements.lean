import NovelScript.Proofs.Decompile.Labels
import NovelScript.Proofs.Decompile.Lines

/-!
# Decompiled statements

The commands of a statement are read back as events, and the decompiler reacts to them by adding the
restored statement to the block that is open, whatever is open around it (`Rebuilds`). A part of a
script can be read back in pieces (`Part.split`), so what is shown for the pieces of a statement
holds for the statement: first without blocks, then for conditions, whose chain is followed branch
by branch (`RestoresChain`), and for loops. At last it holds for all statements, by recursion over
how they are compiled (`CompiledStatements.restores`).
-/

namespace NovelScript

open List OpenBlocks Decompiler

variable {l : Linkage} {d : Decompiler} {options : CompileOptions} {order : List Wording}
  {labelAt : Nat → Wording}
variable {p p' p₂ : Progress} {first rest commands : List Draft.Command} {events : List Event}
  {s : Stmt} {code line blendCode openCode closeCode : Nat} {test : Expr}
  {body elseBody : List Stmt} {t : Coded} {n : Names} {next : Option Nat} {p₁ : Progress}

/-! ## Parts of a script -/

/-- The commands between two moments of a script are read back as events. -/
structure Linkage.Part (l : Linkage) (d : Decompiler) (labelAt : Nat → Wording) (p : Progress)
    (commands : List Draft.Command) (p' : Progress) (events : List Event) : Prop where
  happens : Happens d.commands d.version labelAt p.count
    (commands.map (Draft.Command.relocate l.numbers)) events
  labels : ∀ label ∈ p'.labels, labelAt label.command = label.name
  symbols : p'.names.symbols.reverse <+: l.symbols
  spelled : ∀ command ∈ commands, ∀ a ∈ command.arguments, ∀ w, a.data = .text w →
    Wording.ofString w.shown = w

theorem Linkage.Part.split (h : l.Part d labelAt p (first ++ rest) p' events)
    (hfirst : p.Leads l.vocabulary first p₁) (hrest : p₁.Leads l.vocabulary rest p') :
    ∃ before after, events = before ++ after ∧ l.Part d labelAt p first p₁ before ∧
      l.Part d labelAt p₁ rest p' after := by
  have hhappens := h.happens
  rw [map_append] at hhappens
  obtain ⟨before, after, rfl, hbefore, hafter⟩ := hhappens.of_append
  rw [length_map, ← hfirst.count] at hafter
  obtain ⟨added, hlabels, -⟩ := hrest.labels
  refine ⟨before, after, rfl, ⟨hbefore, ?_, ?_, ?_⟩, ⟨hafter, h.labels, h.symbols, ?_⟩⟩
  · exact fun label hmem => h.labels label (by rw [hlabels]; exact mem_append_right _ hmem)
  · have hearlier := reverse_prefix.mpr hrest.suffix
    exact hearlier.trans h.symbols
  · exact fun command hmem => h.spelled command (mem_append_left _ hmem)
  · exact fun command hmem => h.spelled command (mem_append_right _ hmem)

theorem Linkage.Part.command {command : Draft.Command} (h : l.Part d labelAt p [command] p' events)
    (hkept : command.presence = .kept) :
    ∃ r, events = [.command r] ∧
      Draft.ReadBack d.commands d.version (command.relocate l.numbers) r :=
  h.happens.of_singleton hkept

/-- The decompiler rebuilds statements from events, and knows the names afterwards. -/
def Linkage.Rebuilds (l : Linkage) (d : Decompiler) (order : List Wording) (events : List Event)
    (r : Restoring) (locals : Temporaries) (out : List Stmt × Restoring) (n : Names) : Prop :=
  ∃ locals', l.Follows n out.2.names locals' ∧
    ∀ (blocks : OpenBlocks) (earlier : List Stmt),
      events.foldlM (d.react order) (⟨blocks.add earlier, locals⟩, r.pending) =
        .ok (⟨blocks.add (earlier ++ out.1), locals'⟩, out.2.pending)

/-- A part of a script is restored, wherever it stands. -/
def Linkage.Restores (l : Linkage) (d : Decompiler) (order : List Wording)
    (labelAt : Nat → Wording) (p : Progress) (commands : List Draft.Command) (p' : Progress)
    (restored : Restoring → List Stmt × Restoring) : Prop :=
  ∀ (events : List Event) (r : Restoring) (locals : Temporaries),
    l.Part d labelAt p commands p' events → l.Follows p.names r.names locals →
      l.Rebuilds d order events r locals (restored r) p'.names

/-- Statements are restored one after the other. -/
theorem Linkage.Restores.append {f g : Restoring → List Stmt × Restoring}
    (hf : l.Restores d order labelAt p first p₁ f) (hg : l.Restores d order labelAt p₁ rest p' g)
    (hfirst : p.Leads l.vocabulary first p₁) (hrest : p₁.Leads l.vocabulary rest p') :
    l.Restores d order labelAt p (first ++ rest) p'
      fun r => ((f r).1 ++ (g (f r).2).1, (g (f r).2).2) := by
  intro events r locals hpart hfollows
  obtain ⟨before, after, rfl, hbefore, hafter⟩ := hpart.split hfirst hrest
  obtain ⟨locals₁, hfollows₁, hrun₁⟩ := hf _ _ _ hbefore hfollows
  obtain ⟨locals₂, hfollows₂, hrun₂⟩ := hg _ _ _ hafter hfollows₁
  refine ⟨locals₂, hfollows₂, fun blocks earlier => ?_⟩
  rw [foldlM_append, hrun₁ blocks earlier, ok_bind, hrun₂, append_assoc]

/-! ## Statements without blocks -/

theorem foldlM_command {r : Command} {s s' : StatementState} {pending : List Wording}
    (h : d.statementOf { s with blocks := s.blocks.add (pendingLabels order pending) } r = .ok s') :
    [Event.command r].foldlM (d.react order) (s, pending) = .ok (s', []) := by
  rw [foldlM_cons, react, h]
  rfl

theorem restores_of_writesLine (hlabel : s.label? = none)
    (h : ∀ (ρ : Renaming) (locals : Temporaries) (events : List Event),
      l.Part d labelAt p commands p' events → l.Follows p.names ρ locals →
        l.WritesLine d ρ locals s commands p'.names) :
    l.Restores d order labelAt p commands p' (s.restoreLine order) := by
  intro events r locals hpart hfollows
  obtain ⟨command, locals', rfl, hwrites, hfollows'⟩ := h _ _ _ hpart hfollows
  obtain ⟨x, rfl, hx⟩ := hpart.command hwrites.kept
  have hline : s.restoreLine order r =
      (pendingLabels order r.pending ++ [s.restoredLine (r.names.after s).name],
        ⟨r.names.after s, []⟩) := by
    rw [Stmt.restoreLine, hlabel]
  dsimp only
  rw [hline]
  refine ⟨locals', hfollows', fun blocks earlier => ?_⟩
  have hstep : [Event.command x].foldlM (d.react order) (⟨blocks.add earlier, locals⟩, r.pending) =
      .ok (⟨((blocks.add earlier).add (pendingLabels order r.pending)).add
        [s.restoredLine (r.names.after s).name], locals'⟩, []) :=
    foldlM_command (hwrites.statement x hx _)
  rw [hstep, add_add, add_add]

/-- A statement without blocks is restored. -/
theorem CompiledSimple.restores (hk : l.KnownTo d) {depth : Depth}
    (h : CompiledSimple (l.context options) depth p s commands p')
    (hplain : s.isPlain d.version = true) :
    l.Restores d order labelAt p commands p' fun r => s.restore order r := by
  -- all but empty statements and labels
  have hline : (∀ line, s ≠ .pass line) → s.label? = none → s.lineIsPlain d.version = true →
      l.Restores d order labelAt p commands p' (s.restoreLine order) :=
    fun hpass hlabel hplain => restores_of_writesLine hlabel fun _ _ _ hpart hfollows =>
      h.writesLine hk hpass hlabel hplain hpart.spelled hfollows hpart.symbols
  cases id h with
  | pass =>
    intro events r locals hpart hfollows
    cases hpart.happens
    refine ⟨locals, hfollows, fun blocks earlier => ?_⟩
    show Except.ok ((⟨blocks.add earlier, locals⟩ : StatementState), _) =
      Except.ok (⟨blocks.add (earlier ++ []), locals⟩, _)
    rw [append_nil]
    rfl
  | @label line name marked hfresh =>
    intro events r locals hpart hfollows
    have hname : labelAt p.count = name := hpart.labels _ mem_cons_self
    cases hpart.happens with
    | command hkept => cases hkept
    | label _ hrest =>
      cases hrest
      refine ⟨locals, hfollows, fun blocks earlier => ?_⟩
      rw [hname]
      show Except.ok ((⟨blocks.add earlier, locals⟩ : StatementState), _) =
        Except.ok (⟨blocks.add (earlier ++ []), locals⟩, _)
      rw [append_nil]
      rfl
  | codec => cases hplain
  | word | returnCode | evaluate | call | context | define | defineAs =>
    exact hline nofun rfl hplain
  | store hwritten hstore =>
    refine hline nofun ?_ hplain
    rcases hwritten with rfl | rfl
    · obtain ⟨_, _, htarget⟩ := hstore.target
      cases htarget <;> rfl
    · rfl
  | augment => exact hline nofun rfl hplain

/-! ## Conditions -/

@[simp] theorem pendingLabels_nil (order : List Wording) : pendingLabels order [] = [] := by
  simp [pendingLabels]

/-- A last branch as it is shown. -/
def restoreOther (order : List Wording) (names : Renaming) (elseBody : List Stmt) :
    List Stmt × Renaming :=
  if elseBody.isEmpty then ([], names)
  else closeBlock order (restoreAll order ⟨names, []⟩ elseBody)

theorem restore_branch (order : List Wording) (r : Restoring) (line : Nat) (test : Expr)
    (body elseBody : List Stmt) :
    (Stmt.branch line test body elseBody).restore order r =
      let first := closeBlock order (restoreAll order ⟨r.names, []⟩ body)
      let other := restoreOther order first.2 elseBody
      (pendingLabels order r.pending ++ [.branch 0 (test.restored r.names.name) first.1 other.1],
        ⟨other.2, []⟩) := by
  rw [Stmt.restore]
  rfl

theorem restoreOther_branch (order : List Wording) (names : Renaming) (line : Nat) (test : Expr)
    (body elseBody : List Stmt) :
    restoreOther order names [.branch line test body elseBody] =
      let first := closeBlock order (restoreAll order ⟨names, []⟩ body)
      let other := restoreOther order first.2 elseBody
      ([.branch 0 (test.restored names.name) first.1 other.1], other.2) := by
  simp [restoreOther, restoreAll, restore_branch, closeBlock, orPass]

/-- The rest of a chain of conditions is restored with the command that closes the chain. -/
def Linkage.RestoresChain (l : Linkage) (d : Decompiler) (order : List Wording)
    (labelAt : Nat → Wording) (p : Progress) (commands : List Draft.Command) (p' : Progress)
    (elseBody : List Stmt) : Prop :=
  ∀ (events : List Event) (r : Restoring) (locals : Temporaries) (close : Nat),
    d.commands.code "IFEND" = .ok close →
    l.Part d labelAt p (commands ++ [p'.command none close]) (p'.placed none) events →
    l.Follows p.names r.names locals →
    ∃ locals', l.Follows p'.names (restoreOther order r.names elseBody).2 locals' ∧
      ∀ (around : OpenBlocks) (done : List (Expr × List Stmt)) (test : Expr) (body : List Stmt),
        events.foldlM (d.react order)
          (⟨(around.inCondition done test).add body, locals⟩, r.pending) =
          .ok (⟨around.add (chainOf
            (done ++ [(test, orPass (body ++ pendingLabels order r.pending))])
            (restoreOther order r.names elseBody).1), locals'⟩, [])

section

variable (hk : l.KnownTo d)
include hk

theorem restoresChain_nil (p : Progress) : l.RestoresChain d order labelAt p [] p [] := by
  intro events r locals close hclose hpart hfollows
  obtain ⟨x, rfl, hx⟩ := hpart.command rfl
  refine ⟨locals, hfollows, fun around done test body => ?_⟩
  refine foldlM_command (statementOf_ifEnd hk.roles hx rfl hclose rfl ?_)
  rw [add_add, closeChain_inCondition]
  rfl

/-- A dividing command changes nothing. -/
theorem foldlM_blend {x : Command} {locals : Temporaries}
    (hcode : (l.context options).HasCode "IFBLEND" code)
    (hx : Draft.ReadBack d.commands d.version ((p.command none code).relocate l.numbers) x)
    (around : OpenBlocks) (done : List (Expr × List Stmt)) (test : Expr) (body : List Stmt)
    (pending : List Wording) :
    [Event.command x].foldlM (d.react order)
        (⟨(around.inCondition done test).add body, locals⟩, pending) =
      .ok (⟨(around.inCondition done test).add (body ++ pendingLabels order pending),
        locals⟩, []) := by
  rw [← add_add]
  refine foldlM_command (statementOf_ifBlend hk.roles hx rfl (hk.code_eq_ok hcode) rfl ?_)
  rw [add_add]
  exact requireCondition_inCondition _ _ _ _

section

variable (hblend : (l.context options).HasCode "IFBLEND" blendCode)
include hblend

/-- A further condition is restored. -/
theorem restoresChain_elseIf
    (htest : Compiled l.vocabulary p.names test t n) (hplain : test.isPlain d.version = true)
    (hcode : (l.context options).HasCode "ELSE" code)
    (hfirst : (((p.placed none).named n).placed none).Leads l.vocabulary first p₂)
    (hbody : l.Restores d order labelAt (((p.placed none).named n).placed none) first p₂
      fun r => restoreAll order r body) (hrest : p₂.Leads l.vocabulary rest p')
    (hchain : l.RestoresChain d order labelAt p₂ rest p' elseBody) :
    l.RestoresChain d order labelAt p
      ([p.command none blendCode] ++
        [Compiling.continueChain ((p.placed none).command none code) t next] ++ first ++ rest) p'
      [.branch line test body elseBody] := by
  intro events r locals close hclose hpart hfollows
  simp only [append_assoc] at hpart
  have hcondition : (p.placed none).Leads l.vocabulary
      [Compiling.continueChain ((p.placed none).command none code) t next]
      (((p.placed none).named n).placed none) :=
    leads_condition (p := p.placed none) htest rfl (fun _ => mem_continueChain) _
  have hend := hrest.append (leads_bare l.vocabulary p' none close)
  obtain ⟨_, _, rfl, hpart₁, hpart⟩ := hpart.split (leads_bare _ _ _ _)
    (hcondition.append (hfirst.append hend))
  obtain ⟨_, _, rfl, hpart₂, hpart⟩ := hpart.split hcondition (hfirst.append hend)
  obtain ⟨events₃, events₄, rfl, hpart₃, hpart₄⟩ := hpart.split hfirst hend
  -- The dividing command and the condition, then body and rest by what is known of them.
  obtain ⟨x, rfl, hx⟩ := hpart₁.command rfl
  obtain ⟨y, rfl, hy⟩ := hpart₂.command rfl
  have hfollows₂ := hfollows.extends htest.extends hpart₂.symbols
  obtain ⟨locals₃, hfollows₃, hrun₃⟩ := hbody _ ⟨r.names, []⟩ _ hpart₃ hfollows₂
  obtain ⟨locals₄, hfollows₄, hrun₄⟩ := hchain _ _ _ _ hclose hpart₄ hfollows₃
  rw [restoreOther_branch]
  refine ⟨locals₄, hfollows₄, fun around done test' body' => ?_⟩
  have hopen : [Event.command y].foldlM (d.react order)
      (⟨(around.inCondition done test').add (body' ++ pendingLabels order r.pending), locals⟩, []) =
      .ok (⟨(around.inCondition (done ++ [(test', orPass (body' ++ pendingLabels order r.pending))])
        (test.restored r.names.name)).add [], locals⟩, []) := by
    refine foldlM_command (statementOf_elseIf hk.roles hy rfl (hk.code_eq_ok hcode) rfl
      rfl ?_ trivial (htest.expr_eq hk hplain hfollows₂) ?_ ?_)
    · cases next <;> trivial
    · rw [add_add]
      exact requireCondition_inCondition _ _ _ _
    · rw [add_add, pendingLabels_nil, append_nil, elseIf_inCondition,
        inCondition_add_nil]
  rw [foldlM_append, foldlM_blend hk hblend hx, ok_bind, foldlM_append, hopen, ok_bind,
    foldlM_append, hrun₃, ok_bind, nil_append, hrun₄, chainOf_append _ [_]]
  rfl

/-- So is a last branch. -/
theorem restoresChain_otherwise {rest : List Stmt}
    (hcode : (l.context options).HasCode "ELSE" code)
    (hcommands : ((p.placed none).placed none).Leads l.vocabulary commands p')
    (hbody : l.Restores d order labelAt ((p.placed none).placed none) commands p'
      fun r => restoreAll order r (s :: rest)) :
    l.RestoresChain d order labelAt p
      ([p.command none blendCode] ++ [(p.placed none).command none code] ++ commands) p'
      (s :: rest) := by
  intro events r locals close hclose hpart hfollows
  simp only [append_assoc] at hpart
  have hend := hcommands.append (leads_bare l.vocabulary p' none close)
  obtain ⟨_, _, rfl, hpart₁, hpart⟩ := hpart.split (leads_bare _ _ _ _)
    ((leads_bare _ (p.placed none) none code).append hend)
  obtain ⟨_, _, rfl, hpart₂, hpart⟩ := hpart.split (leads_bare _ _ _ _) hend
  obtain ⟨events₃, _, rfl, hpart₃, hpart₄⟩ := hpart.split hcommands (leads_bare _ _ _ _)
  obtain ⟨x, rfl, hx⟩ := hpart₁.command rfl
  obtain ⟨y, rfl, hy⟩ := hpart₂.command rfl
  obtain ⟨z, rfl, hz⟩ := hpart₄.command rfl
  obtain ⟨locals₃, hfollows₃, hrun₃⟩ := hbody _ ⟨r.names, []⟩ _ hpart₃ hfollows
  refine ⟨locals₃, hfollows₃, fun around done test body => ?_⟩
  -- The last test is closed with the labels that wait.
  let done' := done ++ [(test, orPass (body ++ pendingLabels order r.pending))]
  have hopen : [Event.command y].foldlM (d.react order)
      (⟨(around.inCondition done test).add (body ++ pendingLabels order r.pending), locals⟩, []) =
      .ok (⟨(around.inOtherwise done').add [], locals⟩, []) := by
    refine foldlM_command
      (statementOf_else hk.roles hy rfl (hk.code_eq_ok hcode) rfl ?_ ?_)
    · rw [add_add]
      exact requireCondition_inCondition _ _ _ _
    · rw [add_add, pendingLabels_nil, append_nil, otherwise_inCondition]
      rfl
  have hshut : ∀ (inside : List Stmt) (pending : List Wording),
      [Event.command z].foldlM (d.react order)
        (⟨(around.inOtherwise done').add inside, locals₃⟩, pending) =
      .ok (⟨around.add (chainOf done' (orPass (inside ++ pendingLabels order pending))), locals₃⟩,
        []) := by
    intro inside pending
    refine foldlM_command (statementOf_ifEnd hk.roles hz rfl hclose rfl ?_)
    rw [add_add]
    exact closeChain_inOtherwise around (by simp [done']) _
  rw [foldlM_append, foldlM_blend hk hblend hx, ok_bind, foldlM_append, hopen, ok_bind,
    foldlM_append, hrun₃, ok_bind, nil_append, hshut]
  rfl

end

section

variable (htest : Compiled l.vocabulary p.names test t n) (hplain : test.isPlain d.version = true)
include htest hplain

/-- A condition is restored from its branches. -/
theorem restores_branch {p₃ : Progress}
    (hopen : (l.context options).HasCode "IF" openCode)
    (hclose : (l.context options).HasCode "IFEND" closeCode)
    (hfirst : ((p.named n).placed (some line)).Leads l.vocabulary first p₂)
    (hbody : l.Restores d order labelAt ((p.named n).placed (some line)) first p₂
      fun r => restoreAll order r body) (hrest : p₂.Leads l.vocabulary rest p₃)
    (hchain : l.RestoresChain d order labelAt p₂ rest p₃ elseBody) :
    l.Restores d order labelAt p
      ([Compiling.openChain (p.command (some line) openCode) t next p₃.count] ++ first ++ rest ++
        [p₃.command none closeCode]) (p₃.placed none)
      fun r => (Stmt.branch line test body elseBody).restore order r := by
  intro events r locals hpart hfollows
  simp only [append_assoc] at hpart
  have hcondition : p.Leads l.vocabulary
      [Compiling.openChain (p.command (some line) openCode) t next p₃.count]
      ((p.named n).placed (some line)) :=
    leads_condition htest rfl (fun _ => mem_openChain) _
  have hend := hrest.append (leads_bare l.vocabulary p₃ none closeCode)
  obtain ⟨_, _, rfl, hpart₁, hpart⟩ := hpart.split hcondition (hfirst.append hend)
  obtain ⟨events₂, events₃, rfl, hpart₂, hpart₃⟩ := hpart.split hfirst hend
  obtain ⟨x, rfl, hx⟩ := hpart₁.command rfl
  have hfollows₁ := hfollows.extends htest.extends hpart₁.symbols
  obtain ⟨locals₂, hfollows₂, hrun₂⟩ := hbody _ ⟨r.names, []⟩ _ hpart₂ hfollows₁
  obtain ⟨locals₃, hfollows₃, hrun₃⟩ := hchain _ _ _ _ (hk.code_eq_ok hclose) hpart₃ hfollows₂
  dsimp only
  rw [restore_branch]
  refine ⟨locals₃, hfollows₃, fun blocks earlier => ?_⟩
  -- Labels that wait are shown before the condition opens.
  let around := (blocks.add earlier).add (pendingLabels order r.pending)
  have hopened : [Event.command x].foldlM (d.react order)
      (⟨blocks.add earlier, locals⟩, r.pending) =
      .ok (⟨(around.inCondition [] (test.restored r.names.name)).add [], locals⟩, []) := by
    rw [inCondition_add_nil]
    refine foldlM_command (statementOf_if hk.roles hx rfl (hk.code_eq_ok hopen) rfl
      rfl ?_ trivial (htest.expr_eq hk hplain hfollows₁))
    cases next <;> trivial
  rw [foldlM_append, hopened, ok_bind, foldlM_append, hrun₂, ok_bind, nil_append,
    hrun₃, add_add, add_add]
  rfl

/-! ## Loops -/

/-- A loop is restored from its body. -/
theorem restores_loop {inside : List Draft.Command}
    (hopen : (l.context options).HasCode "LOOP" openCode)
    (hclose : (l.context options).HasCode "LOOPEND" closeCode)
    (hcondition : p.Leads l.vocabulary
      [p.command (some line) openCode [t.argument .set, { data := .jump p₂.count }]]
      ((p.named n).placed (some line)))
    (hinside : ((p.named n).placed (some line)).Leads l.vocabulary inside p₂)
    (hbody : l.Restores d order labelAt ((p.named n).placed (some line)) inside p₂
      fun r => restoreAll order r body) :
    l.Restores d order labelAt p
      ([p.command (some line) openCode [t.argument .set, { data := .jump p₂.count }]] ++ inside ++
        [p₂.command none closeCode]) (p₂.placed none)
      fun r => (Stmt.loop line test body elseBody).restore order r := by
  intro events r locals hpart hfollows
  simp only [append_assoc] at hpart
  have hend := hinside.append (leads_bare l.vocabulary p₂ none closeCode)
  obtain ⟨_, _, rfl, hpart₁, hpart⟩ := hpart.split hcondition hend
  obtain ⟨events₂, _, rfl, hpart₂, hpart₃⟩ := hpart.split hinside (leads_bare _ _ _ _)
  obtain ⟨x, rfl, hx⟩ := hpart₁.command rfl
  obtain ⟨y, rfl, hy⟩ := hpart₃.command rfl
  have hfollows₁ := hfollows.extends htest.extends hpart₁.symbols
  obtain ⟨locals₂, hfollows₂, hrun₂⟩ := hbody _ ⟨r.names, []⟩ _ hpart₂ hfollows₁
  dsimp only
  rw [Stmt.restore]
  refine ⟨locals₂, hfollows₂, fun blocks earlier => ?_⟩
  let around := (blocks.add earlier).add (pendingLabels order r.pending)
  have hopened : [Event.command x].foldlM (d.react order)
      (⟨blocks.add earlier, locals⟩, r.pending) =
      .ok (⟨(around.openLoop (test.restored r.names.name)).add [], locals⟩, []) :=
    foldlM_command (statementOf_loop hk.roles hx rfl (hk.code_eq_ok hopen) rfl rfl trivial
      (htest.expr_eq hk hplain hfollows₁))
  -- Labels that are left in the body end up before its close.
  have hclosed : ∀ (inside : List Stmt) (pending : List Wording),
      [Event.command y].foldlM (d.react order)
        (⟨(around.openLoop (test.restored r.names.name)).add inside, locals₂⟩, pending) =
      .ok (⟨around.add [.loop 0 (test.restored r.names.name)
        (orPass (inside ++ pendingLabels order pending)) []], locals₂⟩, []) := by
    intro inside pending
    refine foldlM_command
      (statementOf_loopEnd hk.roles hy rfl (hk.code_eq_ok hclose) rfl ?_)
    rw [add_add]
    exact closeInnerLoop_openLoop _ _ _
  rw [foldlM_append, hopened, ok_bind, foldlM_append, hrun₂, ok_bind, nil_append,
    hclosed, add_add, add_add]
  rfl

end

end

/-! ## All statements -/

theorem leads_loop {v : Vocabulary} (htest : Compiled v p.names test t n) (line code close : Nat) :
    p.Leads v [p.command (some line) code [t.argument .set, { data := .jump close }]]
      ((p.named n).placed (some line)) := by
  refine leads_condition htest rfl (fun a ha => ?_) _
  simp only [Progress.command, mem_cons, not_mem_nil, or_false] at ha
  rcases ha with rfl | rfl
  · exact .inl rfl
  · exact .inr fun _ => trivial

mutual

/-- Every plain statement is restored. -/
theorem CompiledStatement.restores (hk : l.KnownTo d) {depth : Depth} {s : Stmt}
    {commands : List Draft.Command} :
    ∀ {p p' : Progress}, CompiledStatement (l.context options) depth p s commands p' →
      s.isPlain d.version = true →
      l.Restores d order labelAt p commands p' fun r => s.restore order r
  | _, _, .simple h, hplain => h.restores hk hplain
  | _, _, .branch htest hopen hbody hchain hclose, hplain => by
    rw [Stmt.isPlain, Bool.and_eq_true, Bool.and_eq_true] at hplain
    exact restores_branch hk htest hplain.1.1 hopen hclose hbody.leads
      (hbody.restores hk hplain.1.2) hchain.leads (hchain.restores hk hplain.2)
  | _, _, .loop htest hopen hbody hclose, hplain => by
    rw [Stmt.isPlain, Bool.and_eq_true, Bool.and_eq_true] at hplain
    exact restores_loop hk htest hplain.1.1 hopen hclose (leads_loop htest _ _ _) hbody.leads
      (hbody.restores hk hplain.1.2)

/-- **Compiled statements are restored from their commands.** -/
theorem CompiledStatements.restores (hk : l.KnownTo d) {depth : Depth} {body : List Stmt}
    {commands : List Draft.Command} :
    ∀ {p p' : Progress}, CompiledStatements (l.context options) depth p body commands p' →
      allArePlain d.version body = true →
      l.Restores d order labelAt p commands p' fun r => restoreAll order r body
  | _, _, .nil, _ => by
    intro events r locals hpart hfollows
    cases hpart.happens
    refine ⟨locals, hfollows, fun blocks earlier => ?_⟩
    dsimp only [restoreAll]
    rw [append_nil]
    rfl
  | _, _, .cons h hrest, hplain => by
    rw [allArePlain, Bool.and_eq_true] at hplain
    exact (h.restores hk hplain.1).append (hrest.restores hk hplain.2) h.leads hrest.leads

theorem CompiledChain.restores (hk : l.KnownTo d) {depth : Depth} {elseBody : List Stmt}
    {next : Option Nat} {commands : List Draft.Command} :
    ∀ {p p' : Progress}, CompiledChain (l.context options) depth p elseBody next commands p' →
      allArePlain d.version elseBody = true →
      l.RestoresChain d order labelAt p commands p' elseBody
  | _, _, .nil, _ => restoresChain_nil hk _
  | _, _, .elseIf hblend htest hcode hbody hchain, hplain => by
    rw [allArePlain, Bool.and_eq_true, Stmt.isPlain, Bool.and_eq_true, Bool.and_eq_true] at hplain
    exact restoresChain_elseIf hk hblend htest hplain.1.1.1 hcode hbody.leads
      (hbody.restores hk hplain.1.1.2) hchain.leads (hchain.restores hk hplain.1.2)
  | _, _, .otherwise _ hblend hcode hbody, hplain =>
    restoresChain_otherwise hk hblend hcode hbody.leads (hbody.restores hk hplain)

end

end NovelScript
