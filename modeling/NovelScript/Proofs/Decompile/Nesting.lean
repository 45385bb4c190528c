import NovelScript.Proofs.Decompile.Layout

/-!
# Nesting, there and back

The commands of a script whose blocks are all closed form a `Layout`. When they are decompiled and
the statements compiled again, each command comes back at its place (`codes_of_rebuilt`), with one
exception. A branch without a condition that is nothing but a chain of conditions is written as the
rest of the chain around it, since the statements of the two are the same (`rebuilt_merge`), and so
the commands that open and close the inner chain are lost.
-/

namespace NovelScript

open List

variable {d : Decompiler} {s : StatementState}

/-! ## Codes of statements -/

namespace Draft

/-- The codes of the commands of a draft, without its labels. -/
def codesOf (commands : List Command) : List Int :=
  (commands.filter fun c => c.presence == .kept).map Command.code

@[simp] theorem codesOf_nil : codesOf [] = [] := rfl

@[simp] theorem codesOf_append (xs ys : List Command) :
    codesOf (xs ++ ys) = codesOf xs ++ codesOf ys := by
  simp [codesOf]

end Draft

open Draft (codesOf)

section Compiling

variable {c : CompileContext} {depth : Depth} {p p' : Progress} {commands : List Draft.Command}
variable {body : List Stmt} {labels : List Wording} {line : Nat} {name : String} {target : Expr}

/-- Statements are compiled part by part. -/
theorem compiledStatements_append {xs ys : List Stmt}
    (h : CompiledStatements c depth p (xs ++ ys) commands p') :
    ∃ first rest p₁, CompiledStatements c depth p xs first p₁ ∧
      CompiledStatements c depth p₁ ys rest p' ∧ commands = first ++ rest := by
  induction xs generalizing p commands with
  | nil => exact ⟨[], commands, p, .nil, h, rfl⟩
  | cons s xs ih =>
    cases h with
    | cons hs hrest =>
      obtain ⟨first, rest, p₁, hxs, hys, rfl⟩ := ih hrest
      exact ⟨_, rest, p₁, .cons hs hxs, hys, (append_assoc ..).symm⟩

theorem compiledStatements_of_orPass (h : CompiledStatements c depth p (orPass body) commands p') :
    CompiledStatements c depth p body commands p' := by
  cases body with
  | cons s rest => exact h
  | nil =>
    cases h with
    | cons hs hrest =>
      cases hrest
      cases hs with
      | simple hs =>
        cases hs
        exact .nil

theorem codesOf_labelStatement {name : Wording}
    (h : CompiledStatement c depth p (labelStatement name) commands p') :
    codesOf commands = [] := by
  generalize hs : labelStatement name = s at h
  cases h with
  | branch | loop => cases hs
  | simple h =>
    cases h with
    | label | codec => rfl
    | store hwritten h =>
      -- a label is no variable
      obtain ⟨-, rfl, -⟩ := hs
      rcases hwritten with rfl | hwritten
      · cases h with
        | intro ht => cases ht
      · cases hwritten
    | _ => cases hs

/-- Labels make no commands. -/
theorem codesOf_labelling
    (h : CompiledStatements c depth p (labels.map labelStatement) commands p') :
    codesOf commands = [] := by
  induction labels generalizing p commands with
  | nil =>
    cases h
    rfl
  | cons name labels ih =>
    cases h with
    | cons hs hrest => rw [Draft.codesOf_append, ih hrest, codesOf_labelStatement hs, nil_append]

theorem compiledStatements_of_body
    (h : CompiledStatements c depth p (orPass (body ++ labels.map labelStatement)) commands p') :
    ∃ inner p₁, CompiledStatements c depth p body inner p₁ ∧ codesOf commands = codesOf inner := by
  obtain ⟨inner, last, p₁, hbody, hlabels, rfl⟩ :=
    compiledStatements_append (compiledStatements_of_orPass h)
  refine ⟨inner, p₁, hbody, ?_⟩
  rw [Draft.codesOf_append, codesOf_labelling hlabels, append_nil]

theorem codesOf_keywordCommand {given : List (Option String × Draft.Argument)}
    (h : Compiling.keywordCommand c line name given p = .ok (commands, p')) :
    ∃ code, c.HasCode name code ∧ codesOf commands = [(code : Int)] := by
  obtain ⟨info, code, arguments, parameters, hinfo, -, rfl, -⟩ := keywordCommand_eq_ok h
  exact ⟨code, ⟨info, hinfo⟩, rfl⟩

theorem codesOf_definition {value : Option Expr}
    (h : CompiledDefinition c p line name target value commands p') :
    ∃ code, c.HasCode name code ∧ codesOf commands = [(code : Int)] := by
  cases h with
  | @intro d variableName dims p₁ t w n₂ n₃ code hd htarget hfree hdefined ht hw hcode =>
    exact ⟨code, hcode, rfl⟩

theorem codesOf_store {value : Expr} {op : Option BinaryOp}
    (h : CompiledStore c p line target op value commands p') :
    ∃ code, c.HasCode "LET" code ∧ codesOf commands = [(code : Int)] := by
  cases h with
  | @intro t w n₁ n₂ assignment code ht hop hw hcode => exact ⟨code, hcode, rfl⟩

/-- A statement that names a command is compiled to it. -/
theorem codesOf_commandName {line : Stmt} (hname : line.commandName? = some name)
    (h : CompiledStatement c depth p line commands p') :
    ∃ code, c.HasCode name code ∧ codesOf commands = [(code : Int)] := by
  cases h with
  | branch | loop => cases hname
  | simple h =>
    cases h with
    | pass | label | codec => cases hname
    | word hcode | returnCode _ hcode | evaluate _ hcode =>
      cases hname
      exact ⟨_, hcode, rfl⟩
    | call _ hcommand | context _ _ _ _ hcommand =>
      cases hname
      exact codesOf_keywordCommand hcommand
    | define h | defineAs h =>
      cases hname
      exact codesOf_definition h
    | augment h =>
      cases hname
      exact codesOf_store h
    | store hwritten h =>
      suffices name = "LET" from this ▸ codesOf_store h
      rcases hwritten with rfl | rfl
      · -- only a variable or an element of one can be stored in
        cases h with
        | intro ht =>
          cases ht with
          | value => cases hname; rfl
          | _ => cases hname
      · cases hname
        rfl

/-- A statement is compiled to the code that it gives. -/
theorem codesOf_gives {table : CommandTable} (htable : table.commands = c.vocabulary.commands)
    {line : Stmt} {code : Int} (hline : table.Gives line code)
    (h : CompiledStatement c depth p line commands p') : codesOf commands = [code] := by
  obtain ⟨name, n, hname, hn, rfl⟩ := hline
  obtain ⟨m, ⟨info, hinfo⟩, hcodes⟩ := codesOf_commandName hname h
  cases hn.symm.trans (CommandTable.code_of_command? htable hinfo).1
  exact hcodes

end Compiling

/-! ## Chains that are merged -/

/-- A branch without a condition is nothing but a chain, without a label at its start or its end. -/
def Layout.collapses (close : LabelledCommand) : Layout → Bool
  | .chain opening _ _ .nil => opening.labels.isEmpty && close.labels.isEmpty
  | _ => false

/-- A branch without a condition, where a branch that is nothing but a chain goes on with the
conditions of the chain. -/
def Branches.ofElse (blend bare close : LabelledCommand) : Layout → Branches
  | .chain opening body branches .nil =>
    if opening.labels.isEmpty && close.labels.isEmpty then .elseIf blend bare body branches
    else .otherwise blend bare (.chain opening body branches .nil) close
  | body => .otherwise blend bare body close

mutual

/-- A layout with every chain merged that makes up a branch without a condition. -/
def Layout.merge : Layout → Layout
  | .nil => .nil
  | .plain x rest => .plain x rest.merge
  | .chain opening body branches rest => .chain opening body.merge branches.merge rest.merge
  | .loop opening body close rest => .loop opening body.merge close rest.merge

/-- Branches with every such chain merged. -/
def Branches.merge : Branches → Branches
  | .close x => .close x
  | .elseIf blend test body rest => .elseIf blend test body.merge rest.merge
  | .otherwise blend bare body close => .ofElse blend bare close body.merge

end

mutual

/-- How many last branches are merged. -/
def Layout.merges : Layout → Nat
  | .nil => 0
  | .plain _ rest => rest.merges
  | .chain _ body branches rest => body.merges + branches.merges + rest.merges
  | .loop _ body _ rest => body.merges + rest.merges

/-- How many last branches are merged in branches. -/
def Branches.merges : Branches → Nat
  | .close _ => 0
  | .elseIf _ _ body rest => body.merges + rest.merges
  | .otherwise _ _ body close => body.merges + (body.collapses close).toNat

end

theorem Layout.collapses_merge (close : LabelledCommand) (l : Layout) :
    l.merge.collapses close = l.collapses close := by
  cases l with
  | nil | plain | loop => rfl
  | chain opening body branches rest => cases rest <;> rfl

/-- A branch without a condition is merged only if it collapses. -/
theorem Branches.ofElse_cases (blend bare close : LabelledCommand) (body : Layout) :
    (∃ opening inner branches, body = .chain opening inner branches .nil ∧ opening.labels = [] ∧
      close.labels = [] ∧ body.collapses close = true ∧
      ofElse blend bare close body = .elseIf blend bare inner branches) ∨
    (body.collapses close = false ∧
      ofElse blend bare close body = .otherwise blend bare body close) := by
  unfold ofElse
  split
  · next opening inner branches =>
    by_cases hlabels : opening.labels.isEmpty && close.labels.isEmpty
    · rw [if_pos hlabels]
      obtain ⟨hopening, hclose⟩ := Bool.and_eq_true_iff.mp hlabels
      exact .inl ⟨opening, inner, branches, rfl, List.isEmpty_iff.mp hopening,
        List.isEmpty_iff.mp hclose, hlabels, rfl⟩
    · rw [if_neg hlabels]
      exact .inr ⟨Bool.eq_false_iff.mpr hlabels, rfl⟩
  · next hne =>
    refine .inr ⟨?_, rfl⟩
    unfold Layout.collapses
    split
    · exact absurd rfl (hne _ _ _)
    · rfl

theorem Branches.labelling_merge (b : Branches) : b.merge.labelling = b.labelling := by
  cases b with
  | close | elseIf => rfl
  | otherwise blend bare body close =>
    rw [merge]
    rcases ofElse_cases blend bare close body.merge with ⟨_, _, _, -, -, -, -, heq⟩ | ⟨-, heq⟩ <;>
      (rw [heq]; rfl)

mutual

/-- Nothing is left to merge. -/
theorem Layout.merges_merge : ∀ l : Layout, l.merge.merges = 0
  | .nil => rfl
  | .plain x rest => rest.merges_merge
  | .chain opening body branches rest => by
    rw [Layout.merge, Layout.merges, body.merges_merge, branches.merges_merge, rest.merges_merge]
  | .loop opening body close rest => by
    rw [Layout.merge, Layout.merges, body.merges_merge, rest.merges_merge]

theorem Branches.merges_merge : ∀ b : Branches, b.merge.merges = 0
  | .close x => rfl
  | .elseIf blend test body rest => by
    rw [Branches.merge, Branches.merges, body.merges_merge, rest.merges_merge]
  | .otherwise blend bare body close => by
    have hbody := body.merges_merge
    rw [Branches.merge]
    rcases Branches.ofElse_cases blend bare close body.merge with
      ⟨opening, inner, branches, hchain, -, -, -, heq⟩ | ⟨hcollapses, heq⟩
    · rw [hchain, Layout.merges, Layout.merges] at hbody
      rw [heq, Branches.merges]
      omega
    · rw [heq, Branches.merges, hbody, hcollapses]
      rfl

end

mutual

/-- Each merge drops two commands. -/
theorem Layout.length_codes_merge : ∀ l : Layout,
    l.merge.codes.length + 2 * l.merges = l.codes.length
  | .nil => rfl
  | .plain x rest => by
    have hrest := rest.length_codes_merge
    simp only [Layout.merge, Layout.merges, Layout.codes_plain, length_cons]
    omega
  | .chain opening body branches rest => by
    have hbody := body.length_codes_merge
    have hbranches := branches.length_codes_merge
    have hrest := rest.length_codes_merge
    simp only [Layout.merge, Layout.merges, Layout.codes_chain, length_cons, length_append]
    omega
  | .loop opening body close rest => by
    have hbody := body.length_codes_merge
    have hrest := rest.length_codes_merge
    simp only [Layout.merge, Layout.merges, Layout.codes_loop, length_cons, length_append]
    omega

theorem Branches.length_codes_merge : ∀ b : Branches,
    b.merge.codes.length + 2 * b.merges = b.codes.length
  | .close x => rfl
  | .elseIf blend test body rest => by
    have hbody := body.length_codes_merge
    have hrest := rest.length_codes_merge
    simp only [Branches.merge, Branches.merges, Branches.codes_elseIf, length_cons, length_append]
    omega
  | .otherwise blend bare body close => by
    have hbody := body.length_codes_merge
    rw [Branches.merge, Branches.merges, ← body.collapses_merge close, Branches.codes_otherwise]
    rcases Branches.ofElse_cases blend bare close body.merge with
      ⟨opening, inner, branches, hchain, -, -, hcollapses, heq⟩ | ⟨hcollapses, heq⟩
    · rw [hchain] at hbody
      rw [heq, hcollapses]
      simp only [Layout.codes_chain, Layout.codes_nil, Branches.codes_elseIf, length_cons,
        length_append, length_nil, Bool.toNat_true] at hbody ⊢
      omega
    · rw [heq, hcollapses]
      simp only [Branches.codes_otherwise, length_cons, length_append, length_nil, Bool.toNat_false]
      omega

end

namespace Decompiler

variable {close x : LabelledCommand} {body : Layout} {last first elseBody : List Stmt} {line : Nat}
  {test : Expr}

theorem rebuiltBranches_ofElse {blend bare : LabelledCommand} (hblend : d.HasRole blend .blend)
    (hbare : d.HasRole bare .otherwise) (hbody : d.Rebuilt body last)
    (hclose : d.HasRole close .closeChain) :
    d.RebuiltBranches (.ofElse blend bare close body) (orPass (last ++ close.labelling)) := by
  rcases Branches.ofElse_cases blend bare close body with
    ⟨opening, inner, branches, rfl, hopening, hlabels, -, heq⟩ | ⟨-, heq⟩
  · rw [heq]
    cases hbody with
    | chain _ hinner hbranches hrest =>
      cases hrest
      simp only [LabelledCommand.labelling, hopening, hlabels]
      exact .elseIf hblend hbare hinner hbranches
  · rw [heq]
    exact .otherwise hblend hbare hbody hclose

mutual

/-- Merging changes nothing that is shown. -/
theorem rebuilt_merge : ∀ {l : Layout} {statements : List Stmt}, d.Rebuilt l statements →
    d.Rebuilt l.merge statements
  | .nil, _, h => h
  | .plain x rest, _, .plain hline hrest => .plain hline (rebuilt_merge hrest)
  | .chain opening body branches rest, _, .chain hopening hbody hbranches hrest => by
    rw [Layout.merge, ← branches.labelling_merge]
    exact .chain hopening (rebuilt_merge hbody) (rebuiltBranches_merge hbranches)
      (rebuilt_merge hrest)
  | .loop opening body close rest, _, .loop hopening hbody hclose hrest =>
    .loop hopening (rebuilt_merge hbody) hclose (rebuilt_merge hrest)

theorem rebuiltBranches_merge : ∀ {b : Branches} {elseBody : List Stmt},
    d.RebuiltBranches b elseBody → d.RebuiltBranches b.merge elseBody
  | .close x, _, h => h
  | .elseIf blend test body rest, _, .elseIf hblend htest hbody hrest => by
    rw [Branches.merge, ← rest.labelling_merge]
    exact .elseIf hblend htest (rebuilt_merge hbody) (rebuiltBranches_merge hrest)
  | .otherwise blend bare body close, _, .otherwise hblend hbare hbody hclose =>
    rebuiltBranches_ofElse hblend hbare (rebuilt_merge hbody) hclose

end

/-! ## Compiling a layout again -/

theorem eq_of_orPass_eq_branch {body : List Stmt}
    (h : orPass body = [.branch line test first elseBody]) :
    body = [.branch line test first elseBody] := by
  cases body with
  | nil => cases h
  | cons => exact h

theorem labels_of_eq_branch {s : Stmt} {others : List Stmt}
    (h : x.labelling ++ s :: others = [.branch line test first elseBody]) :
    x.labels = [] ∧ s = .branch line test first elseBody ∧ others = [] := by
  unfold LabelledCommand.labelling at h
  cases hlabels : x.labels with
  | nil =>
    rw [hlabels] at h
    exact ⟨rfl, List.cons.inj h⟩
  | cons name rest =>
    rw [hlabels] at h
    cases (List.cons.inj h).1

theorem Rebuilt.eq_nil {l : Layout} (h : d.Rebuilt l []) : l = .nil := by
  generalize hstatements : ([] : List Stmt) = statements at h
  cases h with
  | nil => rfl
  | plain | chain | loop => simp at hstatements

/-- A branch without a condition becomes a single condition only if it collapses. -/
theorem collapses_of_branch (hbody : d.Rebuilt body last)
    (h : orPass (last ++ close.labelling) = [.branch line test first elseBody]) :
    body.collapses close = true := by
  have hlast := eq_of_orPass_eq_branch h
  cases hbody with
  | nil =>
    obtain ⟨name, -, hname⟩ := mem_map.mp (hlast ▸ mem_singleton_self _)
    cases hname
  | plain hline hrest =>
    rw [append_assoc, cons_append] at hlast
    obtain ⟨-, rfl, -⟩ := labels_of_eq_branch hlast
    obtain ⟨name, n, hname, -⟩ := hline
    cases hname
  | loop hopening hinner hclose hrest =>
    rw [append_assoc, cons_append] at hlast
    obtain ⟨-, hloop, -⟩ := labels_of_eq_branch hlast
    cases hloop
  | chain hopening hinner hbranches hrest =>
    rw [append_assoc, cons_append] at hlast
    obtain ⟨hlabels, -, hothers⟩ := labels_of_eq_branch hlast
    obtain ⟨rfl, hclose⟩ := append_eq_nil_iff.mp hothers
    obtain rfl := hrest.eq_nil
    rw [Layout.collapses, hlabels, map_eq_nil_iff.mp hclose]
    rfl

variable {c : CompileContext}

theorem HasRole.code_of_hasCode (htable : d.commands.commands = c.vocabulary.commands)
    {role : BlockRole} (h : d.HasRole x role) {name : String}
    (hname : (name, some role) ∈ BlockRole.names) {n : Nat} (hn : c.HasCode name n) :
    x.code = n := by
  obtain ⟨info, hinfo⟩ := hn
  exact h.code_eq hname (CommandTable.code_of_command? htable hinfo).1

mutual

/-- Statements that were rebuilt have the codes of their layout, once it is merged. -/
theorem codes_of_rebuilt (htable : d.commands.commands = c.vocabulary.commands) {depth : Depth}
    {p p' : Progress} {commands : List Draft.Command} :
    ∀ {l : Layout} {statements : List Stmt}, l.merges = 0 → d.Rebuilt l statements →
      CompiledStatements c depth p statements commands p' → codesOf commands = l.codes
  | .nil, _, _, .nil, h => by
    cases h
    rfl
  | .plain x rest, _, hmerges, .plain hline hrest, h => by
    rw [Layout.merges] at hmerges
    obtain ⟨labels, others, p₁, hlabels, hothers, rfl⟩ := compiledStatements_append h
    cases hothers with
    | cons hs hothers =>
      rw [Draft.codesOf_append, Draft.codesOf_append, codesOf_labelling hlabels,
        codesOf_gives htable hline hs, codes_of_rebuilt htable hmerges hrest hothers]
      rfl
  | .chain opening body branches rest, _, hmerges, .chain hopening hbody hbranches hrest, h => by
    rw [Layout.merges, Nat.add_eq_zero_iff, Nat.add_eq_zero_iff] at hmerges
    obtain ⟨⟨hbodyMerges, hbranchesMerge⟩, hrestMerges⟩ := hmerges
    obtain ⟨labels, others, p₁, hlabels, hothers, rfl⟩ := compiledStatements_append h
    -- Labels of the command that ends the body are shown inside it.
    obtain ⟨extra, hextra⟩ := branches.labelling_eq_map
    rw [hextra] at hothers
    cases hothers with
    | cons hs hothers =>
      cases hs with
      | simple hs => cases hs
      | branch htest hopen hfirst hchain hclose =>
        obtain ⟨inner, p₂, hinner, hcodes⟩ := compiledStatements_of_body hfirst
        have hbranchCodes := codes_of_rebuiltBranches htable hbranchesMerge hbranches hchain hclose
        simp only [Draft.codesOf_append, codesOf_labelling hlabels, hcodes,
          codes_of_rebuilt htable hbodyMerges hbody hinner,
          codes_of_rebuilt htable hrestMerges hrest hothers, Layout.codes_chain, ← hbranchCodes,
          hopening.code_of_hasCode htable (by decide) hopen]
        simp [codesOf, Compiling.openChain, Progress.command]
  | .loop opening body close rest, _, hmerges, .loop hopening hbody hclose hrest, h => by
    rw [Layout.merges, Nat.add_eq_zero_iff] at hmerges
    obtain ⟨labels, others, p₁, hlabels, hothers, rfl⟩ := compiledStatements_append h
    cases hothers with
    | cons hs hothers =>
      cases hs with
      | simple hs => cases hs
      | loop htest hopen hinside hlast =>
        obtain ⟨inner, p₂, hinner, hcodes⟩ := compiledStatements_of_body hinside
        simp only [Draft.codesOf_append, codesOf_labelling hlabels, hcodes,
          codes_of_rebuilt htable hmerges.1 hbody hinner,
          codes_of_rebuilt htable hmerges.2 hrest hothers, Layout.codes_loop,
          hopening.code_of_hasCode htable (by decide) hopen,
          hclose.code_of_hasCode htable (by decide) hlast]
        simp [codesOf, Progress.command]

theorem codes_of_rebuiltBranches (htable : d.commands.commands = c.vocabulary.commands)
    {depth : Depth} {p p' : Progress} {commands : List Draft.Command} {next : Option Nat}
    {n : Nat} :
    ∀ {b : Branches} {elseBody : List Stmt}, b.merges = 0 → d.RebuiltBranches b elseBody →
      CompiledChain c depth p elseBody next commands p' → c.HasCode "IFEND" n →
      codesOf commands ++ [(n : Int)] = b.codes
  | .close x, _, _, .close hclose, h, hlast => by
    cases h
    rw [Branches.codes_close, hclose.code_of_hasCode htable (by decide) hlast]
    rfl
  | .elseIf blend test body rest, _, hmerges, .elseIf hblend htest hbody hrest, h, hlast => by
    rw [Branches.merges, Nat.add_eq_zero_iff] at hmerges
    obtain ⟨extra, hextra⟩ := rest.labelling_eq_map
    rw [hextra] at h
    cases h with
    | otherwise hne => exact absurd rfl (hne _ _ _ _)
    | elseIf hblendCode _ hcode hfirst hchain =>
      obtain ⟨inner, p₂, hinner, hcodes⟩ := compiledStatements_of_body hfirst
      have hrestCodes := codes_of_rebuiltBranches htable hmerges.2 hrest hchain hlast
      simp only [Draft.codesOf_append, hcodes, codes_of_rebuilt htable hmerges.1 hbody hinner,
        Branches.codes_elseIf, ← hrestCodes, hblend.code_of_hasCode htable (by decide) hblendCode,
        htest.code_of_hasCode htable (by decide) hcode]
      simp [codesOf, Compiling.continueChain, Progress.command]
  | .otherwise blend bare body close, _, hmerges, .otherwise hblend hbare hbody hclose, h,
    hlast => by
    rw [Branches.merges, Nat.add_eq_zero_iff, Bool.toNat_eq_zero] at hmerges
    generalize helse : orPass _ = elseBody at h
    cases h with
    | nil => exact absurd helse (orPass_ne_nil _)
    | elseIf => exact absurd (collapses_of_branch hbody helse) (Bool.eq_false_iff.mp hmerges.2)
    | otherwise _ hblendCode hcode hfirst =>
      rw [← helse] at hfirst
      obtain ⟨inner, p₂, hinner, hcodes⟩ := compiledStatements_of_body hfirst
      simp only [Draft.codesOf_append, hcodes, codes_of_rebuilt htable hmerges.1 hbody hinner,
        Branches.codes_otherwise, hblend.code_of_hasCode htable (by decide) hblendCode,
        hbare.code_of_hasCode htable (by decide) hcode,
        hclose.code_of_hasCode htable (by decide) hlast]
      simp [codesOf, Progress.command]

end

/-- Blocks come back with the same nesting, except for chains that make up a branch without a
condition. When a script whose blocks are all closed is decompiled and its statements are compiled
again, its commands come back with every such chain merged into the one around it, which loses two
commands for each. So all commands come back if and only if there is no such chain. -/
theorem codes_of_recompiled {number : Int} {script : Script} {statements : List Stmt}
    {labels labels' left : WaitingLabels} {layout : Layout} {depth : Depth} {p p' : Progress}
    {commands : List Draft.Command} (hnames : (d.commands.commands.map CommandInfo.name).Nodup)
    (hlabelled : d.labelled number script labels = .ok layout.flatten left)
    (hfits : d.Fits layout)
    (hstatements : d.statements number script labels = .ok statements labels')
    (htable : d.commands.commands = c.vocabulary.commands)
    (hcompiled : Compiling.statements c depth statements p = .ok (commands, p')) :
    codesOf commands = layout.merge.codes ∧
      (codesOf commands).length + 2 * layout.merges = script.commands.length ∧
      (codesOf commands = script.commands.map Command.code ↔ layout.merges = 0) := by
  have hcompiles := compiledStatements_of_statements hcompiled
  obtain ⟨s, hfold, rfl⟩ := foldlM_of_statements hstatements hlabelled
  have hstart : ({} : StatementState).blocks = ({} : OpenBlocks).add [] := rfl
  obtain ⟨statements, hrebuilt, hblocks⟩ := rebuilt_of_foldlM hnames hfits hstart hfold
  rw [hblocks, List.nil_append, OpenBlocks.statements_add] at hcompiles
  have hcodes := codes_of_rebuilt htable layout.merges_merge (rebuilt_merge hrebuilt) hcompiles
  have hlayout : layout.codes = script.commands.map Command.code := by
    rw [← commands_of_labelled hlabelled, List.map_map]
    rfl
  have hlength := layout.length_codes_merge
  rw [hlayout, List.length_map] at hlength
  refine ⟨hcodes, by rw [hcodes, hlength], fun hsame => ?_, fun hmerges => ?_⟩
  · rw [← hcodes, hsame, List.length_map] at hlength
    omega
  · rw [← hlayout]
    exact codes_of_rebuilt htable hmerges hrebuilt hcompiles

/-! ## A condition in a branch without a condition -/

/-- The decompiler of the samples. -/
def chainDecompiler : Decompiler where
  version := 480
  commands :=
    ⟨480, ("END" :: "LET" :: BlockRole.names.map Prod.fst).map fun name => ⟨name, []⟩, [], []⟩
  names := []
  scripts := 1

/-- A command without arguments. -/
def bareCommand (offset code : Int) : Command := ⟨offset, 0, code, [], 0⟩

/-- A command that opens a chain, with a condition that always holds. -/
def openingCommand (offset : Int) : Command :=
  ⟨offset, 0, 2, [⟨0, .int, .set, 0, 0, .code [.ofInt 1]⟩, ⟨0, .unknown, .set, 0, 0, .none⟩,
    ⟨0, .unknown, .set, 0, 0, .none⟩], 0⟩

/-- A chain whose branch without a condition is a chain of its own, with labels before it. -/
def innerChain (labels : List Wording) : Layout :=
  .chain ⟨[], openingCommand 0⟩ (.plain ⟨[], bareCommand 4 0⟩ .nil)
    (.otherwise ⟨[], bareCommand 8 5⟩ ⟨[], bareCommand 12 3⟩
      (.chain ⟨labels, openingCommand 16⟩ (.plain ⟨[], bareCommand 20 0⟩ .nil)
        (.close ⟨[], bareCommand 24 4⟩) .nil)
      ⟨[], bareCommand 28 4⟩) .nil

/-- The sample as a script. -/
def innerScript : Script := ⟨480, 0, (innerChain []).flatten.map LabelledCommand.command⟩

/-- What the samples are compiled with. -/
def chainContext :
    CompileContext := { vocabulary := { commands := chainDecompiler.commands.commands } }

theorem isPlain_bareCommand (offset : Int) :
    chainDecompiler.IsPlain ⟨[], bareCommand offset 0⟩ where
  nonneg := Int.le_refl 0
  role role h := by
    have hnone : chainDecompiler.firstNamed 0 BlockRole.names = .ok none := rfl
    cases hnone.symm.trans h

theorem fits_innerChain (labels : List Wording) : chainDecompiler.Fits (innerChain labels) := by
  have hinner : chainDecompiler.Fits (.chain ⟨labels, openingCommand 16⟩
      (.plain ⟨[], bareCommand 20 0⟩ .nil) (.close ⟨[], bareCommand 24 4⟩) .nil) :=
    ⟨rfl, ⟨isPlain_bareCommand 20, trivial⟩, rfl, trivial⟩
  exact ⟨rfl, ⟨isPlain_bareCommand 4, trivial⟩, ⟨rfl, rfl, rfl, hinner, rfl⟩, trivial⟩

/-- The statements of the chains, with statements before the inner one. -/
def innerStatements (before : List Stmt) : List Stmt :=
  let ending := [.expression 0 (.call (.name "END") [] [])]
  [.branch 0 (.int 1) ending (before ++ [.branch 0 (.int 1) ending []])]

/-- With a label before it, the inner chain comes back. -/
theorem codes_of_recompiled_label :
    chainDecompiler.statements 0 innerScript [⟨0, 16, .ofString "inner"⟩] =
      .ok (innerStatements [labelStatement (.ofString "inner")]) [] ∧
    ∃ commands p', Compiling.statements chainContext {}
        (innerStatements [labelStatement (.ofString "inner")]) { codec := Codec.ascii } =
      .ok (commands, p') ∧ codesOf commands = innerScript.commands.map Command.code := by
  have hnames : (chainDecompiler.commands.commands.map CommandInfo.name).Nodup := by decide +kernel
  have hlabelled : chainDecompiler.labelled 0 innerScript [⟨0, 16, .ofString "inner"⟩] =
      .ok (innerChain [.ofString "inner"]).flatten [] := rfl
  have hstatements : chainDecompiler.statements 0 innerScript [⟨0, 16, .ofString "inner"⟩] =
      .ok (innerStatements [labelStatement (.ofString "inner")]) [] := rfl
  have hcodes : ((Compiling.statements chainContext {}
      (innerStatements [labelStatement (.ofString "inner")]) { codec := Codec.ascii }).map
        fun x => codesOf x.1).toOption = some [2, 0, 5, 3, 2, 0, 4, 4] := by decide +kernel
  obtain ⟨⟨commands, p'⟩, hcompiled, -⟩ := exists_ok_of_map hcodes
  have hrecompiled := codes_of_recompiled hnames hlabelled (fits_innerChain _) hstatements rfl
    hcompiled
  exact ⟨hstatements, commands, p', hcompiled, hrecompiled.2.2.mpr rfl⟩

/-- Without a label, the commands that open and close the inner chain are lost. -/
theorem codes_of_innerScript :
    chainDecompiler.labelled 0 innerScript [] = .ok (innerChain []).flatten [] ∧
    chainDecompiler.Fits (innerChain []) ∧
    chainDecompiler.statements 0 innerScript [] = .ok (innerStatements []) [] ∧
    innerScript.commands.map Command.code = [2, 0, 5, 3, 2, 0, 4, 4] ∧
    ∃ commands p', Compiling.statements chainContext {} (innerStatements [])
      { codec := Codec.ascii } = .ok (commands, p') ∧ codesOf commands = [2, 0, 5, 3, 0, 4] := by
  have hcodes : ((Compiling.statements chainContext {} (innerStatements [])
      { codec := Codec.ascii }).map fun x => codesOf x.1).toOption = some [2, 0, 5, 3, 0, 4] := by
    decide +kernel
  obtain ⟨⟨commands, p'⟩, hcompiled, hcommands⟩ := exists_ok_of_map hcodes
  exact ⟨rfl, fits_innerChain [], rfl, rfl, commands, p', hcompiled, hcommands⟩

end Decompiler

end NovelScript
