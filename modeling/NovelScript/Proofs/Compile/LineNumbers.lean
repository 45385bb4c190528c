import NovelScript.Proofs.Compile.Coverage

/-!
# The lines of commands

A command has the line of its statement, or of the command before it if it divides or closes a
block. So the lines of a draft never decrease if those of its statements do not
(`CompiledStatements.risesOver`).
-/

namespace NovelScript

open List Compiling

/-! ## Lines of statements -/

mutual

/-- The lines of a statement and of the statements in its blocks, in order. What stands in the body
of a call has no line of its own in a script. -/
def Stmt.sourceLines : Stmt → List Nat
  | .branch line _ body elseBody => line :: (sourceLinesIn body ++ sourceLinesIn elseBody)
  | .loop line _ body elseBody => line :: (sourceLinesIn body ++ sourceLinesIn elseBody)
  | s => [s.line]

/-- The lines of statements and of those in their blocks, in order. -/
def sourceLinesIn : List Stmt → List Nat
  | [] => []
  | s :: rest => s.sourceLines ++ sourceLinesIn rest

end

theorem sourceLinesIn_sublist (line : Nat) (test : Expr) (body elseBody : List Stmt) :
    (sourceLinesIn body ++ sourceLinesIn elseBody).Sublist
      (sourceLinesIn [.branch line test body elseBody]) :=
  (sublist_cons_self ..).trans (sublist_append_left ..)

/-- Where sorted lines are cut, those behind the cut go on from any before it. -/
theorem pairwise_cut {low : Nat} {xs ys : List Nat} (h : (low :: (xs ++ ys)).Pairwise (· ≤ ·)) :
    (low :: xs).Pairwise (· ≤ ·) ∧ ∀ mid ∈ low :: xs, (mid :: ys).Pairwise (· ≤ ·) := by
  rw [← cons_append, pairwise_append] at h
  exact ⟨h.1, fun mid hmid => pairwise_cons.mpr ⟨h.2.2 mid hmid, h.2.1⟩⟩

theorem mem_of_cut {low mid high : Nat} {xs ys : List Nat} (hmid : mid ∈ low :: xs)
    (hhigh : high ∈ mid :: ys) : high ∈ low :: (xs ++ ys) := by
  rw [← cons_append, mem_append]
  rcases mem_cons.mp hhigh with rfl | hhigh
  · exact .inl hmid
  · exact .inr hhigh

/-! ## Lines of commands -/

/-- The lines of commands go up from one line to another. Labels have none. -/
inductive Rising : Nat → List Draft.Command → Nat → Prop
  | nil {line : Nat} : Rising line [] line
  | label {low high : Nat} {command : Draft.Command} {rest : List Draft.Command}
      (hlabel : command.presence = .label) (hrest : Rising low rest high) :
      Rising low (command :: rest) high
  | kept {low line high : Nat} {command : Draft.Command} {rest : List Draft.Command}
      (hkept : command.presence = .kept) (hline : command.line = line) (hle : low ≤ line)
      (hrest : Rising line rest high) : Rising low (command :: rest) high

variable {c : CompileContext} {depth : Depth} {p p' : Progress} {s : Stmt}
  {commands first rest : List Draft.Command} {command : Draft.Command} {low mid high line : Nat}
  {lines : List Nat} {name : String} {body : List Stmt}

/-- Lines rise on from the last one. -/
theorem Rising.append (h : Rising low first mid) (h' : Rising mid rest high) :
    Rising low (first ++ rest) high := by
  induction h with
  | nil => exact h'
  | label hlabel _ ih => exact .label hlabel (ih h')
  | kept hkept hline hle _ ih => exact .kept hkept hline hle (ih h')

/-- The lines of the commands that are kept. -/
theorem Rising.sorted (version : Int) (h : Rising low commands high) :
    ((low : Int) :: (commands.filter fun x => !x.presence.isLeftOut version).map
      Draft.Command.line).Pairwise (· ≤ ·) := by
  induction h with
  | nil => exact pairwise_singleton ..
  | label hlabel _ ih =>
    rw [filter_cons_of_neg (by simp [hlabel, Draft.Presence.isLeftOut])]
    exact ih
  | @kept low line _ command _ hkept hline hle _ ih =>
    rw [filter_cons_of_pos (by simp [hkept, Draft.Presence.isLeftOut]), map_cons, hline]
    have hlow : (low : Int) ≤ line := Int.ofNat_le.mpr hle
    refine pairwise_cons.mpr ⟨fun x hx => ?_, ih⟩
    rcases mem_cons.mp hx with rfl | hx
    · exact hlow
    · exact Int.le_trans hlow ((pairwise_cons.mp ih).1 x hx)

/-- The commands of statements rise over their lines, from any line before these. The line that the
compiler has reached is that of the last command, if it was that of the one before. -/
def RisesOver (lines : List Nat) (p : Progress) (commands : List Draft.Command) (p' : Progress) :
    Prop :=
  ∀ low, (low :: lines).Pairwise (· ≤ ·) → ∃ high ∈ low :: lines, Rising low commands high ∧
    (p.line = low → p'.line = high)

/-- A command with the line of its statement. -/
theorem risesOver_own (hkept : command.presence = .kept) (hline : command.line = line)
    (hplaced : p'.line = line) : RisesOver [line] p [command] p' := by
  intro low hsorted
  have hle : low ≤ line := (pairwise_cons.mp hsorted).1 line (mem_singleton.mpr rfl)
  exact ⟨line, by simp, .kept hkept hline hle .nil, fun _ => hplaced⟩

theorem risesOver_labels (hlabels : ∀ x ∈ commands, x.presence = .label)
    (hline : p'.line = p.line) : RisesOver lines p commands p' := by
  intro low _
  refine ⟨low, mem_cons_self, ?_, hline.trans⟩
  induction commands with
  | nil => exact .nil
  | cons x rest ih =>
    exact .label (hlabels x mem_cons_self) (ih fun y hy => hlabels y (mem_cons_of_mem _ hy))

/-- Lines of a later part rise over those of the first. -/
theorem RisesOver.append {xs ys : List Nat} {p₁ : Progress} (h : RisesOver xs p first p₁)
    (h' : RisesOver ys p₁ rest p') : RisesOver (xs ++ ys) p (first ++ rest) p' := by
  intro low hsorted
  obtain ⟨hxs, hys⟩ := pairwise_cut hsorted
  obtain ⟨mid, hmid, hfirst, hline⟩ := h low hxs
  obtain ⟨high, hhigh, hrest, hline'⟩ := h' mid (hys mid hmid)
  exact ⟨high, mem_of_cut hmid hhigh, hfirst.append hrest, fun hp => hline' (hline hp)⟩

theorem risesOver_keywordCommand {given : List (Option String × Draft.Argument)}
    (h : keywordCommand c line name given p = .ok (commands, p')) (before : Progress) :
    RisesOver [line] before commands p' := by
  obtain ⟨_, _, _, _, -, -, rfl, rfl⟩ := keywordCommand_eq_ok h
  exact risesOver_own rfl rfl rfl

theorem CompiledSimple.risesOver (h : CompiledSimple c depth p s commands p') :
    RisesOver [s.line] p commands p' := by
  cases h with
  | pass | label | codec => exact risesOver_labels (by simp) rfl
  | word | returnCode | evaluate => exact risesOver_own rfl rfl rfl
  | call _ hcommand | context _ _ _ _ hcommand => exact risesOver_keywordCommand hcommand p
  | define h | defineAs h | store _ h | augment h =>
    cases h
    exact risesOver_own rfl rfl rfl

/-- A command without a line of its own is on the line that was reached. -/
theorem rising_same (p : Progress) (code : Nat) : Rising p.line [p.command none code] p.line :=
  .kept rfl rfl (Nat.le_refl _) .nil

/-- What follows a line in a block is at the line where the compiler is. -/
theorem RisesOver.from_line (h : RisesOver lines p commands p')
    (hsorted : (p.line :: lines).Pairwise (· ≤ ·)) :
    Rising p.line commands p'.line ∧ p'.line ∈ p.line :: lines := by
  obtain ⟨high, hhigh, hrising, hline⟩ := h p.line hsorted
  obtain rfl := hline rfl
  exact ⟨hrising, hhigh⟩

theorem Stmt.sourceLines_of_simple (h : CompiledSimple c depth p s commands p') :
    s.sourceLines = [s.line] := by
  cases h <;> rfl

mutual

/-- The commands of a statement rise over its lines, block by block. -/
theorem CompiledStatement.risesOver :
    ∀ {depth : Depth} {s : Stmt} {commands : List Draft.Command} {p p' : Progress},
      CompiledStatement c depth p s commands p' → RisesOver s.sourceLines p commands p'
  | _, _, _, _, _, .simple h => by
    rw [Stmt.sourceLines_of_simple h]
    exact h.risesOver
  | _, _, _, _, _, .branch _ _ hbody hchain _ => by
    intro low hsorted
    obtain ⟨hlow, hline⟩ := pairwise_cons.mp hsorted
    obtain ⟨hfirst, hrest⟩ := pairwise_cut hline
    obtain ⟨hbody, hmid⟩ := hbody.risesOver.from_line hfirst
    obtain ⟨hchain, hhigh⟩ := hchain.rising (hrest _ hmid)
    have hopen := hlow _ mem_cons_self
    exact ⟨_, mem_cons_of_mem _ (mem_of_cut hmid hhigh),
      (((Rising.kept rfl rfl hopen .nil).append hbody).append hchain).append (rising_same _ _),
      fun _ => rfl⟩
  | _, _, _, _, _, .loop _ _ hbody _ => by
    intro low hsorted
    obtain ⟨hlow, hline⟩ := pairwise_cons.mp hsorted
    obtain ⟨hbody, hhigh⟩ := hbody.risesOver.from_line (pairwise_cut hline).1
    have hopen := hlow _ mem_cons_self
    exact ⟨_, mem_cons_of_mem _ (mem_of_cut hhigh mem_cons_self),
      ((Rising.kept rfl rfl hopen .nil).append hbody).append (rising_same _ _), fun _ => rfl⟩

theorem CompiledStatements.risesOver :
    ∀ {depth : Depth} {body : List Stmt} {commands : List Draft.Command} {p p' : Progress},
      CompiledStatements c depth p body commands p' → RisesOver (sourceLinesIn body) p commands p'
  | _, _, _, _, _, .nil => risesOver_labels (by simp) rfl
  | _, _, _, _, _, .cons h hrest => h.risesOver.append hrest.risesOver

/-- Here the first command already needs the line that was reached. -/
theorem CompiledChain.rising :
    ∀ {depth : Depth} {elseBody : List Stmt} {next : Option Nat} {commands : List Draft.Command}
      {p p' : Progress}, CompiledChain c depth p elseBody next commands p' →
      (p.line :: sourceLinesIn elseBody).Pairwise (· ≤ ·) →
      Rising p.line commands p'.line ∧ p'.line ∈ p.line :: sourceLinesIn elseBody
  | _, _, _, _, _, _, .nil, _ => ⟨.nil, mem_cons_self⟩
  | _, _, _, _, p, _, .elseIf _ _ _ hbody hchain, hsorted => by
    -- the line of a further condition is passed over
    obtain ⟨hfirst, hrest⟩ :=
      pairwise_cut (hsorted.sublist ((sourceLinesIn_sublist ..).cons_cons p.line))
    obtain ⟨hbody, hmid⟩ := hbody.risesOver.from_line hfirst
    obtain ⟨hchain, hhigh⟩ := hchain.rising (hrest _ hmid)
    exact ⟨((Rising.append (rising_same p _) (.kept rfl rfl (Nat.le_refl _) .nil)).append
      hbody).append hchain, ((sourceLinesIn_sublist ..).cons_cons _).subset (mem_of_cut hmid hhigh)⟩
  | _, _, _, _, p, _, .otherwise _ _ _ hbody, hsorted => by
    obtain ⟨hbody, hhigh⟩ := hbody.risesOver.from_line hsorted
    exact ⟨(Rising.append (rising_same p _) (rising_same _ _)).append hbody, hhigh⟩

end

end NovelScript
