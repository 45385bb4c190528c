import NovelScript.Proofs.Compile.Positions
import NovelScript.Proofs.Decompile.Outline

/-!
# Labels that no command gets

A decompiler hands out a label to the first command at its offset (`handedOut_of_labelled`), so the
labels in the statements of a script are those that wait at the offset of a command, each once. The
others are left, and nothing is said about them: the label at the end of a compiled script is lost
(`labels_of_statements`).
-/

namespace NovelScript

open List

/-! ## Handing out -/

/-- Whether a label of a script waits for one of some offsets. -/
def WaitingLabel.isAmong (own : Option Nat) (offsets : List Int) (w : WaitingLabel) : Bool :=
  some w.script == own && offsets.contains w.offset

theorem WaitingLabel.isAmong_cons (own : Option Nat) (offset : Int) (offsets : List Int)
    (w : WaitingLabel) :
    w.isAmong own (offset :: offsets) = (w.isAt own offset || w.isAmong own offsets) := by
  rw [isAmong, isAmong, isAt, contains_cons, Bool.and_or_distrib_left]

/-- The offset of the command. -/
def LabelledCommand.offset (x : LabelledCommand) : Int := x.command.offset

/-- How labels are handed out to commands: each to the first command at its offset, in the order in
which they wait. -/
structure WaitingLabels.HandedOut (own : Option Nat) (waiting : WaitingLabels)
    (xs : List LabelledCommand) (left : WaitingLabels) : Prop where
  each : ∀ before x after, xs = before ++ x :: after → x.labels =
    if before.any fun y => y.offset == x.offset then []
    else (waiting.filter (WaitingLabel.isAt own x.offset)).map WaitingLabel.name
  names : (xs.flatMap LabelledCommand.labels).Perm
    ((waiting.filter (WaitingLabel.isAmong own (xs.map LabelledCommand.offset))).map
      WaitingLabel.name)
  left : left = waiting.filter fun w => !w.isAmong own (xs.map LabelledCommand.offset)

namespace WaitingLabels

variable {own : Option Nat} {waiting left : WaitingLabels} {xs : List LabelledCommand}

theorem handedOut_nil (own : Option Nat) (waiting : WaitingLabels) :
    HandedOut own waiting [] waiting where
  each before x after h := by simp at h
  names := by simp [WaitingLabel.isAmong]
  left := by simp [WaitingLabel.isAmong]

theorem HandedOut.cons (command : Command)
    (h : HandedOut own (waiting.filter fun w => !w.isAt own command.offset) xs left) :
    HandedOut own waiting (⟨(waiting.filter (WaitingLabel.isAt own command.offset)).map
      WaitingLabel.name, command⟩ :: xs) left where
  each before x after hxs := by
    cases before with
    | nil =>
      cases hxs
      rfl
    | cons first before =>
      obtain ⟨hfirst, hrest⟩ := List.cons.inj hxs
      have hoffset : first.offset = command.offset := hfirst ▸ rfl
      rw [h.each before x after hrest, any_cons, filter_filter, hoffset]
      by_cases hsame : command.offset = x.offset
      · -- the labels at the offset are gone
        have hnone : (waiting.filter fun w => w.isAt own x.offset && !w.isAt own command.offset) =
            [] := by simp [hsame]
        rw [hnone, hsame, beq_self_eq_true, Bool.true_or, if_pos rfl, map_nil, ite_self]
      · have hother : (waiting.filter fun w => w.isAt own x.offset && !w.isAt own command.offset) =
            waiting.filter (WaitingLabel.isAt own x.offset) := by
          refine filter_congr fun w _ => ?_
          by_cases hw : w.offset = x.offset
          · simp [WaitingLabel.isAt, hw, Ne.symm hsame]
          · simp [WaitingLabel.isAt, hw]
        rw [hother, beq_eq_false_iff_ne.mpr hsame, Bool.false_or]
  names := by
    have hsplit := filter_append_perm (WaitingLabel.isAt own command.offset)
      (waiting.filter (WaitingLabel.isAmong own (command.offset :: xs.map LabelledCommand.offset)))
    rw [filter_filter, filter_filter] at hsplit
    have hfirst : (waiting.filter fun w => w.isAt own command.offset &&
        w.isAmong own (command.offset :: xs.map LabelledCommand.offset)) =
        waiting.filter (WaitingLabel.isAt own command.offset) :=
      filter_congr fun w _ => by
        rw [WaitingLabel.isAmong_cons]
        cases w.isAt own command.offset <;> simp
    have hrest : (waiting.filter fun w => !w.isAt own command.offset &&
        w.isAmong own (command.offset :: xs.map LabelledCommand.offset)) =
        (waiting.filter fun w => !w.isAt own command.offset).filter
          (WaitingLabel.isAmong own (xs.map LabelledCommand.offset)) := by
      rw [filter_filter]
      refine filter_congr fun w _ => ?_
      rw [WaitingLabel.isAmong_cons]
      cases w.isAt own command.offset <;> simp
    rw [hfirst, hrest] at hsplit
    refine Perm.trans ?_ (hsplit.map WaitingLabel.name)
    rw [map_append, flatMap_cons]
    exact h.names.append_left _
  left := by
    rw [h.left, filter_filter]
    refine filter_congr fun w _ => ?_
    rw [map_cons, WaitingLabel.isAmong_cons, Bool.not_or, Bool.and_comm]
    rfl

theorem handedOut_of_mapM {commands : List Command}
    (h : commands.mapM (fun c => (do return ⟨← take own c.offset, c⟩ :
      Labelling LabelledCommand)) waiting = .ok xs left) : HandedOut own waiting xs left := by
  induction commands generalizing waiting xs with
  | nil =>
    obtain ⟨rfl, rfl⟩ := runPure_eq_ok.mp h
    exact handedOut_nil own _
  | cons c rest ih =>
    rw [mapM_cons] at h
    obtain ⟨x, waiting₁, hx, h₁⟩ := of_runBind h
    obtain ⟨names, waiting₂, htake, hnames⟩ := of_runBind hx
    obtain ⟨rfl, rfl⟩ := runPure_eq_ok.mp hnames
    obtain ⟨ys, waiting₃, hys, h₂⟩ := of_runBind h₁
    obtain ⟨rfl, rfl⟩ := runPure_eq_ok.mp h₂
    cases htake
    exact (ih hys).cons c

/-- To label a script hands its labels out. -/
theorem handedOut_of_labelled {d : Decompiler} {number : Int} {script : Script}
    (h : d.labelled number script waiting = .ok xs left) :
    ∃ own, d.labelledScript number = .ok own ∧ HandedOut own waiting xs left := by
  obtain ⟨own, _, hown, hmap⟩ := of_runBind h
  obtain ⟨howner, rfl⟩ := ofResult_eq_ok.mp hown
  exact ⟨own, howner, handedOut_of_mapM hmap⟩

end WaitingLabels

theorem Decompiler.labels_outline (d : Decompiler) (c : Standpoint) (xs : List LabelledCommand) :
    (d.outline c xs).filterMap Entry.label? = xs.flatMap LabelledCommand.labels := by
  have hshown (c : Standpoint) (arguments : Nat) (name : Option String) (role : Option BlockRole) :
      (c.shown arguments name role).filterMap Entry.label? = [] := by
    unfold Standpoint.shown
    split
    case h_3 => split <;> rfl
    all_goals rfl
  induction xs generalizing c with
  | nil => rfl
  | cons x rest ih =>
    rw [outline, placesOf, filterMap_append, filterMap_append, hshown, append_nil,
      filterMap_map, ih, flatMap_cons]
    congr 1
    exact filterMap_some

/-! ## Labels of compiled scripts -/

/-- A label of a compiled script, as it waits. -/
def CompiledLabel.waiting (version : Int) (script : Nat) (l : CompiledLabel) : WaitingLabel :=
  ⟨script, WaitingLabels.offsetOf version l.position, l.name⟩

/-- The commands of a script stand where those of a compiled one do. -/
def Script.LaidOutAs (script : Script) (version : Int) (parts : List Draft.Part) : Prop :=
  script.commands.map Command.offset = (range parts.length).map fun n =>
    WaitingLabels.offsetOf version (Draft.Part.position version parts n)

/-- The names of the labels of a source that a command comes after. -/
def followedLabels (source : List Stmt) : List Wording :=
  ((labelSitesIn 0 {} source).filter fun site => site.before < commandCountIn source).map
    LabelSite.name

theorem WaitingLabels.offsetOf_inj (version : Int) {m n : Int} :
    offsetOf version m = offsetOf version n ↔ m = n := by
  unfold offsetOf
  split <;> omega

/-- There is a command at the position of a label unless that is the end. -/
theorem Script.LaidOutAs.contains_offset {script : Script} {version : Int} {parts : List Draft.Part}
    (h : script.LaidOutAs version parts) (hformed : ∀ x ∈ parts, x.Formed version) (n : Nat) :
    (script.commands.map Command.offset).contains
        (WaitingLabels.offsetOf version (Draft.Part.position version parts n)) =
      decide (n < parts.length) := by
  rw [h, Bool.eq_iff_iff, contains_iff_mem, mem_map, decide_eq_true_iff]
  constructor
  · rintro ⟨m, hm, hoffset⟩
    rw [mem_range] at hm
    rw [WaitingLabels.offsetOf_inj, Int.natCast_inj] at hoffset
    by_contra hn
    have hlt := Draft.Part.position_lt hformed (show m < n by omega) hm
    omega
  · exact fun hn => ⟨n, mem_range.mpr hn, rfl⟩

/-- Of the labels of a compiled script those wait at the offset of a command that a command comes
after in the source. -/
theorem followed_of_compileScript {options : CompileOptions} {vocabulary : Vocabulary}
    {source : List Stmt} {compiled : CompiledScript}
    (h : compileScript options vocabulary source = .ok compiled) :
    (followedLabels source).Nodup ∧ ∃ parts, compiled.MadeOf options vocabulary source parts ∧
      parts.length = commandCountIn source ∧
      ∀ (script : Script) (n : Nat) (waiting : WaitingLabels),
        script.LaidOutAs options.version parts →
        (waiting.filter fun w => w.script == n).Perm
          (compiled.labels.map (CompiledLabel.waiting options.version n)) →
        ((waiting.filter (WaitingLabel.isAmong (some n)
          (script.commands.map Command.offset))).map WaitingLabel.name).Perm
            (followedLabels source) := by
  obtain ⟨commands, p, a, hto⟩ := compilesTo_of_compileScript h
  obtain ⟨parts, hmade, hwritten⟩ := parts_of_compileScript hto
  obtain ⟨hlength, hlabels⟩ := labels_of_compilesTo hto hwritten
  refine ⟨?_, parts, hmade, hlength, fun script n waiting hlaid hperm => ?_⟩
  -- A label is set once, so no name comes twice.
  · have hfresh := (compiledStatements_of_statements hto.statements).leads.fresh nodup_nil
    have hnames : (labelSitesIn 0 {} source).map LabelSite.name =
        p.labels.reverse.map DraftLabel.name := by
      have hsame := congrArg (List.map CompiledLabel.name) (hlabels.symm.trans hto.labels)
      rwa [map_map, map_map] at hsame
    refine Nodup.sublist (Sublist.map _ filter_sublist) ?_
    rw [hnames, map_reverse]
    exact (reverse_perm _).nodup_iff.mpr hfresh
  · have hcut : waiting.filter (WaitingLabel.isAmong (some n)
        (script.commands.map Command.offset)) =
        (waiting.filter fun w => w.script == n).filter fun w =>
          (script.commands.map Command.offset).contains w.offset := by
      rw [filter_filter]
      refine filter_congr fun w _ => ?_
      rw [WaitingLabel.isAmong, Bool.and_comm]
      rfl
    -- A label is followed if some command stands at its position.
    rw [hcut]
    refine ((hperm.filter _).map _).trans (Perm.of_eq ?_)
    rw [hlabels, map_map, filter_map, map_map, followedLabels, ← hlength]
    congr 1
    refine filter_congr fun site _ => ?_
    exact hlaid.contains_offset hmade.formed site.before

/-- Labels come back where their commands are: the statements of a script list the labels that are
handed out, each before what its command becomes and in the block that is open there. They are
handed out once, to the first command at their offset, so a label is among the statements as often
as it waits at the offset of a command, and is left otherwise. Of the labels of a compiled script
those are lost that stand at the end. -/
theorem labels_of_statements {d : Decompiler} {number : Int} {script : Script}
    {waiting left : WaitingLabels} {statements : List Stmt}
    (h : d.statements number script waiting = .ok statements left) :
    ∃ own xs, d.labelledScript number = .ok own ∧
      xs.map LabelledCommand.command = script.commands ∧ waiting.HandedOut own xs left ∧
      outlineIn [] statements = d.outline {} xs ∧
      (labelNamesIn statements).Perm ((waiting.filter (WaitingLabel.isAmong own
        (script.commands.map Command.offset))).map WaitingLabel.name) ∧
      ∀ (options : CompileOptions) (vocabulary : Vocabulary) (source : List Stmt)
        (compiled : CompiledScript), compileScript options vocabulary source = .ok compiled →
        ∃ parts, compiled.MadeOf options vocabulary source parts ∧
          parts.length = commandCountIn source ∧
          ∀ n, own = some n → script.LaidOutAs options.version parts →
            (waiting.filter fun w => w.script == n).Perm
              (compiled.labels.map (CompiledLabel.waiting options.version n)) →
            (labelNamesIn statements).Nodup ∧
              (labelNamesIn statements).Perm (followedLabels source) := by
  obtain ⟨xs, s, hxs, hfold, rfl⟩ := Decompiler.exists_labelled h
  obtain ⟨own, howner, hhanded⟩ := WaitingLabels.handedOut_of_labelled hxs
  have hcommands := Decompiler.commands_of_labelled hxs
  have houtline : outlineIn [] s.blocks.statements = d.outline {} xs :=
    Decompiler.outline_of_foldlM (.script []) hfold
  -- Labels are shown exactly where they were handed out.
  have hnames : (labelNamesIn s.blocks.statements).Perm ((waiting.filter (WaitingLabel.isAmong own
      (script.commands.map Command.offset))).map WaitingLabel.name) := by
    have hoffsets : xs.map LabelledCommand.offset = script.commands.map Command.offset := by
      rw [← hcommands, List.map_map]
      rfl
    rw [labelNamesIn, houtline, Decompiler.labels_outline, ← hoffsets]
    exact hhanded.names
  refine ⟨own, xs, howner, hcommands, hhanded, houtline, hnames,
    fun options vocabulary source compiled hcompiled => ?_⟩
  obtain ⟨hnodup, parts, hmade, hlength, hfollowed⟩ := followed_of_compileScript hcompiled
  refine ⟨parts, hmade, hlength, fun n hn hlaid hperm => ?_⟩
  subst hn
  have hlabels := hnames.trans (hfollowed script n waiting hlaid hperm)
  exact ⟨hlabels.nodup_iff.mpr hnodup, hlabels⟩

/-- The commands of blocks with the two that are always needed. -/
def endVocabulary : Vocabulary where
  commands := ("END" :: "LET" :: BlockRole.names.map Prod.fst).map fun name => ⟨name, []⟩

/-- The decompiler of a script of theirs. -/
def endDecompiler : Decompiler := ⟨480, ⟨480, endVocabulary.commands, [], []⟩, [], 1⟩

/-- A loop with a label before it, one at the end of its body and one after it. -/
def labelledLoop : List Stmt :=
  [labelStatement (.ofString "start"),
    .loop 1 (.int 1) [endingAt 2, labelStatement (.ofString "next")] [],
    labelStatement (.ofString "last")]

/-- The loop compiled and read back, and what it is decompiled to. -/
def labelledLoopRun : Except Fault (CompiledScript × Script × List Stmt × WaitingLabels) := do
  let compiled ← compileScript loopOptions endVocabulary labelledLoop
  let script ← Script.read endDecompiler.commands.code { key := some 0, codec := Codec.ascii }
    compiled.segments.flatten
  match endDecompiler.statements 0 script (compiled.labels.map (CompiledLabel.waiting 480 0)) with
  | .ok statements left => .ok (compiled, script, statements, left)
  | .error fault _ => .error fault

theorem labels_of_labelledLoop :
    ∃ compiled script statements left,
      compileScript loopOptions endVocabulary labelledLoop = .ok compiled ∧
      Script.read endDecompiler.commands.code { key := some 0, codec := Codec.ascii }
        compiled.segments.flatten = .ok script ∧
      endDecompiler.statements 0 script (compiled.labels.map (CompiledLabel.waiting 480 0)) =
        .ok statements left ∧
      (labelNamesIn statements).Perm [.ofString "start", .ofString "next"] := by
  have hoffsets : (labelledLoopRun.map fun x => x.2.1.commands.map Command.offset).toOption =
      some [0, 4, 8] := by decide +kernel
  obtain ⟨⟨compiled, script, statements, left⟩, hrun, hscript⟩ := exists_ok_of_map hoffsets
  obtain ⟨_, hcompiled, hrun⟩ := bind_eq_ok.mp hrun
  obtain ⟨_, hread, hrun⟩ := bind_eq_ok.mp hrun
  split at hrun
  · next hstatements =>
    cases hrun
    refine ⟨compiled, script, statements, left, hcompiled, hread, hstatements, ?_⟩
    obtain ⟨own, xs, hown, -, -, -, -, hlabels⟩ := labels_of_statements hstatements
    obtain ⟨parts, hmade, hlength, hlabels⟩ := hlabels _ _ _ _ hcompiled
    have hlaid : script.LaidOutAs 480 parts := by
      rw [Script.LaidOutAs, hscript, hlength]
      rfl
    have hall : ((compiled.labels.map (CompiledLabel.waiting 480 0)).filter fun w =>
        w.script == 0) = compiled.labels.map (CompiledLabel.waiting 480 0) := by
      refine List.filter_eq_self.mpr fun w hw => ?_
      obtain ⟨l, -, rfl⟩ := List.mem_map.mp hw
      rfl
    cases hown
    exact (hlabels 0 rfl hlaid (.of_eq hall)).2
  · cases hrun

/-- A label after the last command is not among the statements. -/
theorem lastLabel_lost :
    ∃ statements left, endDecompiler.statements 0 ⟨480, 0, [⟨0, 1, 0, [], 0⟩]⟩
        [⟨0, 0, .ofString "start"⟩, ⟨0, 4, .ofString "tail"⟩] = .ok statements left ∧
      labelNamesIn statements = [.ofString "start"] ∧ left = [⟨0, 4, .ofString "tail"⟩] :=
  ⟨_, _, rfl, rfl, rfl⟩

end NovelScript
