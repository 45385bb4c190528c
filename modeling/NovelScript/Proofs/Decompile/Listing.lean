import NovelScript.Decompile.Lines
import NovelScript.Proofs.Decompile.LostLabels

/-!
# Listings in program order

A listing puts every command on the line that it has, and its labels there or on the line before.
Line numbers do not fall, and labels move only if nothing has been written on either line, so what
is written comes in the order of lines (`LineState.Ordered`). That is why a listing, read from its
first line to its last, has everything in the order of the commands
(`programOrder_of_listingSource`).
-/

namespace NovelScript

open List

/-! ## Lines -/

/-- The segments of the first line come first. -/
theorem exists_ownLine {first : Int} {segments : List (Int × String)}
    (hsorted : segments.Pairwise fun x y => x.1 ≤ y.1) (hfirst : ∀ x ∈ segments, first ≤ x.1) :
    ∃ own rest, segments = own ++ rest ∧ (∀ x ∈ own, x.1 = first) ∧
      (∀ x ∈ rest, first + 1 ≤ x.1) ∧ segments.takeWhile (fun x => x.1 == first) = own := by
  induction segments with
  | nil => exact ⟨[], [], rfl, by simp, by simp, rfl⟩
  | cons x segments ih =>
    obtain ⟨hx, hsorted⟩ := pairwise_cons.mp hsorted
    by_cases heq : x.1 = first
    · obtain ⟨own, rest, rfl, hown, hrest, htake⟩ :=
        ih hsorted fun y hy => hfirst y (mem_cons_of_mem x hy)
      refine ⟨x :: own, rest, rfl, forall_mem_cons.mpr ⟨heq, hown⟩, hrest, ?_⟩
      rw [takeWhile_cons_of_pos (by simpa using heq), htake]
    · have hlt : first + 1 ≤ x.1 := by
        have := hfirst x mem_cons_self
        omega
      refine ⟨[], x :: segments, rfl, by simp, forall_mem_cons.mpr ⟨hlt, fun y hy => ?_⟩, ?_⟩
      · exact Int.le_trans hlt (hx y hy)
      · rw [takeWhile_cons_of_neg (by simpa using heq)]

/-- Segments in the order of lines are divided into their lines without one changing its place. -/
theorem exists_lines {segments : List (Int × String)} {first : Int} {count : Nat}
    (hsorted : segments.Pairwise fun x y => x.1 ≤ y.1)
    (hlines : ∀ x ∈ segments, first ≤ x.1 ∧ x.1 < first + count) :
    ∃ lines : List (List (Int × String)), lines.length = count ∧ lines.flatten = segments ∧
      (∀ (i : Nat) line, lines[i]? = some line → ∀ x ∈ line, x.1 = first + i) ∧
      Decompiler.lineTexts first count segments =
        lines.map fun line => ";".intercalate (line.map Prod.snd) := by
  induction count generalizing first segments with
  | zero =>
    have hnone : segments = [] := eq_nil_iff_forall_not_mem.mpr fun x hx => by
      have := hlines x hx
      omega
    exact ⟨[], rfl, hnone.symm, by simp, rfl⟩
  | succ count ih =>
    obtain ⟨own, rest, rfl, hown, hrest, htake⟩ :=
      exists_ownLine hsorted fun x hx => (hlines x hx).1
    obtain ⟨lines, rfl, hflat, hplaces, htexts⟩ := ih (pairwise_append.mp hsorted).2.1
      fun x hx => ⟨hrest x hx, by
        have := (hlines x (mem_append_right own hx)).2
        omega⟩
    refine ⟨own :: lines, rfl, by rw [flatten_cons, hflat], fun i line hline x hx => ?_, ?_⟩
    · cases i with
      | zero =>
        cases hline
        simpa using hown x hx
      | succ i =>
        have := hplaces i line hline x hx
        omega
    · rw [Decompiler.lineTexts, htake, drop_left, htexts]
      rfl

/-! ## Commands by themselves -/

/-- The state after a command that is written as a text, or not at all. -/
def LineState.after (s : LineState) (line : Int) (text : Option String) (preps : List String)
    (locals : Temporaries) : LineState :=
  { s.write line text.toList with waiting := s.waiting ++ preps, locals }

/-- What is written hangs on nothing but the temporary variables. -/
def Writes (line : Int) (preps : List String) (f : LineState → Except Fault LineState) : Prop :=
  ∀ s, f s = f { locals := s.locals } >>= fun t =>
    .ok (s.after line (t.written.head?.map Prod.snd) preps t.locals)

namespace Writes

variable {line : Int} {preps : List String}

theorem bind {α : Type} {x : LineState → Except Fault α}
    {f : α → LineState → Except Fault LineState} (hx : ∀ s, x s = x { locals := s.locals })
    (hf : ∀ a, Writes line preps (f a)) : Writes line preps fun s => x s >>= fun a => f a s := by
  intro s
  dsimp only
  rw [hx s]
  cases x { locals := s.locals } with
  | error e => rfl
  | ok a => exact hf a s

theorem ite {p : Prop} [Decidable p] {f g : LineState → Except Fault LineState}
    (hf : p → Writes line preps f) (hg : ¬p → Writes line preps g) :
    Writes line preps fun s => if p then f s else g s := by
  split
  · exact hf ‹p›
  · exact hg ‹¬p›

theorem nothing : Writes line [] fun s => .ok s := by
  intro s
  rw [ok_bind, LineState.after, append_nil]
  rfl

theorem text (t : String) : Writes line [] fun s => .ok (s.write line [t]) := by
  intro s
  rw [ok_bind, LineState.after, append_nil]
  rfl

theorem definition (locals : Temporaries) (t : String) :
    Writes line [] fun s => .ok ({ s with locals }.write line [t]) := by
  intro s
  rw [ok_bind, LineState.after, append_nil]
  rfl

end Writes

namespace Decompiler

/-- What a command leaves to be written before the next one. -/
def prepOf (d : Decompiler) (c : Command) : List String :=
  match d.firstNamed c.code (LineRole.names c.arguments.length), c.onlyNumber with
  | .ok (some .textEnd), .ok 1 => ["PREP[TEXTVAL=1]"]
  | _, _ => []

/-- What a command by itself is written as, and the temporary variables after it. -/
def ownText (d : Decompiler) (locals : Temporaries) (c : Command) (isLast : Bool) :
    Except Fault (Option String × Temporaries) := do
  let s ← d.lineOf { locals } c isLast
  return (s.written.head?.map Prod.snd, s.locals)

variable {d : Decompiler} {c : Command} {isLast : Bool}

theorem writes_roleLine {role : LineRole}
    (hrole : d.firstNamed c.code (LineRole.names c.arguments.length) = .ok (some role)) :
    Writes c.line (d.prepOf c) fun s => d.roleLine s c isLast role := by
  -- Only the end of a text can leave something for the next line.
  by_cases htext : role = .textEnd
  · subst htext
    rw [prepOf, hrole]
    simp only [roleLine]
    cases c.onlyNumber with
    | error e => exact fun _ => rfl
    | ok code =>
      simp only [ok_bind, beq_iff_eq]
      refine .ite (fun hcode => ?_) fun _ => .ite (fun hcode => ?_) fun _ _ => rfl
      · subst hcode
        exact .nothing
      · subst hcode
        exact fun _ => rfl
  · have hprep : d.prepOf c = [] := by
      rw [prepOf, hrole]
      cases role <;> first | rfl | exact absurd rfl htext
    rw [hprep]
    cases role with
    | textEnd => exact absurd rfl htext
    | blend => exact .nothing
    | otherwise => exact .text _
    | condition name => exact .bind (fun _ => rfl) fun _ => .bind (fun _ => rfl) fun _ => .text _
    | loop =>
      exact .bind (fun _ => rfl) fun _ => .ite (fun _ => .text _) fun _ =>
        .bind (fun _ => rfl) fun _ => .text _
    | evaluate => exact .bind (fun _ => rfl) fun _ => .bind (fun _ => rfl) fun _ => .text _
    | text => exact .bind (fun _ => rfl) fun _ => .text _
    | finish =>
      cases isLast
      · exact .text _
      · exact .nothing

theorem writes_storeLine : Writes c.line [] fun s => d.storeLine s c :=
  .bind (fun _ => rfl) fun _ => .bind (fun _ => rfl) fun _ => .bind (fun _ => rfl) fun locals =>
    .bind (fun _ => rfl) fun _ => .bind (fun _ => rfl) fun _ => .bind (fun _ => rfl) fun _ =>
      .ite (fun _ => .definition locals _) fun _ => .bind (fun _ => rfl) fun _ =>
        .ite (fun _ => .definition locals _) fun _ => .definition locals _

theorem writes_plainLine : Writes c.line [] fun s => d.plainLine s c :=
  .bind (fun _ => rfl) fun _ => .bind (fun _ => rfl) fun _ => .text _

/-- A command writes to its own line only. -/
theorem writes_lineOf : Writes c.line (d.prepOf c) fun s => d.lineOf s c isLast := by
  unfold lineOf
  cases hrole : d.firstNamed c.code (LineRole.names c.arguments.length) with
  | error e => exact fun _ => rfl
  | ok role =>
    cases role with
    | some role => exact writes_roleLine hrole
    | none =>
      have hprep : d.prepOf c = [] := by rw [prepOf, hrole]
      simp only [hprep, ok_bind]
      exact .bind (fun _ => rfl) fun _ => .ite (fun _ => writes_storeLine) fun _ => writes_plainLine

theorem ownText_of_lineOf {s s' : LineState} (h : d.lineOf s c isLast = .ok s') :
    ∃ text locals, d.ownText s.locals c isLast = .ok (text, locals) ∧
      s' = s.after c.line text (d.prepOf c) locals := by
  obtain ⟨t, ht, hs'⟩ := of_bind ((writes_lineOf s).symm.trans h)
  cases hs'
  exact ⟨_, _, bind_eq_ok.mpr ⟨t, ht, rfl⟩, rfl⟩

end Decompiler

/-! ## Order of lines -/

/-- What has been written is in the order of lines, and the last command is on the last of them. -/
structure LineState.Ordered (s : LineState) : Prop where
  sorted : s.written.Pairwise fun x y => y.1 ≤ x.1
  lines : ∀ x ∈ s.written, 1 ≤ x.1 ∧ x.1 ≤ s.line
  line : 1 ≤ s.line

namespace LineState

variable {s : LineState} {line : Int}

theorem written_write (s : LineState) (line : Int) (texts : List String) :
    (s.write line texts).written.reverse = s.written.reverse ++ texts.map (line, ·) := by
  rw [write, reverse_append, reverse_reverse]

theorem Ordered.write (h : s.Ordered) (hline : 1 ≤ line ∧ line ≤ s.line)
    (hlast : ∀ x ∈ s.written, x.1 ≤ line) (texts : List String) : (s.write line texts).Ordered where
  sorted := by
    refine pairwise_append.mpr ⟨?_, h.sorted, fun x hx y hy => ?_⟩
    · rw [← map_reverse, pairwise_map]
      exact pairwise_of_forall fun _ _ => Int.le_refl line
    · obtain ⟨text, -, rfl⟩ := mem_map.mp (mem_reverse.mp hx)
      exact hlast y hy
  lines x hx := by
    rcases mem_append.mp hx with hx | hx
    · obtain ⟨text, -, rfl⟩ := mem_map.mp (mem_reverse.mp hx)
      exact hline
    · exact h.lines x hx
  line := h.line

/-- The listing once it has come to a line. -/
def moveTo (s : LineState) (line : Int) : LineState :=
  { s.write line s.waiting with line, waiting := [] }

/-- The listing with labels before the line. -/
def label (s : LineState) (names : List Wording) : LineState :=
  s.write (s.labelLine s.line) (names.map fun name => "#=" ++ name.shown)

/-- Going on keeps the lines in order. -/
theorem Ordered.moveTo (h : s.Ordered) (hline : s.line ≤ line) : (s.moveTo line).Ordered := by
  have hmoved : ({ s with line, waiting := [] } : LineState).Ordered :=
    ⟨h.sorted, fun x hx => ⟨(h.lines x hx).1, Int.le_trans (h.lines x hx).2 hline⟩,
      Int.le_trans h.line hline⟩
  exact hmoved.write ⟨hmoved.line, Int.le_refl _⟩ (fun x hx => (hmoved.lines x hx).2) s.waiting

/-- Labels go to the line of their command or to the line before, and nothing has been written
behind them. -/
theorem Ordered.labelLine (h : s.Ordered) :
    (s.labelLine s.line = s.line ∨ s.labelLine s.line + 1 = s.line) ∧
      (1 ≤ s.labelLine s.line ∧ s.labelLine s.line ≤ s.line) ∧
      ∀ x ∈ s.written, x.1 ≤ s.labelLine s.line := by
  have hline := h.line
  unfold LineState.labelLine
  split
  · exact ⟨.inl rfl, ⟨hline, Int.le_refl _⟩, fun x hx => (h.lines x hx).2⟩
  case isFalse hmoved =>
    simp only [Bool.or_eq_true, not_or, isEmpty, Bool.not_not, any_eq_true, beq_iff_eq,
      not_exists, not_and] at hmoved
    obtain ⟨⟨hown, hone⟩, hbefore⟩ := hmoved
    refine ⟨.inr (by omega), by omega, fun x hx => ?_⟩
    have := h.lines x hx
    have := hown x hx
    have := hbefore x hx
    omega

/-- So do labels. -/
theorem Ordered.label (h : s.Ordered) (names : List Wording) : (s.label names).Ordered :=
  h.write h.labelLine.2.1 h.labelLine.2.2 _

theorem Ordered.after (h : s.Ordered) (text : Option String) (preps : List String)
    (locals : Temporaries) : (s.after s.line text preps locals).Ordered := by
  have htext := h.write ⟨h.line, Int.le_refl _⟩ (fun x hx => (h.lines x hx).2) text.toList
  exact ⟨htext.sorted, htext.lines, htext.line⟩

end LineState

/-! ## Labels -/

theorem WaitingLabels.byOffset_isEmpty {own : Option Nat} {waiting : WaitingLabels} :
    (waiting.byOffset own).isEmpty ↔ ∀ w ∈ waiting, some w.script ≠ own := by
  have hdups (offsets : List Int) : offsets.eraseDups = [] ↔ offsets = [] := by
    cases offsets <;> simp [eraseDups_cons]
  simp [byOffset, map_eq_nil_iff, hdups]

theorem WaitingLabels.HandedOut.all {own : Option Nat} {waiting left : WaitingLabels}
    {xs : List LabelledCommand} (h : waiting.HandedOut own xs left)
    (hleft : ∀ w ∈ left, some w.script ≠ own) :
    (xs.flatMap LabelledCommand.labels).Perm
      ((waiting.filter fun w => some w.script == own).map WaitingLabel.name) := by
  have hamong : waiting.filter (WaitingLabel.isAmong own (xs.map LabelledCommand.offset)) =
      waiting.filter fun w => some w.script == own := by
    refine filter_congr fun w hw => ?_
    cases hown : some w.script == own with
    | false => rw [WaitingLabel.isAmong, hown, Bool.false_and]
    | true =>
      by_contra hnot
      refine hleft w ?_ (beq_iff_eq.mp hown)
      rw [h.left, mem_filter]
      exact ⟨hw, by simpa using hnot⟩
  exact hamong ▸ h.names

/-! ## Runs -/

/-- A command with its labels, their line, and what it is written as. -/
structure ListedCommand extends LabelledCommand where
  labelLine : Int
  text : Option String

/-- What is written for a command, line by line: what is left from the command before it, its
labels, and its own text. -/
def ListedCommand.segments (before : List String) (x : ListedCommand) : List (Int × String) :=
  before.map (x.command.line, ·) ++ x.labels.map (fun name => (x.labelLine, "#=" ++ name.shown)) ++
    x.text.toList.map (x.command.line, ·)

namespace Decompiler

/-- What is written for commands, one after another. -/
def segmentsFrom (d : Decompiler) (before : List String) :
    List ListedCommand → List (Int × String)
  | [] => []
  | x :: rest => x.segments before ++ d.segmentsFrom (d.prepOf x.command) rest

/-- Every command has the text of its own, by what was defined before it. -/
def OwnTexts (d : Decompiler) : Temporaries → List ListedCommand → Prop
  | _, [] => True
  | locals, x :: rest => ∃ locals',
    d.ownText locals x.command rest.isEmpty = .ok (x.text, locals') ∧ d.OwnTexts locals' rest

variable {d : Decompiler} {own : Option Nat} {s s' : LineState} {waiting left : WaitingLabels}
  {isLast : Bool} {c : Command}

theorem lineOf_of_labelledLine (h : d.labelledLine own s c isLast waiting = .ok s' left) :
    s.line ≤ c.line ∧ left = waiting.filter (fun w => !w.isAt own c.offset) ∧
      d.lineOf ((s.moveTo c.line).label ((waiting.filter (WaitingLabel.isAt own c.offset)).map
        WaitingLabel.name)) c isLast = .ok s' := by
  obtain ⟨_, _, hrequire, hrest⟩ := of_runBind h
  obtain ⟨hline, rfl⟩ := runRequire_eq_ok.mp hrequire
  obtain ⟨names, _, htake, hresult⟩ := of_runBind hrest
  obtain ⟨hwritten, rfl⟩ := ofResult_eq_ok.mp hresult
  obtain ⟨rfl, rfl⟩ := EStateM.Result.ok.inj htake
  refine ⟨of_decide_eq_true hline, rfl, ?_⟩
  -- nothing is written for no labels
  split at hwritten
  case isTrue hempty =>
    have hnone : (filter (WaitingLabel.isAt own c.offset) _).map WaitingLabel.name = [] :=
      List.isEmpty_iff.mp hempty
    rw [hnone]
    exact hwritten
  case isFalse => exact hwritten

theorem segments_of_labelledLine (hs : s.Ordered)
    (h : d.labelledLine own s c isLast waiting = .ok s' left) :
    ∃ x : ListedCommand,
      x.toLabelledCommand =
        ⟨(waiting.filter (WaitingLabel.isAt own c.offset)).map WaitingLabel.name, c⟩ ∧
      (x.labelLine = c.line ∨ x.labelLine + 1 = c.line) ∧
      d.ownText s.locals c isLast = .ok (x.text, s'.locals) ∧
      s'.written.reverse = s.written.reverse ++ x.segments s.waiting ∧ s'.waiting = d.prepOf c ∧
      s'.Ordered ∧ s'.line = c.line := by
  obtain ⟨hline, -, hwritten⟩ := lineOf_of_labelledLine h
  obtain ⟨text, locals, hown, rfl⟩ := ownText_of_lineOf hwritten
  have hmoved := hs.moveTo hline
  refine ⟨⟨⟨_, c⟩, (s.moveTo c.line).labelLine c.line, text⟩, rfl, hmoved.labelLine.1, hown, ?_,
    rfl, (hmoved.label _).after text _ locals, rfl⟩
  simp only [LineState.after, LineState.written_write, LineState.label, LineState.moveTo,
    ListedCommand.segments, append_assoc, map_map]
  rfl

/-- The segments of all commands, in order. -/
theorem segments_of_linesFrom {commands : List Command} (hs : s.Ordered)
    (h : d.linesFrom own s commands waiting = .ok s' left) :
    ∃ xs : List ListedCommand, xs.map (fun x => x.command) = commands ∧
      waiting.HandedOut own (xs.map ListedCommand.toLabelledCommand) left ∧
      (∀ x ∈ xs, x.labelLine = x.command.line ∨ x.labelLine + 1 = x.command.line) ∧
      d.OwnTexts s.locals xs ∧
      s'.written.reverse = s.written.reverse ++ d.segmentsFrom s.waiting xs ∧ s'.Ordered ∧
      (∀ c ∈ commands, s.line ≤ c.line) ∧ s'.line ∈ s.line :: commands.map Command.line := by
  induction commands generalizing s waiting with
  | nil =>
    obtain ⟨rfl, rfl⟩ := runPure_eq_ok.mp h
    exact ⟨[], rfl, WaitingLabels.handedOut_nil own _, by simp, trivial, by simp [segmentsFrom], hs,
      by simp, by simp⟩
  | cons c rest ih =>
    obtain ⟨s₁, waiting₁, hfirst, hrest⟩ := of_runBind h
    obtain ⟨hle, rfl, -⟩ := lineOf_of_labelledLine hfirst
    -- One command writes its segments; the order of lines carries over.
    obtain ⟨x, hx, hnear, hown, hwritten, hprep, hs₁, hline⟩ := segments_of_labelledLine hs hfirst
    obtain ⟨xs, rfl, hhanded, hnears, howns, hwrittens, hs', hlater, hlast⟩ := ih hs₁ hrest
    rw [hline] at hlater hlast
    obtain ⟨⟨labels, _⟩, labelLine, text⟩ := x
    cases hx
    refine ⟨⟨⟨_, c⟩, labelLine, text⟩ :: xs, rfl, hhanded.cons c,
      forall_mem_cons.mpr ⟨hnear, hnears⟩, ⟨s₁.locals, ?_, howns⟩, ?_, hs', ?_,
      mem_cons_of_mem _ hlast⟩
    · simpa using hown
    · rw [hwrittens, hwritten, append_assoc, hprep]
      rfl
    · exact forall_mem_cons.mpr ⟨hle, fun x hx => Int.le_trans hle (hlater x hx)⟩

theorem linesFrom_of_listingSource {number : Int} {script : Script} {text : String}
    (h : d.listingSource number script waiting = .ok text left) :
    ∃ own last s, d.labelledScript number = .ok own ∧
      VariableNames.greatest (script.commands.map Command.line) = .ok last ∧
      d.linesFrom own {} script.commands waiting = .ok s left ∧ (left.byOffset own).isEmpty ∧
      text = "\n".intercalate (lineTexts 1 last.toNat s.written.reverse) := by
  obtain ⟨_, _, hversion, hscript⟩ := of_runBind h
  obtain ⟨-, rfl⟩ := runRequire_eq_ok.mp hversion
  obtain ⟨own, _, howner, hcount⟩ := of_runBind hscript
  obtain ⟨hown, rfl⟩ := ofResult_eq_ok.mp howner
  obtain ⟨last, _, hgreatest, hrun⟩ := of_runBind hcount
  obtain ⟨hlast, rfl⟩ := ofResult_eq_ok.mp hgreatest
  obtain ⟨s, _, hlines, hafter⟩ := of_runBind hrun
  obtain ⟨_, _, hget, hcheck⟩ := of_runBind hafter
  cases hget
  obtain ⟨_, _, hrequire, hend⟩ := of_runBind hcheck
  obtain ⟨hnone, rfl⟩ := runRequire_eq_ok.mp hrequire
  obtain ⟨rfl, rfl⟩ := runPure_eq_ok.mp hend
  exact ⟨own, last, s, hown, hlast, hlines, hnone, rfl⟩

/-- A listing keeps the order of the program. Each command is written as its own text on its own
line, after its labels and after what is left from the command before it; the labels may stand on
the line before. The labels of the script are handed out to the commands, each once. There are as
many lines as the greatest line number says, and what stands on them, read from the first line to
the last, is what is written for the commands, one after another. -/
theorem programOrder_of_listingSource {number : Int} {script : Script} {text : String}
    (h : d.listingSource number script waiting = .ok text left) :
    ∃ (own : Option Nat) (xs : List ListedCommand) (last : Int)
      (lines : List (List (Int × String))),
      d.labelledScript number = .ok own ∧ xs.map (fun x => x.command) = script.commands ∧
      waiting.HandedOut own (xs.map ListedCommand.toLabelledCommand) left ∧
      (xs.flatMap fun x => x.labels).Perm
        ((waiting.filter fun w => some w.script == own).map WaitingLabel.name) ∧
      (∀ x ∈ xs, x.labelLine = x.command.line ∨ x.labelLine + 1 = x.command.line) ∧
      d.OwnTexts [] xs ∧ last ∈ script.commands.map Command.line ∧
      (∀ c ∈ script.commands, 1 ≤ c.line ∧ c.line ≤ last) ∧
      lines.length = last.toNat ∧ lines.flatten = d.segmentsFrom [] xs ∧
      (∀ (i : Nat) line, lines[i]? = some line → ∀ x ∈ line, x.1 = 1 + i) ∧
      text = "\n".intercalate (lines.map fun line => ";".intercalate (line.map Prod.snd)) := by
  obtain ⟨own, last, s, hown, hlast, hrun, hnone, rfl⟩ := linesFrom_of_listingSource h
  have hstart : ({} : LineState).Ordered := ⟨List.Pairwise.nil, by simp, Int.le_refl 1⟩
  obtain ⟨xs, hcommands, hhanded, hnears, howns, hwritten, hs, hfirst, hline⟩ :=
    segments_of_linesFrom hstart hrun
  replace hwritten : s.written.reverse = d.segmentsFrom [] xs := hwritten
  obtain ⟨hmem, hgreatest⟩ := VariableNames.greatest_eq_ok.mp hlast
  obtain ⟨c, hc, rfl⟩ := List.mem_map.mp hmem
  -- The listing ends at the greatest line, so no segment is cut off.
  have hend : s.line ≤ c.line := by
    rcases List.mem_cons.mp hline with hone | hsome
    · exact hone ▸ hfirst c hc
    · exact hgreatest s.line hsome
  have hbounds : ∀ x ∈ s.written.reverse, 1 ≤ x.1 ∧ x.1 < 1 + (c.line.toNat : Int) := by
    intro x hx
    have := hs.lines x (List.mem_reverse.mp hx)
    omega
  obtain ⟨lines, hlength, hflat, hplaces, htexts⟩ :=
    exists_lines (List.pairwise_reverse.mpr hs.sorted) hbounds
  have hlabels := hhanded.all (WaitingLabels.byOffset_isEmpty.mp hnone)
  rw [List.flatMap_map] at hlabels
  exact ⟨own, xs, c.line, lines, hown, hcommands, hhanded, hlabels, hnears, howns, hmem,
    fun x hx => ⟨hfirst x hx, hgreatest x.line (List.mem_map_of_mem hx)⟩, hlength,
    hflat.trans hwritten, hplaces, congrArg _ htexts⟩

end Decompiler

/-- Three commands of which one ends a text, and the end. -/
def sampleListing : Script :=
  ⟨480, 0, [⟨0, 1, 0, [], 0⟩, ⟨4, 1, 10, [⟨0, .int, .set, 1, 0, .none⟩], 0⟩, ⟨8, 3, 0, [], 0⟩,
    ⟨12, 5, 0, [], 0⟩]⟩

/-- The first labels stay where their command is, since something else does. The last one moves. -/
theorem programOrder_of_sampleListing :
    ∃ xs lines, endDecompiler.listingSource 0 sampleListing
        [⟨0, 8, .ofString "a"⟩, ⟨0, 12, .ofString "b"⟩, ⟨0, 8, .ofString "c"⟩] =
        .ok "END[]\n\nPREP[TEXTVAL=1];#=a;#=c;END[]\n#=b\n" [] ∧
      xs.map (fun (x : ListedCommand) => x.command) = sampleListing.commands ∧
      List.flatten lines = endDecompiler.segmentsFrom [] xs := by
  have hrun : endDecompiler.listingSource 0 sampleListing
      [⟨0, 8, .ofString "a"⟩, ⟨0, 12, .ofString "b"⟩, ⟨0, 8, .ofString "c"⟩] =
      .ok "END[]\n\nPREP[TEXTVAL=1];#=a;#=c;END[]\n#=b\n" [] := rfl
  obtain ⟨-, xs, -, lines, -, hcommands, -, -, -, -, -, -, -, hflat, -⟩ :=
    Decompiler.programOrder_of_listingSource hrun
  exact ⟨xs, lines, hrun, hcommands, hflat⟩

end NovelScript
