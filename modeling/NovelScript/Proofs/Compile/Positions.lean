import NovelScript.Proofs.Compile.Brackets

/-!
# Positions in compiled scripts

A source tells how many commands it is compiled to, and after how many of them each of its labels
stands and in how many blocks (`labelSitesIn`). The labels of a compiled script are those of the
source, with the positions of the commands after them, and where a command has to name another, its
argument holds the position of that one (`positions_of_compileScript`).
-/

namespace NovelScript

open List Compiling

/-! ## Labels of a source -/

mutual

/-- How many commands a statement becomes. -/
def Stmt.commandCount : Stmt → Nat
  | .branch _ _ body elseBody => 1 + commandCountIn body + chainCommandCount elseBody + 1
  | .loop _ _ body _ => 1 + commandCountIn body + 1
  | s => if s.isSilent then 0 else 1

/-- How many commands statements become. -/
def commandCountIn : List Stmt → Nat
  | [] => 0
  | s :: rest => s.commandCount + commandCountIn rest

/-- How many commands follow the body of a condition, without the one that closes the chain. -/
def chainCommandCount : List Stmt → Nat
  | [] => 0
  | [.branch _ _ body elseBody] => 2 + commandCountIn body + chainCommandCount elseBody
  | s :: rest => 2 + (s.commandCount + commandCountIn rest)

end

/-- A label in a source: how many commands come before it, and the blocks around it. -/
structure LabelSite where
  name : Wording
  before : Nat
  depth : Depth
  deriving DecidableEq

mutual

/-- The labels in a statement, in order. -/
def Stmt.labelSites (before : Nat) (depth : Depth) : Stmt → List LabelSite
  | .assign _ [.name "LBL"] (.const (.text name _)) => [⟨name, before, depth⟩]
  | .branch _ _ body elseBody =>
    labelSitesIn (before + 1) { depth with ifs := depth.ifs + 1 } body ++
      chainLabelSites (before + 1 + commandCountIn body) { depth with ifs := depth.ifs + 1 }
        elseBody
  | .loop _ _ body _ => labelSitesIn (before + 1) { depth with loops := depth.loops + 1 } body
  | _ => []

/-- The labels in statements, with the commands before them. -/
def labelSitesIn (before : Nat) (depth : Depth) : List Stmt → List LabelSite
  | [] => []
  | s :: rest => s.labelSites before depth ++ labelSitesIn (before + s.commandCount) depth rest

/-- The labels in what follows the body of a condition. -/
def chainLabelSites (before : Nat) (depth : Depth) : List Stmt → List LabelSite
  | [] => []
  | [.branch _ _ body elseBody] =>
    labelSitesIn (before + 2) depth body ++
      chainLabelSites (before + 2 + commandCountIn body) depth elseBody
  | s :: rest =>
    s.labelSites (before + 2) depth ++ labelSitesIn (before + 2 + s.commandCount) depth rest

end

theorem labelSites_branch (line : Nat) (test : Expr) (body elseBody : List Stmt) (before : Nat)
    (depth : Depth) : (Stmt.branch line test body elseBody).labelSites before depth =
      [] ++ labelSitesIn (before + 1) { depth with ifs := depth.ifs + 1 } body ++
        chainLabelSites (before + (1 + commandCountIn body)) { depth with ifs := depth.ifs + 1 }
          elseBody ++ [] := by
  rw [append_nil, nil_append, ← Nat.add_assoc]
  rfl

theorem chainLabelSites_branch (line : Nat) (test : Expr) (body elseBody : List Stmt)
    (before : Nat) (depth : Depth) :
    chainLabelSites before depth [.branch line test body elseBody] =
      [] ++ labelSitesIn (before + 2) depth body ++
        chainLabelSites (before + (2 + commandCountIn body)) depth elseBody := by
  rw [nil_append, ← Nat.add_assoc]
  rfl

theorem chainCommandCount_of_ne {s : Stmt} {rest : List Stmt}
    (hne : ∀ line test body elseBody, s :: rest ≠ [.branch line test body elseBody]) :
    chainCommandCount (s :: rest) = 2 + commandCountIn (s :: rest) := by
  refine chainCommandCount.eq_3 _ _ fun line test body elseBody hs hrest => ?_
  exact hne line test body elseBody (by rw [hs, hrest])

theorem chainLabelSites_of_ne {s : Stmt} {rest : List Stmt} (before : Nat) (depth : Depth)
    (hne : ∀ line test body elseBody, s :: rest ≠ [.branch line test body elseBody]) :
    chainLabelSites before depth (s :: rest) = labelSitesIn (before + 2) depth (s :: rest) := by
  refine chainLabelSites.eq_3 _ _ _ _ fun line test body elseBody hs hrest => ?_
  exact hne line test body elseBody (by rw [hs, hrest])

/-! ## Labels of a draft -/

namespace Draft

/-- How many commands are not left out. -/
def keptCount (version : Int) (commands : List Draft.Command) : Nat :=
  commands.countP fun command => !command.presence.isLeftOut version

theorem keptCount_append (version : Int) (xs ys : List Draft.Command) :
    keptCount version (xs ++ ys) = keptCount version xs + keptCount version ys := countP_append

end Draft

/-- A label of a draft stands where a label of the source does. -/
def LabelSite.StandsAt (version : Int) (before start : Nat) (commands : List Draft.Command)
    (site : LabelSite) (l : DraftLabel) : Prop :=
  ∃ first rest, commands = first ++ rest ∧ rest ≠ [] ∧
    site.before = before + Draft.keptCount version first ∧
    l = ⟨site.name, start + first.length, site.depth.ifs, site.depth.loops⟩

/-- Commands that lead from one progress to another, with so many of them kept and these labels. -/
structure Progress.Sites (version : Int) (before : Nat) (p : Progress)
    (commands : List Draft.Command) (p' : Progress) (count : Nat) (sites : List LabelSite) :
    Prop where
  kept : Draft.keptCount version commands = count
  count : p'.count = p.count + commands.length
  labels : ∃ added, p'.labels = added ++ p.labels ∧
    Forall₂ (LabelSite.StandsAt version before p.count commands) sites added.reverse

namespace Progress

variable {version : Int} {before : Nat} {p p₁ p' : Progress} {first rest : List Draft.Command}
variable {command : Draft.Command}

/-- Labels of a later part stand behind the commands of the first. -/
theorem Sites.append {n m : Nat} {xs ys : List LabelSite} (h : p.Sites version before first p₁ n xs)
    (h' : p₁.Sites version (before + n) rest p' m ys) :
    p.Sites version before (first ++ rest) p' (n + m) (xs ++ ys) where
  kept := by rw [Draft.keptCount_append, h.kept, h'.kept]
  count := by rw [h'.count, h.count, length_append, Nat.add_assoc]
  labels := by
    obtain ⟨added, hadded, hsites⟩ := h.labels
    obtain ⟨added', hadded', hsites'⟩ := h'.labels
    refine ⟨added' ++ added, by rw [hadded', hadded, append_assoc], ?_⟩
    rw [reverse_append]
    refine rel_append (hsites.imp ?_) (hsites'.imp ?_)
    · rintro site l ⟨f, r, rfl, hr, hbefore, rfl⟩
      exact ⟨f, r ++ rest, append_assoc .., by simp [hr], hbefore, rfl⟩
    · rintro site l ⟨f, r, rfl, hr, hbefore, rfl⟩
      refine ⟨first ++ f, r, (append_assoc ..).symm, hr, ?_, ?_⟩
      · rw [hbefore, Draft.keptCount_append, h.kept, Nat.add_assoc]
      · rw [h.count, length_append, Nat.add_assoc]

theorem sites_nil (h : p'.labels = p.labels) (hcount : p'.count = p.count) :
    p.Sites version before [] p' 0 [] :=
  ⟨rfl, hcount, [], h, .nil⟩

section

variable (hkept : command.presence = .kept)
include hkept

theorem sites_kept (h : p'.labels = p.labels)
    (hcount : p'.count = p.count + 1) : p.Sites version before [command] p' 1 [] := by
  refine ⟨?_, hcount, [], h, .nil⟩
  simp [Draft.keptCount, hkept, Draft.Presence.isLeftOut]

theorem sites_placed (line : Option Nat) : p.Sites version before [command] (p.placed line) 1 [] :=
  sites_kept hkept rfl rfl

theorem sites_condition (n : Names) (line : Option Nat) :
    p.Sites version before [command] ((p.named n).placed line) 1 [] :=
  sites_kept hkept rfl rfl

end

end Progress

section

variable {version : Int} {before : Nat} {c : CompileContext} {p p' : Progress} {depth : Depth}
  {s : Stmt} {commands : List Draft.Command}

theorem Stmt.commandCount_of_own (hblock : s.isBlock = false) (hsilent : s.isSilent = false) :
    s.commandCount = 1 := by
  cases s with
  | branch | loop => cases hblock
  | _ => rw [commandCount, if_neg (by simp [hsilent])] <;> exact fun _ _ _ _ h => by cases h

theorem Stmt.labelSites_of_own (hblock : s.isBlock = false) (hsilent : s.isSilent = false) :
    s.labelSites before depth = [] := by
  unfold labelSites
  split
  · cases hsilent
  · cases hblock
  · cases hblock
  · rfl

/-- A statement without blocks is a label or has none. -/
theorem CompiledSimple.sites (h : CompiledSimple c depth p s commands p') :
    p.Sites version before commands p' s.commandCount (s.labelSites before depth) := by
  have hleads := h.leads
  cases h.emits with
  | own hblock hsilent hnamed =>
    obtain ⟨added, hadded, hpositions⟩ := hleads.labels
    have hnone : added = [] := by
      simpa [labelPositions, hnamed.kept] using hpositions
    rw [Stmt.commandCount_of_own hblock hsilent, Stmt.labelSites_of_own hblock hsilent]
    exact Progress.sites_kept hnamed.kept (by rw [hadded, hnone]; rfl) hleads.count
  | silent hsilent =>
    cases h with
    | pass | codec => exact Progress.sites_nil rfl rfl
    | label => exact ⟨rfl, rfl, [_], rfl, .cons ⟨[], _, rfl, by simp, rfl, rfl⟩ .nil⟩
    | store hwritten h =>
      rcases hwritten with rfl | rfl
      · cases h with
        | intro ht => cases ht <;> cases hsilent
      · cases hsilent
    | _ => cases hsilent

mutual

/-- The labels of a statement stand where its blocks tell. -/
theorem CompiledStatement.sites {depth : Depth} {s : Stmt} {commands : List Draft.Command} :
    ∀ {p p' : Progress} {before : Nat}, CompiledStatement c depth p s commands p' →
      p.Sites version before commands p' s.commandCount (s.labelSites before depth)
  | _, _, _, .simple h => h.sites
  | _, _, _, .branch _ _ hbody hchain _ => by
    rw [labelSites_branch]
    exact (((Progress.sites_condition rfl _ _).append hbody.sites).append hchain.sites).append
      (Progress.sites_placed rfl none)
  | _, _, _, .loop _ _ hbody _ => by
    rw [← append_nil (Stmt.labelSites ..)]
    exact ((Progress.sites_condition rfl _ _).append hbody.sites).append
      (Progress.sites_placed rfl none)

theorem CompiledStatements.sites {depth : Depth} {body : List Stmt}
    {commands : List Draft.Command} :
    ∀ {p p' : Progress} {before : Nat}, CompiledStatements c depth p body commands p' →
      p.Sites version before commands p' (commandCountIn body) (labelSitesIn before depth body)
  | _, _, _, .nil => Progress.sites_nil rfl rfl
  | _, _, _, .cons h hrest => h.sites.append hrest.sites

theorem CompiledChain.sites {depth : Depth} {elseBody : List Stmt} {next : Option Nat}
    {commands : List Draft.Command} :
    ∀ {p p' : Progress} {before : Nat}, CompiledChain c depth p elseBody next commands p' →
      p.Sites version before commands p' (chainCommandCount elseBody)
        (chainLabelSites before depth elseBody)
  | _, _, _, .nil => Progress.sites_nil rfl rfl
  | _, _, _, .elseIf _ _ _ hbody hchain => by
    rw [chainLabelSites_branch]
    exact (((Progress.sites_placed rfl none).append (Progress.sites_condition rfl _ _)).append
      hbody.sites).append hchain.sites
  | _, _, _, .otherwise hne _ _ hbody => by
    rw [chainCommandCount_of_ne hne, chainLabelSites_of_ne _ _ hne]
    exact ((Progress.sites_placed rfl none).append (Progress.sites_placed rfl none)).append
      hbody.sites

end

end

/-! ## Scripts -/

/-- The kind of a part, by the name of its code. -/
def Draft.Part.blockKind (v : Vocabulary) (x : Draft.Part) : BlockKind :=
  .of (v.nameOf? x.code) x.argumentCount

/-- An argument of a command holds the position of another, and how many bytes of expressions stand
before that one. -/
def Jump.StandsIn (version : Int) (parts : List Draft.Part) (j : Jump Nat) : Prop :=
  ∃ x argument, parts[j.source]? = some x ∧ x.arguments[j.argument]? = some argument ∧
    argument.field 4 4 = Draft.Part.position version parts j.target ∧
    argument.field 8 4 = Draft.Part.expressionsBefore parts j.target

/-- A label at the position that counts the parts before it. -/
def LabelSite.compiled (version : Int) (parts : List Draft.Part) (site : LabelSite) :
    CompiledLabel :=
  ⟨Draft.Part.position version parts site.before, site.name, site.depth.ifs, site.depth.loops⟩

section

variable {version : Int} {placed : List Draft.Placed} {parts : List Draft.Part}
  {places : Array Draft.Place}

theorem length_keptOf_take (j : Nat) : (Draft.keptOf version (placed.take j)).length =
    Draft.keptCount version ((placed.map Draft.Placed.command).take j) := by
  rw [Draft.keptCount, ← map_take, countP_map, countP_eq_length_filter]
  rfl

/-- Indexes among the kept items, from indexes among all. -/
theorem map_filter_zipIdx {α : Type} (keep : α → Bool) (l : List α) (start n : Nat) :
    ((l.zipIdx start).filter fun x => keep x.1).map
        (fun x => (x.1, n + (l.take (x.2 - start)).countP keep)) =
      (l.filter keep).zipIdx n := by
  induction l generalizing start n with
  | nil => rfl
  | cons a l ih =>
    have hlater (m : Nat) (hm : m = n + [a].countP keep) :
        ((l.zipIdx (start + 1)).filter fun x => keep x.1).map
            (fun x => (x.1, n + ((a :: l).take (x.2 - start)).countP keep)) =
          (l.filter keep).zipIdx m := by
      rw [← ih (start + 1) m]
      refine map_congr_left fun x hx => ?_
      have hle := le_snd_of_mem_zipIdx (mem_filter.mp hx).1
      rw [show x.2 - start = x.2 - (start + 1) + 1 by omega, take_succ_cons, hm,
        ← singleton_append, countP_append, Nat.add_assoc]
    cases hkeep : keep a with
    | true =>
      simp only [zipIdx_cons, filter_cons, hkeep, ↓reduceIte, map_cons]
      rw [hlater (n + 1) (by simp [hkeep])]
      simp
    | false =>
      simp only [zipIdx_cons, filter_cons, hkeep, Bool.false_eq_true, ↓reduceIte]
      exact hlater n (by simp [hkeep])

theorem kinds_of_parts {v : Vocabulary}
    (h : Forall₂ (Draft.Placed.WrittenAs version places) (Draft.keptOf version placed) parts) :
    ((placed.map Draft.Placed.command).filter fun command =>
        !command.presence.isLeftOut version).map (Draft.Command.blockKind version v) =
      parts.map (Draft.Part.blockKind v) := by
  have hkept : ∀ q ∈ Draft.keptOf version placed, q.command.presence.isLeftOut version = false :=
    fun q hq => by simpa using (mem_filter.mp hq).2
  rw [filter_map, map_map]
  show (Draft.keptOf version placed).map _ = _
  generalize Draft.keptOf version placed = kept at h hkept
  induction h with
  | nil => rfl
  | @cons q x _ _ hx _ ih =>
    have hkind : q.command.blockKind version v = x.blockKind v := by
      rw [Draft.Command.blockKind, hkept q mem_cons_self, if_neg (by simp),
        Draft.Part.blockKind, ← hx.code, Int.toNat_natCast, hx.argumentCount]
    rw [map_cons, map_cons, ih (forall_mem_cons.mp hkept).2, ← hkind]
    rfl

variable {v : Vocabulary} {commands : List Draft.Command}
  {jumps : List (Jump (Draft.Command × Nat))}

/-- A command of a draft that is not left out, at its position. -/
def Draft.KeptAt (version : Int) (commands : List Draft.Command) (x : Draft.Command × Nat) : Prop :=
  commands[x.2]? = some x.1 ∧ x.1.presence.isLeftOut version = false

/-- The commands that are left out can be passed over, so jumps are between those that are not. -/
theorem readBlocks_kept (h : readBlocks (Draft.blockItems (Draft.Command.blockKind version v) 0
      commands) [] = some (jumps, [])) :
    readBlocks ((Draft.blockItems (Draft.Command.blockKind version v) 0 commands).filter
        fun item => !item.2.1.presence.isLeftOut version) [] = some (jumps, []) ∧
      ∀ j ∈ jumps, Draft.KeptAt version commands j.source ∧
        Draft.KeptAt version commands j.target := by
  have hfilter := readBlocks_filter (fun item => !item.2.1.presence.isLeftOut version)
    (fun item hitem hleft => ?_) h
  · refine ⟨hfilter, readBlocks_all hfilter (fun item hitem => ?_) fun _ h => by cases h⟩
    obtain ⟨hitem, hkept⟩ := mem_filter.mp hitem
    obtain ⟨x, hx, rfl⟩ := mem_map.mp hitem
    exact ⟨mem_zipIdx_iff_getElem?.mp hx, by simpa using hkept⟩
  · obtain ⟨x, -, rfl⟩ := mem_map.mp hitem
    rw [Draft.Command.blockKind, if_pos (by simpa using hleft)]

/-- The parts of a script are bracketed as its commands are. -/
theorem readBlocks_parts
    (h : Forall₂ (Draft.Placed.WrittenAs version places) (Draft.keptOf version placed) parts)
    (hcommands : placed.map Draft.Placed.command = commands)
    (hread : readBlocks ((Draft.blockItems (Draft.Command.blockKind version v) 0 commands).filter
      fun item => !item.2.1.presence.isLeftOut version) [] = some (jumps, [])) :
    readBlocks (parts.map (Draft.Part.blockKind v)).zipIdx [] = some (jumps.map (Jump.map fun x =>
      Draft.keptCount version (commands.take x.2)), []) := by
  have hmap := readBlocks_map (fun x => Draft.keptCount version (commands.take x.2)) hread
  rw [Draft.blockItems, filter_map, map_map] at hmap
  rw [← kinds_of_parts h, hcommands, zipIdx_map, ← map_filter_zipIdx _ commands 0 0, map_map]
  refine (congrArg (readBlocks · []) (map_congr_left fun x _ => ?_)).trans hmap
  exact Prod.ext rfl (Nat.zero_add _)

section

variable {shown : Option Int} {codec : Codec} {check : Instr → Except Fault Unit}
  {a : Draft.Assembly}

/-- A command that is kept has a part. -/
theorem exists_part_of_keptAt {places : Array Draft.Place}
    (hcommands : a.placed.map Draft.Placed.command = commands)
    (hparts : Forall₂ (Draft.Placed.WrittenAs version places) (Draft.keptOf version a.placed) parts)
    {x : Draft.Command × Nat} (hx : Draft.KeptAt version commands x) :
    ∃ q part, q ∈ a.placed ∧ q.command = x.1 ∧
      parts[Draft.keptCount version (commands.take x.2)]? = some part ∧
      q.WrittenAs version places part := by
  obtain ⟨hget, hkept⟩ := hx
  rw [← hcommands, getElem?_map] at hget
  obtain ⟨q, hq, hcommand⟩ := Option.map_eq_some_iff.mp hget
  obtain ⟨hlt, hq⟩ := List.getElem?_eq_some_iff.mp hq
  have hcut : Draft.keptOf version a.placed = Draft.keptOf version (a.placed.take x.2) ++
      q :: Draft.keptOf version (a.placed.drop (x.2 + 1)) := by
    conv_lhs => rw [← take_append_drop x.2 a.placed, drop_eq_getElem_cons hlt, hq,
      Draft.keptOf_append]
    rw [Draft.keptOf, Draft.keptOf, Draft.keptOf, filter_cons_of_pos (by simp [hcommand, hkept])]
  have hindex : (Draft.keptOf version a.placed)[
      (Draft.keptOf version (a.placed.take x.2)).length]? = some q := by
    rw [hcut, getElem?_append_right (Nat.le_refl _), Nat.sub_self]
    rfl
  obtain ⟨part, hpart, hwritten⟩ := exists_getElem?_of_forall₂ hparts hindex
  rw [length_keptOf_take, hcommands] at hpart
  exact ⟨q, part, hq ▸ getElem_mem hlt, hcommand, hpart, hwritten⟩

section

variable (h : Draft.assemble version shown codec check commands = .ok a)
  (hparts : Forall₂ (Draft.Placed.WrittenAs version (Draft.placesOf a.placed))
    (Draft.keptOf version a.placed) parts)
include h hparts

/-- The place of a command is the position of its part. -/
theorem place_of_keptAt {n : Nat} (hn : n < commands.length) :
    ∃ place, (Draft.placesOf a.placed)[n]? = some place ∧
      (if Draft.isSplit version then place.index else place.offset) =
        Draft.Part.position version parts (Draft.keptCount version (commands.take n)) ∧
      place.expressions =
        Draft.Part.expressionsBefore parts (Draft.keptCount version (commands.take n)) := by
  have hcommands := Draft.commands_of_assemble h
  have hlt : n < a.placed.length := by rwa [← hcommands, length_map] at hn
  have hposition := Draft.place_eq_position h hparts (getElem?_eq_getElem hlt)
  rw [length_keptOf_take, hcommands] at hposition
  refine ⟨a.placed[n].place, ?_, hposition⟩
  rw [Draft.placesOf, getElem?_toArray, getElem?_map, getElem?_eq_getElem hlt]
  rfl

/-- A jump of the draft is written with the position of its target. -/
theorem standsIn_of_standsInDraft {j : Jump (Draft.Command × Nat)} (hj : j.StandsInDraft)
    (hsource : Draft.KeptAt version commands j.source)
    (htarget : Draft.KeptAt version commands j.target) :
    (j.map fun x => Draft.keptCount version (commands.take x.2)).StandsIn version parts := by
  obtain ⟨q, part, hq, hcommand, hpart, hwritten⟩ :=
    exists_part_of_keptAt (Draft.commands_of_assemble h) hparts hsource
  obtain ⟨place, hplace, hposition, hexpressions⟩ :=
    place_of_keptAt h hparts (List.getElem?_eq_some_iff.mp htarget.1).1
  obtain ⟨x, hx, hjump⟩ := Option.map_eq_some_iff.mp hj
  have hspans := Draft.length_spans_of_encoded (Draft.encoded_of_assemble h hq).2
    (by rw [hcommand]; exact hsource.2)
  rw [← hcommand] at hx
  obtain ⟨hlt, hx⟩ := List.getElem?_eq_some_iff.mp hx
  have hzip : (q.command.arguments.zip q.spans)[j.argument]? =
      some (x, q.spans[j.argument]) := by
    rw [getElem?_zip_eq_some]
    exact ⟨hx ▸ getElem?_eq_getElem hlt, getElem?_eq_getElem (hspans ▸ hlt)⟩
  obtain ⟨bytes, hbytes, hwrite⟩ := exists_getElem?_of_forall₂ hwritten.arguments hzip
  obtain ⟨hfirst, hsecond⟩ := Draft.fields_of_jump hjump hplace hwrite
  exact ⟨part, bytes, hpart, hbytes, hfirst.trans hposition, hsecond.trans hexpressions⟩

theorem compiled_of_standsAt {site : LabelSite} {l : DraftLabel}
    (hl : site.StandsAt version 0 0 commands l) :
    l.compiled version (Draft.placesOf a.placed) = site.compiled version parts := by
  obtain ⟨first, rest, rfl, hrest, hbefore, rfl⟩ := hl
  have hlt : 0 + first.length < (first ++ rest).length := by
    have hpos := length_pos_iff.mpr hrest
    rw [length_append]
    omega
  obtain ⟨place, hplace, hposition, -⟩ := place_of_keptAt h hparts hlt
  have hposition : (if Draft.isSplit version then place.index else place.offset) =
      Draft.Part.position version parts site.before := by
    rw [hposition, hbefore, Nat.zero_add, Nat.zero_add, take_left]
  rw [LabelSite.compiled, ← hposition, DraftLabel.compiled, Array.getD_eq_getD_getElem?, hplace]
  rfl

end

end

end

/-- Labels have the positions that the parts before them make. -/
theorem labels_of_compilesTo {options : CompileOptions} {vocabulary : Vocabulary}
    {source : List Stmt} {commands : List Draft.Command} {p : Progress} {a : Draft.Assembly}
    {compiled : CompiledScript} (hto : CompilesTo options vocabulary source commands p a compiled)
    {parts : List Draft.Part}
    (hparts : Forall₂ (Draft.Placed.WrittenAs options.version (Draft.placesOf a.placed))
      (Draft.keptOf options.version a.placed) parts) :
    parts.length = commandCountIn source ∧
      compiled.labels =
        (labelSitesIn 0 {} source).map (LabelSite.compiled options.version parts) := by
  have hsites : Progress.Sites options.version 0 _ commands p _ _ :=
    (compiledStatements_of_statements hto.statements).sites
  constructor
  · rw [← hsites.kept, ← hparts.length_eq, ← Draft.commands_of_assemble hto.assembly,
      Draft.keptCount,
      countP_map, countP_eq_length_filter]
    rfl
  · obtain ⟨added, hadded, hstands⟩ := hsites.labels
    have hall : p.labels = added := hadded.trans (append_nil _)
    rw [hto.labels, hall, eq_comm, ← forall₂_eq_eq_eq, forall₂_map_left_iff, forall₂_map_right_iff]
    exact hstands.imp fun _ _ hl => (compiled_of_standsAt hto.assembly hparts hl).symm

/-- In a script the commands of blocks are bracketed. Here a script is taken as the parts that its
commands are assembled to, so positions count commands or bytes as they are written. Where a command
has to name another of its block, its argument holds the position of that one, with the size of the
expressions before it: a condition that is not the last branch of its chain names the next branch,
and the command that opens a chain or a loop names the one that closes it. The labels are those of
the source, each with the position of the command after it or of the end, and with the number of
blocks around it. -/
theorem positions_of_compileScript {options : CompileOptions} {vocabulary : Vocabulary}
    {source : List Stmt} {compiled : CompiledScript}
    (hcalls : CallsNone blockNames (ownersIn true source))
    (h : compileScript options vocabulary source = .ok compiled) :
    ∃ parts, compiled.MadeOf options vocabulary source parts ∧
      parts.length = commandCountIn source ∧
      (∃ jumps, readBlocks (parts.map (Draft.Part.blockKind vocabulary)).zipIdx [] =
          some (jumps, []) ∧ ∀ j ∈ jumps, j.StandsIn options.version parts) ∧
      compiled.labels =
        (labelSitesIn 0 {} source).map (LabelSite.compiled options.version parts) := by
  obtain ⟨commands, p, a, hto⟩ := compilesTo_of_compileScript h
  obtain ⟨parts, hmade, hwritten⟩ := parts_of_compileScript hto
  obtain ⟨hlength, hlabels⟩ := labels_of_compilesTo hto hwritten
  refine ⟨parts, hmade, hlength, ?_, hlabels⟩
  have hbracketed : Draft.Bracketed (Draft.Command.blockKind options.version vocabulary) 0
    commands := (compiledStatements_of_statements hto.statements).bracketed hcalls
  obtain ⟨jumps, hread, hjumps⟩ := hbracketed []
  obtain ⟨hread, hends⟩ := readBlocks_kept hread
  refine ⟨_, readBlocks_parts hwritten (Draft.commands_of_assemble hto.assembly) hread,
    fun j hj => ?_⟩
  obtain ⟨i, hi, rfl⟩ := List.mem_map.mp hj
  exact standsIn_of_standsInDraft hto.assembly hwritten (hjumps i hi) (hends i hi).1 (hends i hi).2

/-- A chain of three branches and a loop, with a label in the chain, one in the loop and one at the
end. -/
def labelledBlocks : List Stmt :=
  [.branch 1 (.int 1) [endingAt 2]
      [.branch 3 (.int 0) [labelStatement (.ofString "again"), endingAt 5] [endingAt 7]],
    .loop 8 (.int 1) [endingAt 9, labelStatement (.ofString "next")] [],
    labelStatement (.ofString "last")]

theorem positions_of_labelledBlocks :
    CallsNone blockNames (ownersIn true labelledBlocks) ∧
    ∃ compiled, compileScript loopOptions loopVocabulary labelledBlocks = .ok compiled ∧
      compiled.labels = [⟨4, .ofString "again", 1, 0⟩, ⟨11, .ofString "next", 0, 1⟩,
        ⟨12, .ofString "last", 0, 0⟩] ∧
      ∃ parts, compiled.MadeOf loopOptions loopVocabulary labelledBlocks parts ∧
        parts.length = 12 ∧
        ∃ jumps, readBlocks (parts.map (Draft.Part.blockKind loopVocabulary)).zipIdx [] =
          some (jumps, []) ∧ ∀ j ∈ jumps, j.StandsIn 480 parts := by
  have hcalls : CallsNone blockNames (ownersIn true labelledBlocks) := by decide
  have hsegments : ((compileScript loopOptions loopVocabulary labelledBlocks).map
      fun x => x.segments.length).toOption = some 5 := by decide +kernel
  obtain ⟨compiled, hcompiled, -⟩ := exists_ok_of_map hsegments
  obtain ⟨parts, hmade, hlength, hjumps, hlabels⟩ := positions_of_compileScript hcalls hcompiled
  exact ⟨hcalls, compiled, hcompiled, hlabels, parts, hmade, hlength, hjumps⟩

end NovelScript
