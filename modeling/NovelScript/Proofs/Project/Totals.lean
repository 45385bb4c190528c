import NovelScript.Proofs.Project.Run

/-!
# What the tables of a build count

The tables that a build writes hold counts: of variables and texts in all scripts together, of
labels, of lasting variables, and of the variables, labels and texts of each script. They agree with
the numbers that the variables have got, since these are given without gaps. The main statement
(`numbered_of_build`) holds for every build that succeeds, also if it uses what earlier builds have
left.
-/

namespace NovelScript

open List

variable {signature : String} {shown : Option Int} {version : Int} {head bytes : Bytes}
  {codec : Codec}

/-! ## Counts in tables -/

theorem length_putHeader (h : Table.putHeader signature shown version = .ok head) :
    head.length = signature.toList.length + 4 := by
  obtain ⟨b, hb, h⟩ := of_bind h
  cases h
  rw [putUnsigned, orFault_eq_ok, Bytes.unsigned?_eq_some] at hb
  rw [hb.2, length_append, Bytes.length_ofNat, Bytes.ofAscii, length_map]

theorem field_behind {number : Bytes} (rest : Bytes) {width : Nat} {n : Int}
    (hhead : Table.putHeader signature shown version = .ok head)
    (hsignature : signature.toList.length = 4) (hnumber : putUnsigned width n = .ok number) :
    ((head ++ number ++ rest).field 8 width : Int) = n := by
  rw [putUnsigned, orFault_eq_ok, Bytes.unsigned?_eq_some] at hnumber
  obtain ⟨hfits, rfl⟩ := hnumber
  have hlength := length_putHeader hhead
  rw [hsignature] at hlength
  rw [append_assoc, Bytes.field_append _ _ (by omega), hlength, Nat.sub_self,
    Bytes.field_head _ (by omega)]
  omega

/-- The totals are written as words. -/
theorem Totals.field_write {t : Totals} (h : Totals.write shown t = .ok bytes) :
    (bytes.field 8 4 : Int) = t.variableCount ∧ (bytes.field 12 4 : Int) = t.textCount := by
  obtain ⟨head, hhead, h⟩ := of_bind h
  obtain ⟨record, hrecord, h⟩ := of_bind h
  cases h
  have hlength : head.length = 8 := length_putHeader hhead
  have hfirst := field_putRecord hrecord 0 rfl
  have hsecond := field_putRecord hrecord 1 rfl
  rw [Bytes.field_append _ _ (by omega), Bytes.field_append _ _ (by omega), hlength]
  exact ⟨hfirst, hsecond⟩

/-- A label table tells how many labels it has. -/
theorem LabelTable.field_write {hash : Option Hash} {labels : List Label}
    (h : LabelTable.write codec version shown hash labels = .ok bytes) :
    bytes.field 8 4 = labels.length := by
  obtain ⟨_, -, h⟩ := of_bind h
  obtain ⟨entries, hentries, h⟩ := of_bind h
  obtain ⟨head, hhead, h⟩ := of_bind h
  obtain ⟨count, hcount, h⟩ := of_bind h
  obtain ⟨body, -, h⟩ := of_bind h
  cases h
  rw [length_mergeSort, ← (mapM_eq_ok.mp hentries).length_eq] at hcount
  rw [append_assoc (head ++ count)]
  exact Int.ofNat_inj.mp (field_behind _ hhead rfl hcount)

/-- A variable table tells how many variables it has. -/
theorem VariableTable.field_write {given : Option Int} {table : VariableTable}
    (h : VariableTable.write codec given shown table = .ok bytes) :
    bytes.field 8 2 = table.entries.length := by
  obtain ⟨_, -, h⟩ := of_bind h
  obtain ⟨head, hhead, h⟩ := of_bind h
  obtain ⟨count, hcount, h⟩ := of_bind h
  obtain ⟨body, -, h⟩ := of_bind h
  cases h
  exact Int.ofNat_inj.mp (field_behind body.flatten hhead rfl hcount)

namespace Project

variable {o : BuildOptions} {T : Tree CacheRecord → Prop}
  {Allowed : BuildOptions → World CacheRecord → Prop}

/-- The tables of a build are written from what has been joined, and hold its counts. -/
structure TablesCount (o : BuildOptions) (template : Template) (l : Linked)
    (tables : List Archive.Entry) : Prop where
  written : ∃ labels scripts totals known : Bytes,
    ScriptList.write o.output.codec none o.shownVersion ⟨o.version, l.entries⟩ = .ok scripts ∧
    VariableTable.write o.output.codec none o.shownVersion
      { template.variableTable with entries := l.known } = .ok known ∧
    [tableEntry "ysl.ybn" labels, tableEntry "yst_list.ybn" scripts, tableEntry "yst.ybn" totals,
      tableEntry "ysv.ybn" known] <:+ tables ∧
    labels.field 8 4 = l.labels.length ∧
    totals.field 8 4 = l.variableCount ∧
    totals.field 12 4 = l.textCount ∧
    known.field 8 2 = l.known.length

theorem tablesCount_of_tableEntries {template : Template} {l : Linked} {tables : List Archive.Entry}
    (h : tableEntries o template l = .ok tables) : TablesCount o template l tables := by
  obtain ⟨labels, hlabels, h⟩ := of_bind h
  obtain ⟨scripts, hscripts, h⟩ := of_bind h
  obtain ⟨totals, htotals, h⟩ := of_bind h
  obtain ⟨known, hknown, h⟩ := of_bind h
  cases h
  obtain ⟨hvariables, htexts⟩ := Totals.field_write htotals
  exact ⟨labels, scripts, totals, known, hscripts, hknown, ⟨[_, _, _], rfl⟩,
    LabelTable.field_write hlabels, Int.ofNat_inj.mp hvariables, Int.ofNat_inj.mp htexts,
    VariableTable.field_write hknown⟩

/-! ## The variables of the template -/

/-- The variables of a template are taken over only if their numbers are their positions. -/
theorem inPlace_of_systemNames {known : List Variable} {names : List (String × ValueType × Int)}
    (h : systemNames known = .ok names) : InPlace known := by
  obtain ⟨found, hfound, -⟩ := of_bind h
  have hnumbers : ∀ x ∈ known.zipIdx, x.1.number = x.2 := by
    intro x hx
    obtain ⟨_, -, hname⟩ := exists_of_mem_forall₂_right (mapM_eq_ok.mp hfound).flip hx
    obtain ⟨_, hrequire, -⟩ := of_bind hname
    rw [require_eq_ok, beq_iff_eq] at hrequire
    exact hrequire
  unfold InPlace
  rw [← map_zipIdx_fst Variable.number, map_congr_left hnumbers, range_eq_range',
    ← zipIdx_map_snd, map_map]
  rfl

/-! ## All variables of a build -/

/-- Scripts of a build are counted. -/
theorem Gathered.counted {w : World CacheRecord} (g : Gathered o w) (hw : Reached T Allowed w) :
    ∀ s ∈ g.sourced, s.2.Counted := by
  intro s hs
  obtain ⟨_, -, options, vocabulary, source, h⟩ :=
    exists_of_mem_forall₂_right (g.isCompiled hw) (of_mem_zip hs).2
  exact counted_of_compileScript h

/-- **A build numbers all variables without gaps, and its tables count them.** The check that the
variable list ends where the temporary variables start never fails; and if the build succeeds, the
variables of the template, the declared ones and those that scripts define have the numbers below
the total, each of them once, as the tables say. -/
theorem numbered_of_build {w : World CacheRecord} (hw : Reached T Allowed w) (o : BuildOptions) :
    (∀ g : Gathered o w, g.link ≠ .error Condition.variablePosition) ∧
      ∀ w', build o w = .ok () w' → ∃ b : Built o w w',
        b.sources.scripts.length = b.scripts.length ∧
        b.linked.Numbered b.template.variableTable.entries b.globals b.folders b.sourced ∧
        TablesCount o b.template b.linked b.tables := by
  refine ⟨fun g => avoids_link _ _ _ _ (g.counted hw), fun w' h => ?_⟩
  obtain ⟨b⟩ := built_of_build h
  exact ⟨b, (b.isCompiled hw).length_eq, numbered_of_link (inPlace_of_systemNames b.system_eq)
    (b.counted hw) b.linked_eq, tablesCount_of_tableEntries b.tables_eq⟩

theorem numbered_of_build_sampleWorld :
    Reached Tree.Sane (fun _ _ => True) sampleWorld ∧
    build sampleOptions sampleWorld = .ok () sampleBuilt ∧
      (∀ g : Gathered sampleOptions sampleWorld, g.link ≠ .error Condition.variablePosition) ∧
      ∃ b : Built sampleOptions sampleWorld sampleBuilt,
        b.sources.scripts.length = b.scripts.length ∧
        b.linked.Numbered b.template.variableTable.entries b.globals b.folders b.sourced ∧
        TablesCount sampleOptions b.template b.linked b.tables := by
  have hw : Reached Tree.Sane (fun _ _ => True) sampleWorld := reached_sampleWorld
  obtain ⟨hposition, hnumbered⟩ := numbered_of_build hw sampleOptions
  exact ⟨hw, build_sample, hposition, hnumbered sampleBuilt build_sample⟩

end Project

end NovelScript
