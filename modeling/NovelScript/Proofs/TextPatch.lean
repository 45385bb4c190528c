import NovelScript.Proofs.Assembly.Fit
import NovelScript.Proofs.Session
import NovelScript.Proofs.Text.Quoted
import NovelScript.Proofs.Text.Unicode
import NovelScript.TextPatch

/-!
# Texts that are taken out and put back

When texts have been taken out of a script and are put back as they are, the script has the same
lines, but for how its texts are spelled. What the texts say depends on the file between the two
steps. It has one line for each text, and white space at its end is not read: a text with a line
break makes two lines, and all texts behind it move, and a text may lose its end. `Survives` says
which texts come back (`extract_patchTask_iff`).
-/

namespace NovelScript.TextPatch

open List Text Session

variable {ρ : Type} {source : String} {texts edited lines : List String} {values : List Value}
  {o : Options} {task : Task} {w w₁ : World ρ}
variable {line text path : String} {c : Char} {kept : List String} {cs : List Char} {codec : Codec}
  {p : Place}

/-! ## Lines that are texts -/

/-- The value of a text. -/
def textValue (t : String) : Value := .text (.ofString t)

@[simp] theorem isTextLine_quoted (t : String) : isTextLine (quoted t) = true := by
  obtain ⟨quote, hquote, hchars⟩ := Source.toList_quoted t
  rw [isTextLine, hchars]
  rcases hquote with rfl | rfl <;> rfl

theorem lineValue_quoted (t : String) : lineValue (quoted t) = .ok (textValue t) := by
  rw [lineValue, Source.parseExpression_quoted]
  rfl

/-- A line stands where another one stood: it is the same, or both are texts. -/
def SameLine (line line' : String) : Prop :=
  isTextLine line' = isTextLine line ∧ (isTextLine line = false → line' = line)

/-- A line is left as it is, or it is a text and another one stands in its place. -/
def Replaced (line line' : String) : Prop :=
  line' = line ∨ isTextLine line = true ∧ ∃ t, line' = quoted t

theorem Replaced.sameLine {line' : String} (h : Replaced line line') : SameLine line line' := by
  rcases h with rfl | ⟨hline, t, rfl⟩
  · exact ⟨rfl, fun _ => rfl⟩
  · exact ⟨by rw [hline, isTextLine_quoted], by simp [hline]⟩

/-- Every line is kept or replaced. -/
theorem replaced_replaceTexts (lines edited : List String) :
    Forall₂ Replaced lines (replaceTexts lines edited) := by
  have hrefl (lines : List String) : Forall₂ Replaced lines lines :=
    forall₂_same.mpr fun _ _ => .inl rfl
  fun_induction replaceTexts lines edited with
  | case1 => exact .nil
  | case2 line lines hline => exact hrefl _
  | case3 line lines hline t rest ih => exact .cons (.inr ⟨hline, t, rfl⟩) ih
  | case4 line lines edited hline ih => exact .cons (.inl rfl) ih

/-- The values of the text lines. -/
def valuesOf (lines : List String) :
    Except Fault (List Value) := (lines.filter isTextLine).mapM lineValue

/-- Texts with edited ones in front. -/
def overlaid (texts edited : List String) : List String :=
  edited.take texts.length ++ texts.drop edited.length

/-- Replaced lines have the edited texts. -/
theorem valuesOf_replaceTexts (h : valuesOf lines = .ok (texts.map textValue)) :
    valuesOf (replaceTexts lines edited) = .ok ((overlaid texts edited).map textValue) := by
  unfold valuesOf at h ⊢
  fun_induction replaceTexts lines edited generalizing texts with
  | case1 =>
    cases texts with
    | nil => simp [overlaid]
    | cons => cases h
  | case2 line lines hline => simpa [overlaid] using h
  | case3 line lines hline t rest ih =>
    rw [filter_cons_of_pos hline, mapM_cons] at h
    obtain ⟨value, -, h⟩ := of_bind h
    obtain ⟨others, hothers, h⟩ := of_bind h
    cases texts with
    | nil => cases h
    | cons first texts =>
      cases h
      rw [filter_cons_of_pos (isTextLine_quoted t), mapM_cons, lineValue_quoted, ok_bind,
        ih hothers]
      rfl
  | case4 line lines edited hline ih =>
    rw [filter_cons_of_neg hline] at h ⊢
    exact ih h

/-! ## The file between -/

/-- Texts as they are read from a file of theirs. -/
def readBack (texts : List String) : List String :=
  scriptLines (String.ofList (plainLines ("\n".intercalate texts).toList))

/-- A source with the texts put back. -/
def putBack (source : String) (texts : List String) : String :=
  "\n".intercalate (replaceTexts (scriptLines source) (readBack texts))

/-- Texts that come back from a file: but for blank ones at the end, none of them has a line break,
and the last one does not end in white space. If all are blank, the first one is empty. -/
def Survives (texts : List String) : Prop :=
  ∃ kept blanks, texts = kept ++ blanks ∧ (∀ t ∈ kept, '\n' ∉ t.toList ∧ '\r' ∉ t.toList) ∧
    (∀ t ∈ blanks, ∀ c ∈ t.toList, isBlank c = true) ∧
    (kept = [""] ∨ ∃ t c, kept.getLast? = some t ∧ t.toList.getLast? = some c ∧ isBlank c = false)

theorem toList_intercalate_lines (lines : List String) :
    ("\n".intercalate lines).toList = joinLines (lines.map String.toList) :=
  String.toList_intercalate

theorem scriptLines_eq (source : String) :
    (scriptLines source).map String.toList = partsAt '\n' (source.toList.rdropWhile isBlank) := by
  have htrim : (trimEnd source).toList = source.toList.rdropWhile isBlank := String.toList_ofList
  simp [scriptLines, Text.linesOf, htrim]

/-- The lines of a script are those before its last blanks. -/
theorem scriptLines_eq_iff : scriptLines source = lines ↔ TrimmedLines (lines.map String.toList) ∧
    ∃ blanks, source.toList = ("\n".intercalate lines).toList ++ blanks ∧
      ∀ c ∈ blanks, isBlank c = true := by
  rw [toList_intercalate_lines, ← partsAt_trimmed, ← scriptLines_eq]
  exact (map_injective_iff.mpr fun _ _ => String.toList_injective).eq_iff.symm

theorem mem_of_mem_scriptLines (h : line ∈ scriptLines source) (hc : c ∈ line.toList)
    (hfeed : c ≠ '\n') : c ∈ source.toList := by
  obtain ⟨-, blanks, hsource, -⟩ := scriptLines_eq_iff.mp (rfl : scriptLines source = _)
  rw [hsource, toList_intercalate_lines]
  exact mem_append_left _ ((mem_joinLines hfeed).mpr ⟨_, mem_map_of_mem h, hc⟩)

theorem not_mem_of_mem_readBack (h : line ∈ readBack texts) : '\r' ∉ line.toList :=
  fun hreturn => not_mem_plainLines _ (by
    simpa using mem_of_mem_scriptLines h hreturn (by decide))

theorem not_mem_intercalate (h : ∀ line ∈ lines, '\r' ∉ line.toList) :
    '\r' ∉ ("\n".intercalate lines).toList := by
  rw [toList_intercalate_lines, mem_joinLines (by decide)]
  rintro ⟨_, hline, hreturn⟩
  obtain ⟨line, hmem, rfl⟩ := mem_map.mp hline
  exact h line hmem hreturn

theorem toList_intercalate_append (h : kept ≠ []) (rest : List String) :
    ("\n".intercalate (kept ++ rest)).toList =
      ("\n".intercalate kept).toList ++ rest.flatMap fun t => '\n' :: t.toList := by
  rw [toList_intercalate_lines, toList_intercalate_lines, map_append,
    joinLines_append (by simpa using h), flatMap_map]

theorem readBack_of_survives {blanks : List String}
    (hkept : ∀ t ∈ kept, '\n' ∉ t.toList ∧ '\r' ∉ t.toList)
    (hblanks : ∀ t ∈ blanks, ∀ c ∈ t.toList, isBlank c = true)
    (hlast : kept = [""] ∨ ∃ t c, kept.getLast? = some t ∧ t.toList.getLast? = some c ∧
      isBlank c = false) :
    readBack (kept ++ blanks) = kept := by
  have hne : kept ≠ [] := by
    rintro rfl
    rcases hlast with h | ⟨_, _, h, -⟩ <;> cases h
  rw [readBack, scriptLines_eq_iff, String.toList_ofList, toList_intercalate_append hne,
    plainLines_append (not_mem_intercalate fun t ht => (hkept t ht).2)]
  refine ⟨⟨?_, ?_⟩, _, rfl, ?_⟩
  · intro line hline
    obtain ⟨t, ht, rfl⟩ := mem_map.mp hline
    exact (hkept t ht).1
  · rcases hlast with rfl | ⟨t, c, ht, hc, hblank⟩
    · exact .inl rfl
    · obtain ⟨init, hinit⟩ := getLast?_eq_some_iff.mp hc
      exact .inr ⟨init, c, by rw [getLast?_map, ht, Option.map_some, hinit], hblank⟩
  · rw [isBlank_plainLines]
    intro c hc
    obtain ⟨t, ht, hc⟩ := mem_flatMap.mp hc
    rcases mem_cons.mp hc with rfl | hc
    · decide
    · exact hblanks t ht c hc

/-- The texts that are read back stand where the others stood exactly if these survive. -/
theorem overlaid_readBack_iff (hne : texts ≠ []) :
    overlaid texts (readBack texts) = texts ↔ Survives texts := by
  constructor
  · intro h
    obtain ⟨htrimmed, blanks, hplain, hblanks⟩ := scriptLines_eq_iff.mp (rfl : readBack texts = _)
    rw [String.toList_ofList] at hplain
    have hreturn : ∀ line ∈ readBack texts, '\r' ∉ line.toList := fun _ => not_mem_of_mem_readBack
    have hback : readBack texts ≠ [] := by simpa using htrimmed.ne_nil
    rcases Nat.lt_or_ge texts.length (readBack texts).length with hlt | hle
    · -- no more lines can be read back than were written, if these are as they were
      exfalso
      rw [overlaid, drop_of_length_le (Nat.le_of_lt hlt), append_nil] at h
      have hsplit := take_append_drop texts.length (readBack texts)
      rw [h] at hsplit
      have hdrop : (readBack texts).drop texts.length ≠ [] := by simpa using hlt
      generalize (readBack texts).drop texts.length = more at hsplit hdrop
      rw [← hsplit, toList_intercalate_append hne, plainLines_of_not_mem, append_assoc,
        self_eq_append_right] at hplain
      · cases more with
        | nil => exact hdrop rfl
        | cons => simp at hplain
      · exact not_mem_intercalate fun t ht =>
          hreturn t (hsplit ▸ mem_append_left _ ht)
    · -- what is read back is the beginning of the texts
      rw [overlaid, take_of_length_le hle] at h
      generalize texts.drop (readBack texts).length = rest at h
      generalize readBack texts = kept at *
      subst h
      rw [toList_intercalate_append hback, plainLines_append (not_mem_intercalate hreturn),
        append_cancel_left_eq] at hplain
      refine ⟨kept, rest, rfl, fun t ht => ⟨htrimmed.plain _ (mem_map_of_mem ht), hreturn t ht⟩,
        fun t ht c hc => ?_, ?_⟩
      · rw [← hplain, isBlank_plainLines] at hblanks
        exact hblanks c (mem_flatMap.mpr ⟨t, ht, mem_cons_of_mem _ hc⟩)
      · rcases htrimmed.last with h | ⟨line, c, h, hc⟩
        · exact .inl (by simpa using h)
        · rw [getLast?_map] at h
          obtain ⟨t, ht, hline⟩ := Option.map_eq_some_iff.mp h
          exact .inr ⟨t, c, ht, by simp [hline], hc⟩
  · rintro ⟨kept, rest, rfl, hkept, hrest, hlast⟩
    rw [readBack_of_survives hkept hrest hlast, overlaid, drop_left, take_of_length_le]
    simp

/-! ## The patched script -/

theorem not_mem_quoted (hc : c.toNat < 32) (t : String) : c ∉ (quoted t).toList :=
  fun h => absurd (Source.le_toNat_quoted t c h) (by omega)

/-- A patched source has the replaced lines. -/
theorem scriptLines_patched (hreturn : '\r' ∉ source.toList)
    (htext : ∃ line ∈ scriptLines source, isTextLine line = true) :
    scriptLines (String.ofList (plainLines
      ("\n".intercalate (replaceTexts (scriptLines source) edited)).toList)) =
        replaceTexts (scriptLines source) edited := by
  obtain ⟨htrimmed, -⟩ := scriptLines_eq_iff.mp (rfl : scriptLines source = _)
  have hreplaced := replaced_replaceTexts (scriptLines source) edited
  have hmem : ∀ line ∈ replaceTexts (scriptLines source) edited,
      line ∈ scriptLines source ∨ ∃ t, line = quoted t := by
    intro line hline
    obtain ⟨old, hold, rfl | ⟨-, ht⟩⟩ := exists_of_mem_forall₂_right hreplaced hline
    · exact .inl hold
    · exact .inr ht
  rw [scriptLines_eq_iff, String.toList_ofList, plainLines_of_not_mem]
  · refine ⟨⟨fun cs hcs => ?_, .inr ?_⟩, [], (append_nil _).symm, by simp⟩
    · obtain ⟨line, hline, rfl⟩ := mem_map.mp hcs
      obtain hold | ⟨t, rfl⟩ := hmem line hline
      · exact htrimmed.plain _ (mem_map_of_mem hold)
      · exact not_mem_quoted (by decide) t
    · rcases htrimmed.last with hempty | ⟨init, c, hlast, hc⟩
      · -- there is a line that is a text, and so not empty
        have hone : scriptLines source = [""] := by simpa using hempty
        rw [hone] at htext
        simp [isTextLine] at htext
      · rw [getLast?_map] at hlast
        obtain ⟨old, hold, hinit⟩ := Option.map_eq_some_iff.mp hlast
        rw [getLast?_eq_getElem?] at hold
        obtain ⟨line, hline, hline'⟩ := exists_getElem?_of_forall₂ hreplaced hold
        rw [hreplaced.length_eq, ← getLast?_eq_getElem?] at hline
        rw [getLast?_map, hline, Option.map_some]
        rcases hline' with rfl | ⟨-, t, rfl⟩
        · exact ⟨init, c, by rw [hinit], hc⟩
        · obtain ⟨quote, hquote, hchars⟩ := Source.toList_quoted t
          refine ⟨quote :: Source.quotedBody quote t.toList, quote, congrArg some hchars, ?_⟩
          rcases hquote with rfl | rfl <;> decide
  · refine not_mem_intercalate fun line hline => ?_
    obtain hold | ⟨t, rfl⟩ := hmem line hline
    · exact fun h => hreturn (mem_of_mem_scriptLines hold h (by decide))
    · exact not_mem_quoted (by decide) t

/-! ## Files -/

theorem eq_ofString_of_signs {w : Wording} (h : cs.map .char = w.signs) :
    w = .ofString (String.ofList cs) := by
  cases w
  cases h
  rw [Wording.ofString, String.toList_ofList, Wording.ofChars]

theorem exists_strings {ws : List Wording}
    (h : ((Wording.ofString "\n").intercalate ws).signs = cs.map .char) :
    ∃ texts, ws = texts.map .ofString ∧ cs = ("\n".intercalate texts).toList := by
  simp only [toList_intercalate_lines]
  induction ws generalizing cs with
  | nil => exact ⟨[], rfl, map_eq_nil_iff.mp h.symm⟩
  | cons w rest ih =>
    cases rest with
    | nil =>
      have hone : cs.map .char = w.signs := by simpa [Wording.intercalate] using h.symm
      exact ⟨[String.ofList cs], by rw [eq_ofString_of_signs hone]; rfl, by simp [joinLines]⟩
    | cons next rest =>
      simp only [Wording.intercalate, map_cons, intercalate_cons_cons] at h
      obtain ⟨first, others, rfl, hfirst, hothers⟩ := map_eq_append_iff.mp h.symm
      obtain ⟨own, feed, rfl, hown, hfeed⟩ := map_eq_append_iff.mp hfirst
      obtain ⟨texts, htexts, rfl⟩ := ih hothers.symm
      have hfeed : feed = ['\n'] :=
        map_injective_iff.mpr (fun _ _ => Sign.char.inj) (hfeed : _ = ['\n'].map Sign.char)
      cases texts with
      | nil => cases htexts
      | cons t texts =>
        refine ⟨String.ofList own :: t :: texts, ?_, ?_⟩
        · rw [map_cons, ← htexts, eq_ofString_of_signs hown]
        · rw [hfeed, joinLines, joinLines, map_cons, map_cons, map_cons,
            String.toList_ofList, intercalate_cons_cons]

/-- Texts that are joined can be found again. -/
theorem joinTexts_eq_ok {bytes : Bytes} (h : joinTexts values >>= codec.encodeWording = .ok bytes) :
    ∃ texts, values = texts.map textValue ∧ codec.encode ("\n".intercalate texts) = .ok bytes := by
  obtain ⟨w, hjoin, hwording⟩ := of_bind h
  obtain ⟨s, rfl, hencode⟩ := Codec.encodeWording_eq_ok hwording
  obtain ⟨ws, hws, hmade⟩ := of_bind hjoin
  obtain ⟨texts, rfl, htexts⟩ := exists_strings (congrArg Wording.signs (Except.ok.inj hmade))
  refine ⟨texts, ?_, String.toList_injective htexts ▸ hencode⟩
  rw [mapM_eq_ok, forall₂_map_right_iff] at hws
  clear hjoin hmade hwording hencode htexts h
  induction hws with
  | nil => rfl
  | @cons v t values texts hv _ ih =>
    cases v <;> cases hv
    rw [ih]
    rfl

/-- What a patch writes. -/
theorem patchTask_eq (hscript : readText o.scriptCodec task.script w = .ok source w)
    (htext : readText o.textCodec task.text w = .ok text w)
    (hcount : (textLines (scriptLines source)).length ≠ 0) :
    ∃ log, patchTask o task w = writeText o.scriptCodec task.script
      ("\n".intercalate (replaceTexts (scriptLines source) (scriptLines text))) { w with log } := by
  rw [patchTask, runBind_of_ok hscript, runBind_of_ok htext]
  dsimp only
  rw [if_neg hcount]
  split
  · exact ⟨_, rfl⟩
  · exact ⟨_, rfl⟩

theorem readText_filled_of_ne (h : readText codec path w = .ok text w) (hne : Path.place path ≠ p)
    (data : Bytes) : readText codec path (filled w p data) = .ok text (filled w p data) := by
  obtain ⟨-, hknown, q, f, decoded, hlocate, hdecode, htext⟩ := readText_eq_ok.mp h
  cases (Tree.standsAt_of_locate hlocate).1
  exact readText_eq_ok.mpr
    ⟨rfl, hknown, _, f, decoded, Tree.locate_put_of_ne hlocate hne _, hdecode,
    htext⟩

theorem readText_filled {decoded : String} {found : Option (File ρ)} {data : Bytes}
    (hlocate : w.tree.locate path = .ok (.ofFile? p found))
    (hknown : ∃ bytes, codec.encode "" = .ok bytes) (hdecode : codec.decode data = .ok decoded) :
    readText codec path (filled w p data) =
      .ok (String.ofList (plainLines decoded.toList)) (filled w p data) :=
  readText_eq_ok.mpr ⟨rfl, hknown, p, _, decoded, locate_filled hlocate data, hdecode, rfl⟩

/-- A file that has been read can be written again with all that can be encoded, and is then read as
what was written. -/
theorem rewrites_of_readText (hcodec : codec.Faithful)
    (hread : readText codec path w = .ok source w) (log : List String) :
    ((∃ w', writeText codec path text { w with log } = .ok () w') ↔
      ∃ bytes, codec.encode text = .ok bytes) ∧
    ∀ w', writeText codec path text { w with log } = .ok () w' →
      readText codec path w' = .ok (String.ofList (plainLines text.toList)) w' := by
  obtain ⟨-, hknown, p, f, -, hfile, -⟩ := readText_eq_ok.mp hread
  cases (Tree.standsAt_of_locate hfile).1
  have hlocate : ({ w with log } : World ρ).tree.locate path =
      .ok (.ofFile? (Path.place path) (some f)) := hfile
  -- The file is emptied first, and filled only if the text can be encoded.
  have hwrites (w' : World ρ) : writeText codec path text { w with log } = .ok () w' ↔
      ∃ bytes, codec.encode text = .ok bytes ∧
        w' = filled (filled { w with log } (Path.place path) []) (Path.place path) bytes := by
    rw [writeText, writeMadeText_eq_ok, ok_bind, Codec.encodeWording_ofString]
    constructor
    · rintro ⟨-, -, bytes, -, hbytes, hw'⟩
      exact ⟨bytes, hbytes, hw'⟩
    · rintro ⟨bytes, hbytes, hw'⟩
      exact ⟨hknown, some f, bytes, hlocate, hbytes, hw'⟩
  refine ⟨⟨?_, ?_⟩, fun w' h => ?_⟩
  · rintro ⟨w', h⟩
    obtain ⟨bytes, hbytes, -⟩ := (hwrites w').mp h
    exact ⟨bytes, hbytes⟩
  · rintro ⟨bytes, hbytes⟩
    exact ⟨_, (hwrites _).mpr ⟨bytes, hbytes, rfl⟩⟩
  · obtain ⟨bytes, hbytes, rfl⟩ := (hwrites w').mp h
    exact readText_filled (locate_filled hlocate []) hknown (hcodec _ _ hbytes)

/-- A script with values has a text line. -/
theorem exists_isTextLine (h : valuesOf lines = .ok values) (hne : values ≠ []) :
    ∃ line ∈ lines, isTextLine line = true := by
  by_contra hnone
  push Not at hnone
  rw [valuesOf, filter_eq_nil_iff.mpr hnone] at h
  cases h
  exact hne rfl

theorem length_textLines_ne_zero (h : ∃ line ∈ lines, isTextLine line = true) :
    (textLines lines).length ≠ 0 := by
  obtain ⟨line, hmem, hline⟩ := h
  obtain ⟨i, hi⟩ := mem_iff_getElem?.mp hmem
  have hnumber : i ∈ textLines lines :=
    mem_filterMap.mpr ⟨(line, i), mem_zipIdx_iff_getElem?.mpr hi, by simp [hline]⟩
  exact Nat.ne_of_gt (length_pos_of_mem hnumber)

/-- After texts have been taken out, the script is as it was and the texts are in their file. -/
theorem reads_of_extractTask (htext : o.textCodec.Faithful)
    (hapart : Path.place task.script ≠ Path.place task.text)
    (hread : readText o.scriptCodec task.script w = .ok source w)
    (hvalues : extract source = .ok values) (hne : values ≠ [])
    (h : extractTask o task w = .ok () w₁) :
    ∃ texts, values = texts.map textValue ∧
      readText o.scriptCodec task.script w₁ = .ok source w₁ ∧
      readText o.textCodec task.text w₁ =
        .ok (String.ofList (plainLines ("\n".intercalate texts).toList)) w₁ := by
  have hsome : values.isEmpty = false := by simpa using hne
  rw [extractTask, runBind_of_ok hread, runBind_of_ok (ofResult_eq_ok.mpr ⟨hvalues, rfl⟩), hsome,
    if_neg Bool.false_ne_true] at h
  obtain ⟨_, w₀, hsay, hwrite⟩ := of_runBind h
  have hread₀ : readText o.scriptCodec task.script w₀ = .ok source w₀ := by
    cases hsay
    exact readText_eq_ok.mpr ⟨rfl, (readText_eq_ok.mp hread).2⟩
  obtain ⟨hknown, found, bytes, hlocate, hjoin, rfl⟩ := writeMadeText_eq_ok.mp hwrite
  obtain ⟨texts, hvalues, hencode⟩ := joinTexts_eq_ok hjoin
  refine ⟨texts, hvalues, ?_, ?_⟩
  · exact readText_filled_of_ne (readText_filled_of_ne hread₀ hapart []) hapart bytes
  · exact readText_filled (locate_filled hlocate []) hknown (htext _ _ hencode)

theorem textValue_injective : Function.Injective textValue := by
  intro s t h
  simp only [textValue, Value.text.injEq] at h
  exact Option.some.inj (by rw [← Wording.string?_ofString, h, Wording.string?_ofString])

/-- What becomes of a script when texts that have been taken out of it are put back. -/
structure PutsBack (o : Options) (task : Task) (w : World ρ) (source : String)
    (texts : List String) :
    Prop where
  writes : (∃ w', patchTask o task w = .ok () w') ↔
    ∃ bytes, o.scriptCodec.encode (putBack source texts) = .ok bytes
  lines : ∀ w', patchTask o task w = .ok () w' → ∃ source',
    readText o.scriptCodec task.script w' = .ok source' w' ∧
    Forall₂ SameLine (scriptLines source) (scriptLines source') ∧
    (extract source' = .ok (texts.map textValue) ↔ Survives texts)

/-- **Texts that are taken out of a script and put back.** The script can be written again exactly
if its texts can be encoded in the place where they stand. Then all lines that are no texts are as
they were, each text stands where one stood, and the texts are the same exactly if they survive the
file between. -/
theorem extract_patchTask_iff (hscript : o.scriptCodec.Faithful) (htext : o.textCodec.Faithful)
    (hapart : Path.place task.script ≠ Path.place task.text)
    (hread : readText o.scriptCodec task.script w = .ok source w)
    (hvalues : extract source = .ok values) (hne : values ≠ [])
    (h : extractTask o task w = .ok () w₁) :
    ∃ texts, values = texts.map textValue ∧ PutsBack o task w₁ source texts := by
  obtain ⟨texts, rfl, hread₁, hread₂⟩ := reads_of_extractTask htext hapart hread hvalues hne h
  have hlines := exists_isTextLine hvalues hne
  obtain ⟨log, hpatch⟩ := patchTask_eq hread₁ hread₂ (length_textLines_ne_zero hlines)
  obtain ⟨hwrites, hreads⟩ := rewrites_of_readText hscript hread₁ log
  rw [← hpatch] at hwrites hreads
  refine ⟨texts, rfl, hwrites, fun w' hw' => ⟨_, hreads w' hw', ?_⟩⟩
  have hreturn : '\r' ∉ source.toList := by
    obtain ⟨-, -, _, _, decoded, -, -, rfl⟩ := readText_eq_ok.mp hread
    rw [String.toList_ofList]
    exact not_mem_plainLines _
  rw [extract, scriptLines_patched hreturn hlines]
  refine ⟨(replaced_replaceTexts _ _).imp fun _ _ => Replaced.sameLine, ?_⟩
  have hnew : valuesOf (replaceTexts _ (readBack texts)) = _ := valuesOf_replaceTexts hvalues
  rw [← overlaid_readBack_iff (by simpa using hne)]
  constructor
  · intro h
    exact List.map_injective_iff.mpr textValue_injective (Except.ok.inj (hnew.symm.trans h))
  · intro h
    rw [h] at hnew
    exact hnew

/-! ## Two small scripts -/

theorem extract_of_quoted (h : (scriptLines source).filter isTextLine = texts.map quoted) :
    extract source = .ok (texts.map textValue) := by
  rw [extract, h, mapM_eq_ok, forall₂_map_left_iff, forall₂_map_right_iff, forall₂_same]
  exact fun t _ => lineValue_quoted t

/-- A script and its texts. -/
def sampleTask : Task := ⟨"y/a.yuri", "t/a"⟩

/-- Options for both folders. -/
def sampleOptions : Options := ⟨"y", "t", Codec.utf8, Codec.utf8, [".yuri"], false⟩

/-- A folder with a script, and one for its texts. -/
def sampleWorld (script : String) : World Unit where
  tree := ⟨[["y"], ["t"]], [(["y", "a.yuri"], ⟨.bytes (Bytes.ofAscii script), 0⟩)]⟩

/-- The world after the texts of the script have been taken out. -/
def sampleExtracted (script : String) : World Unit :=
  after (extractTask sampleOptions sampleTask) (sampleWorld script)

/-- A script with two texts. -/
def sampleScript : String := "LBL = 'x'\n\"it's\"\nA()\n'c\\\\d'\n\n"

theorem extract_patchTask_iff_sampleScript :
    Codec.utf8.Faithful ∧ Path.place sampleTask.script ≠ Path.place sampleTask.text ∧
      readText Codec.utf8 sampleTask.script (sampleWorld sampleScript) =
        .ok sampleScript (sampleWorld sampleScript) ∧
      extract sampleScript = .ok (["it's", "c\\d"].map textValue) ∧
      extractTask sampleOptions sampleTask (sampleWorld sampleScript) =
        .ok () (sampleExtracted sampleScript) ∧
      ∃ texts, ["it's", "c\\d"].map textValue = texts.map textValue ∧
        PutsBack sampleOptions sampleTask (sampleExtracted sampleScript) sampleScript texts := by
  have hapart : Path.place sampleTask.script ≠ Path.place sampleTask.text := by decide +kernel
  have hread : readText Codec.utf8 sampleTask.script (sampleWorld sampleScript) =
      .ok sampleScript (sampleWorld sampleScript) := by decide +kernel
  have hvalues : extract sampleScript = .ok (["it's", "c\\d"].map textValue) :=
    extract_of_quoted (by decide +kernel)
  have hextract : extractTask sampleOptions sampleTask (sampleWorld sampleScript) =
      .ok () (sampleExtracted sampleScript) := eq_ok_of_result? (by decide +kernel)
  exact ⟨Codec.faithful_utf8, hapart, hread, hvalues, hextract,
    extract_patchTask_iff Codec.faithful_utf8 Codec.faithful_utf8 hapart hread hvalues (by simp)
      hextract⟩

/-- A script with a text of two lines. -/
def brokenScript : String := "'a\\nb'\n'c'\n"

/-- The second line of a text takes the place of the text behind it. -/
theorem brokenText_moves :
    extract brokenScript = .ok (["a\nb", "c"].map textValue) ∧
      ∃ w, extractTask sampleOptions sampleTask (sampleWorld brokenScript) =
          .ok () (sampleExtracted brokenScript) ∧
        patchTask sampleOptions sampleTask (sampleExtracted brokenScript) = .ok () w ∧
        readText Codec.utf8 sampleTask.script w = .ok "'a'\n'b'" w ∧
        extract "'a'\n'b'" = .ok (["a", "b"].map textValue) := by
  refine ⟨extract_of_quoted (by decide +kernel),
    after (patchTask sampleOptions sampleTask) (sampleExtracted brokenScript), ?_, ?_, ?_, ?_⟩
  · exact eq_ok_of_result? (by decide +kernel)
  · exact eq_ok_of_result? (by decide +kernel)
  · decide +kernel
  · exact extract_of_quoted (by decide +kernel)

end NovelScript.TextPatch
