import NovelScript.Proofs.Session
import NovelScript.Table.Catalogue
import NovelScript.Table.Commands
import NovelScript.Table.Labels
import NovelScript.Table.Scripts
import NovelScript.Table.Variables

/-!
# Tables that are cut short or go on

No table is the beginning of another: whatever a table reader accepts, it rejects with any bytes
missing at the end and with any bytes more.

The two runs to compare are on a byte string and on the same with more bytes behind it. A reader is
`Local` if a run that stays within the bytes it has goes the same way when there are more of them.
Whether it stays within them is known only at the end: a reader may skip bytes without looking, and
reading nothing succeeds also behind the end. But positions never go back, so a reader that ends
with the check that all bytes are passed (`Closing`) has stayed within them all the time, and the
same check fails on the longer bytes.
-/

namespace NovelScript

open List

/-! ## Positions in longer bytes -/

namespace Cursor

/-- The bytes left are those from the position on, and there are none behind the end. -/
def Sound (c : Cursor) : Prop := c.rest.length = c.size - c.pos

theorem sound_start (bytes : Bytes) : (start bytes).Sound := rfl

/-- The same position, with more bytes behind those that are left. -/
def extend (c : Cursor) (more : Bytes) : Cursor := ⟨c.size + more.length, c.pos, c.rest ++ more⟩

theorem extend_start (bytes more : Bytes) : (start bytes).extend more = start (bytes ++ more) := by
  simp [start, extend]

end Cursor

/-- More bytes do not move the first zero. -/
theorem Bytes.splitAtZero_append : ∀ {bytes text rest : Bytes} (more : Bytes),
    splitAtZero bytes = some (text, rest) →
      bytes.length = text.length + 1 + rest.length ∧
        splitAtZero (bytes ++ more) = some (text, rest ++ more)
  | [], _, _, _, h => by cases h
  | b :: bytes, text, rest, more, h => by
    by_cases hb : b = 0
    · rw [splitAtZero, if_pos hb] at h
      cases h
      refine ⟨by simp only [length_cons, length_nil]; omega, ?_⟩
      rw [cons_append, splitAtZero, if_pos hb]
    · rw [splitAtZero, if_neg hb, Option.map_eq_some_iff] at h
      obtain ⟨⟨text', rest'⟩, h', heq⟩ := h
      cases heq
      obtain ⟨hlength, happend⟩ := splitAtZero_append more h'
      refine ⟨by simp only [length_cons]; omega, ?_⟩
      rw [cons_append, splitAtZero, if_neg hb, happend]
      rfl

namespace Reader

variable {α β : Type}
variable {r : Reader α} {k : α → Reader β} (n : Nat) (codec : Codec)

/-! ## Local readers -/

/-- A run from one position to another that goes the same way when there are more bytes, unless it
has left the bytes. -/
structure Onward (r : Reader α) (c : Cursor) (a : α) (c' : Cursor) : Prop where
  sound : c'.Sound
  size : c'.size = c.size
  pos : c.pos ≤ c'.pos
  longer : c'.pos ≤ c'.size → ∀ more, r (c.extend more) = .ok a (c'.extend more)

/-- Every run of a reader that succeeds goes the same way when there are more bytes. -/
def Local (r : Reader α) : Prop :=
  ∀ (c : Cursor) (a : α) (c' : Cursor), c.Sound → r c = .ok a c' → Onward r c a c'

/-- A reader that takes nothing sees nothing. -/
theorem local_of_still (h : ∀ c a c', r c = .ok a c' → c' = c ∧ ∀ d, r d = .ok a d) : Local r := by
  intro c a c' hc hr
  obtain ⟨rfl, hstill⟩ := h c a c' hr
  exact ⟨hc, rfl, Nat.le_refl _, fun _ more => hstill _⟩

theorem local_pure (a : α) : Local (pure a : Reader α) := by
  refine local_of_still fun c b c' h => ?_
  rw [runPure_eq_ok] at h
  exact ⟨h.2, fun d => runPure_eq_ok.mpr ⟨h.1, rfl⟩⟩

theorem local_fail (fault : Fault) : Local (fail fault : Reader α) := by
  intro c a c' _ h
  cases h

theorem local_ofExcept (x : Except Fault α) : Local (ofExcept x) := by
  refine local_of_still fun c a c' h => ?_
  cases x with
  | error f => cases h
  | ok b =>
    cases h
    exact ⟨rfl, fun d => rfl⟩

theorem local_require (holds : Bool) (fault : Fault) :
    Local (require holds fault : Reader Unit) := by
  refine local_of_still fun c a c' h => ?_
  rw [runRequire_eq_ok] at h
  exact ⟨h.2, fun d => runRequire_eq_ok.mpr ⟨h.1, rfl⟩⟩

/-- Readers that see no further than they take make another such reader. -/
theorem local_bind (hr : Local r) (hk : ∀ a, Local (k a)) : Local (r >>= k) := by
  intro c b c' hc h
  obtain ⟨a, c₁, h₁, h₂⟩ := of_runBind h
  have first := hr c a c₁ hc h₁
  have second := hk a c₁ b c' first.sound h₂
  refine ⟨second.sound, second.size.trans first.size, Nat.le_trans first.pos second.pos, ?_⟩
  intro hin more
  -- The position in between lies before one within the bytes.
  have hmiddle : c₁.pos ≤ c₁.size := by
    have hpos := second.pos
    have hsize := second.size
    omega
  exact runBind_eq_ok.mpr ⟨a, _, first.longer hmiddle more, second.longer hin more⟩

theorem local_take : Local (take n) := by
  intro c a c' hc h
  simp only [take] at h
  split at h
  case isFalse => cases h
  case isTrue hlength =>
    cases h
    rw [length_take] at hlength
    have hn : n ≤ c.rest.length := by omega
    unfold Cursor.Sound at hc
    refine ⟨?_, rfl, Nat.le_add_right _ _, ?_⟩
    · simp only [Cursor.Sound, length_drop]
      omega
    · intro _ more
      simp [take, Cursor.extend, take_append_of_le_length hn,
        drop_append_of_le_length hn, Nat.min_eq_left hn]

theorem local_byte : Local byte := by
  intro c a c' hc h
  unfold byte at h
  split at h
  case h_2 => cases h
  case h_1 b rest hrest =>
    cases h
    unfold Cursor.Sound at hc
    rw [hrest, length_cons] at hc
    refine ⟨?_, rfl, Nat.le_add_right _ _, ?_⟩
    · simp only [Cursor.Sound]
      omega
    · intro _ more
      simp [byte, Cursor.extend, hrest]

theorem local_skip : Local (skip n) := by
  intro c a c' hc h
  cases h
  unfold Cursor.Sound at hc
  refine ⟨?_, rfl, Nat.le_add_right _ _, ?_⟩
  · simp only [Cursor.Sound, length_drop]
    omega
  · intro hin more
    have hn : n ≤ c.rest.length := by
      simp only at hin
      omega
    simp [skip, Cursor.extend, drop_append_of_le_length hn]

theorem local_untilZero : Local untilZero := by
  intro c a c' hc h
  unfold untilZero at h
  split at h
  case h_2 => cases h
  case h_1 text rest hsplit =>
    cases h
    unfold Cursor.Sound at hc
    obtain ⟨hlength, _⟩ := Bytes.splitAtZero_append [] hsplit
    refine ⟨?_, rfl, by simp only; omega, ?_⟩
    · simp only [Cursor.Sound]
      omega
    · intro _ more
      obtain ⟨_, happend⟩ := Bytes.splitAtZero_append more hsplit
      simp [untilZero, Cursor.extend, happend]

theorem local_map (f : α → β) (hr : Local r) : Local (r >>= fun a => pure (f a)) :=
  local_bind hr fun a => local_pure (f a)

theorem local_unsigned : Local (unsigned n) := local_map _ (local_take n)

theorem local_signed : Local (signed n) := local_map _ (local_take n)

theorem local_double : Local double := local_map _ (local_take 8)

theorem local_text (n : Nat) : Local (text codec n) :=
  local_bind (local_take n) fun _ => local_ofExcept _

theorem local_textZ : Local (textZ codec) :=
  local_bind local_untilZero fun _ => local_ofExcept _

/-- Items are read alike whatever follows them. -/
theorem local_repeated (hr : Local r) (n : Nat) : Local (repeated r n) := by
  induction n with
  | zero => exact local_pure []
  | succ n ih => exact local_bind hr fun a => local_map _ ih

/-! ## Readers that end with the bytes -/

/-- Every run of a reader that succeeds starts within the bytes, and fails when there are more. -/
def Closing (r : Reader α) : Prop :=
  ∀ (c : Cursor) (a : α) (c' : Cursor), c.Sound → r c = .ok a c' →
    c.pos ≤ c.size ∧ ∀ more ≠ [], ∃ fault c'', r (c.extend more) = .error fault c''

theorem closing_finished (version : Int) (a : α) : Closing (do finished version; return a) := by
  intro c b c' _ h
  obtain ⟨_, c₁, hfinished, _⟩ := of_runBind h
  unfold finished at hfinished
  split at hfinished
  case isFalse => cases hfinished
  case isTrue hend =>
    refine ⟨Nat.le_of_eq hend, fun more hmore => ?_⟩
    have hpast : ¬(c.extend more).pos = (c.extend more).size := by
      have := length_pos_iff.mpr hmore
      simp only [Cursor.extend]
      omega
    refine ⟨Violation.unreadRest c.pos (c.size + more.length) version, c.extend more, ?_⟩
    show EStateM.bind (finished version) _ _ = _
    rw [EStateM.bind, finished, if_neg hpast]
    rfl

/-- A reader that ends the file may follow them. -/
theorem closing_bind (hr : Local r) (hk : ∀ a, Closing (k a)) : Closing (r >>= k) := by
  intro c b c' hc h
  obtain ⟨a, c₁, h₁, h₂⟩ := of_runBind h
  have first := hr c a c₁ hc h₁
  obtain ⟨hin, hfails⟩ := hk a c₁ b c' first.sound h₂
  refine ⟨Nat.le_trans first.pos (first.size ▸ hin), fun more hmore => ?_⟩
  obtain ⟨fault, c'', hfail⟩ := hfails more hmore
  refine ⟨fault, c'', ?_⟩
  show EStateM.bind r k _ = _
  rw [EStateM.bind, first.longer hin more]
  exact hfail

/-- More bytes are refused. -/
theorem Closing.runOn_append (h : Closing r) {bytes more : Bytes} {a : α}
    (hr : r.runOn bytes = .ok a) (hmore : more ≠ []) :
    ∃ fault, r.runOn (bytes ++ more) = .error fault := by
  unfold runOn at hr
  split at hr
  case h_2 => cases hr
  case h_1 c' hrun =>
    obtain ⟨_, hfails⟩ := h _ _ _ (Cursor.sound_start bytes) hrun
    obtain ⟨fault, c'', hfail⟩ := hfails more hmore
    refine ⟨fault, ?_⟩
    rw [Cursor.extend_start] at hfail
    rw [runOn, hfail]

end Reader

/-! ## The readers of tables -/

section

open Reader

variable (codec : Codec) (given : Option Int) (version : Int)

/-- So is a header. -/
theorem local_readHeader (size : Nat) (signature name : String) :
    Local (Table.readHeader size signature name given) :=
  local_bind (local_take size) fun _ =>
    local_bind (local_require _ _) fun _ => local_bind (local_require _ _) fun _ => local_pure _

theorem local_valueType (code : Nat) : Local (Table.valueType code) := local_ofExcept _

/-- A command table ends with its file. -/
theorem CommandTable.closing_reader : Closing (reader codec given) := by
  have hparameter : Local (readParameter codec) :=
    local_bind (local_textZ codec) fun _ => local_bind (local_take 2) fun _ =>
      local_map _ (local_valueType _)
  have hcommand : Local (readCommand codec) :=
    local_bind (local_textZ codec) fun _ => local_bind local_byte fun count =>
      local_map _ (local_repeated hparameter count)
  refine closing_bind (local_readHeader given 16 _ _) fun header => ?_
  refine closing_bind (local_require _ _) fun _ => ?_
  refine closing_bind (local_repeated hcommand _) fun commands => ?_
  refine closing_bind (local_repeated (local_textZ codec) _) fun messages => ?_
  exact closing_bind (local_take 256) fun tail => closing_finished _ _

theorem ErrorTable.local_readMessage : Local (readMessage codec) :=
  local_bind (local_unsigned 4) fun _ => local_map _ (local_textZ codec)

/-- So does an error table. -/
theorem ErrorTable.closing_reader : Closing (reader codec given) := by
  refine closing_bind (local_readHeader given 16 _ _) fun header => ?_
  refine closing_bind (local_require _ _) fun _ => ?_
  exact closing_bind (local_repeated (local_readMessage codec) _) fun errors => closing_finished _ _

theorem LabelTable.local_readLabel (hash : Hash) : Local (readLabel codec hash) := by
  refine local_bind local_byte fun length => local_bind (local_take length) fun name =>
    local_bind (local_take 12) fun record => ?_
  dsimp only
  split
  · exact local_fail _
  · exact local_map _ (local_ofExcept _)

/-- So does a label table. -/
theorem LabelTable.closing_reader (hash : Option Hash) : Closing (reader codec given hash) := by
  refine closing_bind (local_readHeader given 12 _ _) fun header => ?_
  refine closing_bind (local_skip 1024) fun _ => ?_
  exact closing_bind (local_repeated (local_readLabel codec _) _) fun labels => closing_finished _ _

theorem ScriptList.local_readEntry (number : Nat) : Local (readEntry codec version number) := by
  refine local_bind (local_take 8) fun head => local_bind (local_require _ _) fun _ =>
    local_bind (local_text codec _) fun path => ?_
  split
  · exact local_map _ (local_take 20)
  · exact local_map _ (local_take 16)

theorem ScriptList.local_readEntries (number count : Nat) :
    Local (readEntries codec version number count) := by
  induction count generalizing number with
  | zero => exact local_pure []
  | succ count ih =>
    exact local_bind (local_readEntry codec version number) fun entry => local_map _ (ih _)

/-- So does a script list. -/
theorem ScriptList.closing_reader : Closing (reader codec given) := by
  refine closing_bind (local_readHeader given 12 _ _) fun header => ?_
  exact closing_bind (local_readEntries codec _ 0 _) fun scripts => closing_finished _ _

theorem VariableTable.local_readInitial (type : ValueType) : Local (readInitial codec type) := by
  cases type with
  | unknown => exact local_pure none
  | int => exact local_map _ (local_signed 8)
  | float => exact local_map _ local_double
  | text =>
    exact local_bind (local_unsigned 2) fun length => local_bind (local_take length) fun bytes =>
      local_map _ (local_ofExcept _)

theorem VariableTable.local_readValue (typeCode count : Nat) :
    Local (readValue codec typeCode count) :=
  local_bind (local_repeated (local_unsigned 4) count) fun _ =>
    local_bind (local_valueType typeCode) fun type => local_map _ (local_readInitial codec type)

theorem VariableTable.local_readVariable : Local (readVariable codec version) := by
  unfold readVariable
  split
  · exact local_bind (local_take 8) fun _ => local_bind (local_require _ _) fun _ =>
      local_bind (local_ofExcept _) fun _ => local_bind (local_ofExcept _) fun _ =>
        local_map _ (local_readValue codec _ _)
  · exact local_bind (local_take 7) fun _ => local_bind (local_ofExcept _) fun _ =>
      local_map _ (local_readValue codec _ _)

/-- So does a variable table. -/
theorem VariableTable.closing_reader : Closing (reader codec given) := by
  refine closing_bind (local_readHeader given 10 _ _) fun header => ?_
  exact closing_bind (local_repeated (local_readVariable codec _) _) fun entries =>
    closing_finished _ _

theorem Catalogue.local_readCommand : Local (readCommand codec) := by
  have hparameter : Local (readParameter codec) :=
    local_bind (local_textZ codec) fun _ => local_bind (local_take 4) fun _ =>
      local_map _ (local_valueType _)
  exact local_bind (local_textZ codec) fun _ => local_bind local_byte fun count =>
    local_map _ (local_repeated hparameter count)

theorem Catalogue.local_readVariable : Local (readVariable codec) :=
  local_bind (local_textZ codec) fun _ => local_bind (local_take 2) fun _ =>
    local_bind (local_valueType _) fun _ => local_map _ (local_repeated (local_unsigned 4) _)

theorem Catalogue.local_readCount : Local readCount := local_map _ (local_take 8)

/-- So does a catalogue. -/
theorem Catalogue.closing_reader : Closing (reader codec given) := by
  refine closing_bind (local_readHeader given 16 _ _) fun header => ?_
  refine closing_bind (local_require _ _) fun _ => ?_
  refine closing_bind (local_repeated (local_readCommand codec) _) fun commands => ?_
  refine closing_bind local_readCount fun count => ?_
  refine closing_bind (local_require _ _) fun _ => closing_bind (local_require _ _) fun _ => ?_
  refine closing_bind (local_repeated (local_readVariable codec) _) fun _ => ?_
  refine closing_bind local_readCount fun count => closing_bind (local_require _ _) fun _ => ?_
  refine closing_bind (local_repeated (ErrorTable.local_readMessage codec) _) fun errors => ?_
  refine closing_bind (local_repeated (local_textZ codec) _) fun messages => ?_
  refine closing_bind local_readCount fun length => closing_bind (local_require _ _) fun _ => ?_
  refine closing_bind (local_repeated (local_take _) _) fun blocks => ?_
  exact closing_bind (local_take 0x800) fun tail => closing_finished _ _

end

/-! ## Accepted byte strings -/

/-- What is accepted is rejected when it is cut short at any place, and when anything follows it. -/
def AcceptsWholeOnly {α : Type} (read : Bytes → Except Fault α) : Prop :=
  ∀ (bytes : Bytes) (a : α), read bytes = .ok a →
    (∀ n < bytes.length, ∃ fault, read (bytes.take n) = .error fault) ∧
      ∀ more ≠ [], ∃ fault, read (bytes ++ more) = .error fault

/-- A reader that ends the file accepts the whole file only. -/
theorem Reader.Closing.acceptsWholeOnly {α : Type} {r : Reader α} (h : Closing r) :
    AcceptsWholeOnly r.runOn := by
  intro bytes a ha
  refine ⟨fun n hn => ?_, fun more hmore => h.runOn_append ha hmore⟩
  -- A shorter byte string that is accepted would be the beginning of the whole one.
  cases hshort : r.runOn (bytes.take n) with
  | error fault => exact ⟨fault, rfl⟩
  | ok b =>
    have hmore : bytes.drop n ≠ [] := by
      rw [ne_eq, drop_eq_nil_iff]
      omega
    obtain ⟨fault, hfault⟩ := h.runOn_append hshort hmore
    rw [take_append_drop, ha] at hfault
    cases hfault

/-- No table that is accepted is the proper beginning of another, whatever version is put in the
place of the stored one, whatever the encoding is and however the names of labels are checked. -/
theorem tables_acceptWholeOnly (codec : Codec) (given : Option Int) (hash : Option Hash) :
    AcceptsWholeOnly (CommandTable.read codec given) ∧
      AcceptsWholeOnly (ErrorTable.read codec given) ∧
      AcceptsWholeOnly (LabelTable.read codec given hash) ∧
      AcceptsWholeOnly (ScriptList.read codec given) ∧
      AcceptsWholeOnly (VariableTable.read codec given) ∧
      AcceptsWholeOnly (Catalogue.read codec given) :=
  ⟨(CommandTable.closing_reader codec given).acceptsWholeOnly,
    (ErrorTable.closing_reader codec given).acceptsWholeOnly,
    (LabelTable.closing_reader codec given hash).acceptsWholeOnly,
    (ScriptList.closing_reader codec given).acceptsWholeOnly,
    (VariableTable.closing_reader codec given).acceptsWholeOnly,
    (Catalogue.closing_reader codec given).acceptsWholeOnly⟩

/-- The beginning of a table of version 480. -/
def sampleHeader (signature : String) (count : Nat) : Bytes :=
  Bytes.ofAscii signature ++ Bytes.ofNat 4 480 ++ Bytes.ofNat 4 count

/-- A command with one argument, and no messages. -/
def sampleCommands : Bytes :=
  sampleHeader "YSCM" 1 ++ Bytes.ofNat 4 0 ++ [65, 0, 1, 66, 0, 1, 0] ++ replicate 293 0

/-- A message. -/
def sampleErrors : Bytes := sampleHeader "YSER" 1 ++ Bytes.ofNat 4 0 ++ [5, 0, 0, 0, 69, 0]

/-- One label, behind an index that is not looked at. -/
def sampleLabels : Bytes :=
  sampleHeader "YSLB" 1 ++ replicate 1024 0 ++ [1, 65] ++ replicate 12 0

/-- A script. -/
def sampleScripts : Bytes :=
  sampleHeader "YSTL" 1 ++ [0, 0, 0, 0, 1, 0, 0, 0, 97] ++ replicate 20 0

/-- A variable. -/
def sampleVariables : Bytes :=
  (sampleHeader "YSVR" 1).take 10 ++ [1, 0, 0, 0, 0, 1, 0] ++ replicate 8 0

/-- No commands, variables and messages, and one block of data. -/
def sampleCatalogue : Bytes :=
  sampleHeader "YSCD" 0 ++ replicate 57 0 ++ [1, 0, 0, 0, 0, 0, 0, 0] ++ replicate 2049 0

/-- The bytes are accepted, and neither without the last of them nor with one more. -/
def StandsAlone {α : Type} (read : Bytes → Except Fault α) (bytes : Bytes) : Prop :=
  (read bytes).toOption.isSome = true ∧
    (∃ fault, read (bytes.take (bytes.length - 1)) = .error fault) ∧
    ∃ fault, read (bytes ++ [0]) = .error fault

theorem AcceptsWholeOnly.standsAlone {α : Type} {read : Bytes → Except Fault α}
    (h : AcceptsWholeOnly read) {bytes : Bytes} (hsome : (read bytes).toOption.isSome = true)
    (hpos : 0 < bytes.length) : StandsAlone read bytes := by
  cases hread : read bytes with
  | error fault =>
    rw [hread] at hsome
    cases hsome
  | ok a =>
    obtain ⟨hshort, hlong⟩ := h bytes a hread
    exact ⟨hsome, hshort _ (by omega), hlong [0] (by simp)⟩

theorem tables_acceptWholeOnly_samples :
    StandsAlone (CommandTable.read .utf8 none) sampleCommands ∧
      StandsAlone (ErrorTable.read .utf8 none) sampleErrors ∧
      StandsAlone (LabelTable.read .utf8 none (some fun _ => none)) sampleLabels ∧
      StandsAlone (ScriptList.read .utf8 none) sampleScripts ∧
      StandsAlone (VariableTable.read .utf8 none) sampleVariables ∧
      StandsAlone (Catalogue.read .utf8 none) sampleCatalogue := by
  obtain ⟨hcommands, herrors, hlabels, hscripts, hvariables, hcatalogue⟩ :=
    tables_acceptWholeOnly .utf8 none (some fun _ => none)
  exact ⟨hcommands.standsAlone (by decide +kernel) (by decide +kernel),
    herrors.standsAlone (by decide +kernel) (by decide +kernel),
    hlabels.standsAlone (by decide +kernel) (by decide +kernel),
    hscripts.standsAlone (by decide +kernel) (by decide +kernel),
    hvariables.standsAlone (by decide +kernel) (by decide +kernel),
    hcatalogue.standsAlone (by decide +kernel) (by decide +kernel)⟩

end NovelScript
