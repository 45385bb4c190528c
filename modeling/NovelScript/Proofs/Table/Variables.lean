import NovelScript.Proofs.Table.Reading
import NovelScript.Table.Variables

/-!
# Variable tables and their bytes

Reading and writing variable tables undo each other. A variable is a record, its dimensions and its
initial value. Tables of old versions have no place for the extension, so it must be the one that
the number tells.

In the other direction only the fillers in the initial texts are free. Which bytes these texts are
is told by `initialTexts`, which goes through a table by sizes and type numbers alone.
-/

namespace NovelScript

open List Reader Bytes

variable {n : Nat} {code : List Instr} {bytes : Bytes}

/-! ## Stored numbers -/

theorem Scope.ofCode?_code (s : Scope) : Scope.ofCode? s.code = some s := by cases s <;> rfl

theorem Scope.code_of_ofCode? {n : Int} {s : Scope} (h : Scope.ofCode? n = some s) :
    s.code = n := by
  simpa using find?_some h

theorem Extension.ofCode?_code (e : Extension) : Extension.ofCode? e.code = some e := by
  cases e <;> rfl

theorem Extension.code_of_ofCode? {e : Extension} (h : Extension.ofCode? n = some e) :
    e.code = n := by
  simpa using find?_some h

theorem ValueType.ofCode?_code (t : ValueType) : ValueType.ofCode? t.code = some t := by
  cases t <;> rfl

theorem ValueType.code_of_ofCode? {t : ValueType} (h : ValueType.ofCode? n = some t) :
    t.code = n := by
  unfold ValueType.ofCode? at h
  split at h <;> cases h <;> rfl

/-! ## What is written is read -/

/-- A value can be written and read. -/
def Initial.Storable (codec : Codec) : Initial → Prop
  | int n => -2 ^ 63 ≤ n ∧ n < 2 ^ 63
  | float _ => True
  | text code => (∀ i ∈ code, i.InRange codec) ∧
    ∀ bytes, Instr.encodeAll codec code = .ok bytes → bytes.length < 256 ^ 2

/-- A variable that can be written in tables of a version and is read back. -/
structure Variable.Storable (codec : Codec) (version : Int) (v : Variable) : Prop where
  scope : v.scope ≠ .temporary
  extension : if VariableTable.storesExtension version
    then v.number < firstUserNumber → v.extension = .system
    else v.extension = if v.number < firstUserNumber then .system else .declared
  script : 0 ≤ v.script ∧ v.script < 256 ^ 2
  number : 0 ≤ v.number ∧ v.number < 256 ^ 2
  rank : v.dims.length ≤ 255
  dims : ∀ d ∈ v.dims, 0 ≤ d ∧ d < 256 ^ 4
  init : ∀ initial ∈ v.init, initial.Storable codec

theorem Instr.decodeAll_encodeAll {codec : Codec} (h : ∀ i ∈ code, i.InRange codec) :
    ∃ bytes, encodeAll codec code = .ok bytes ∧ decodeAll codec bytes = .ok code := by
  obtain ⟨bytes, hencode, hread⟩ := readAll_encodeAll h
  refine ⟨bytes, hencode, ?_⟩
  unfold decodeAll Reader.runOn
  rw [hread]

namespace VariableTable

variable {codec : Codec} {version : Int}
variable {v : Variable} {bytes head : Bytes} {n : Nat}

/-- A value that can be stored is read back. -/
theorem takes_readInitial {init : Option Initial} (h : ∀ initial ∈ init, initial.Storable codec) :
    ∃ bytes, putInitial codec init = .ok bytes ∧
      Takes (readInitial codec ((init.map Initial.type).getD .unknown)) bytes init := by
  cases init with
  | none => exact ⟨[], rfl, takes_pure none⟩
  | some initial =>
    have hinitial := h initial rfl
    cases initial with
    | int n =>
      obtain ⟨hlow, hhigh⟩ := hinitial
      have hn : Bytes.signed? 8 n = some _ := signed?_eq_some.mpr ⟨by omega, rfl⟩
      have htakes := takes_map (fun n => some (Initial.int n))
        (takes_signed (length_signed? hn))
      rw [toInt_signed? hn] at htakes
      exact ⟨_, orFault_eq_ok.mpr hn, htakes⟩
    | float x =>
      have htakes := takes_map (fun x => some (Initial.float x))
        (takes_double (length_ofNat 8 x.bits.toNat))
      rw [toNat_ofNat (Nat.lt_of_lt_of_eq x.bits.toNat_lt rfl), UInt64.ofNat_toNat] at htakes
      exact ⟨_, rfl, htakes⟩
    | text code =>
      obtain ⟨bytes, hencode, hdecode⟩ := Instr.decodeAll_encodeAll hinitial.1
      have hshort := hinitial.2 bytes hencode
      have hlength : Bytes.unsigned? 2 bytes.length = some (Bytes.ofNat 2 bytes.length) :=
        unsigned?_eq_some.mpr ⟨by omega, rfl⟩
      refine ⟨Bytes.ofNat 2 bytes.length ++ bytes, ?_, ?_⟩
      · rw [putInitial, hencode, ok_bind, hlength]
        rfl
      · refine takes_bind (takes_unsigned (length_ofNat 2 _)) ?_
        rw [toNat_ofNat hshort]
        exact takes_last (takes_take rfl) (takes_step (takes_ofExcept hdecode) (takes_pure _))

/-- Dimensions are read back. -/
theorem takes_dims {dims : List Int} (h : ∀ d ∈ dims, 0 ≤ d ∧ d < 256 ^ 4) :
    ∃ pieces numbers,
      (dims.mapM fun d => orFault (Bytes.unsigned? 4 d) Cause.overflow) = .ok pieces ∧
      numbers.map Int.ofNat = dims ∧
      Takes (repeated (unsigned 4) dims.length) pieces.flatten numbers := by
  refine ⟨dims.map fun d => Bytes.ofNat 4 d.toNat, dims.map Int.toNat, mapM_ok fun d hd => ?_, ?_,
    ?_⟩
  · exact orFault_eq_ok.mpr (unsigned?_eq_some.mpr ⟨by have := h d hd; omega, rfl⟩)
  · rw [map_map]
    exact (map_congr_left fun d hd => Int.toNat_of_nonneg (h d hd).1).trans (map_id dims)
  · have hpieces : Forall₂ (Takes (unsigned 4)) (dims.map fun d => Bytes.ofNat 4 d.toNat)
        (dims.map Int.toNat) := by
      rw [forall₂_map_left_iff, forall₂_map_right_iff, forall₂_same]
      intro d hd
      have hlt : d.toNat < 256 ^ 4 := by have := h d hd; omega
      have htakes := takes_unsigned (length_ofNat 4 d.toNat)
      rwa [toNat_ofNat hlt] at htakes
    have htakes := takes_repeated hpieces
    rwa [length_map] at htakes

/-- So is a value with its dimensions. -/
theorem takes_readValue (h : v.Storable codec version) :
    ∃ dims bytes,
      (v.dims.mapM fun d => orFault (Bytes.unsigned? 4 d) Cause.overflow) = .ok dims ∧
      putInitial codec v.init = .ok bytes ∧
      Takes (readValue codec v.type.code v.dims.length) (dims.flatten ++ bytes)
        (v.dims, v.init) := by
  obtain ⟨dims, numbers, hdims, hnumbers, htakes⟩ := takes_dims h.dims
  obtain ⟨bytes, hbytes, hinit⟩ := takes_readInitial h.init
  have htype : Takes (Table.valueType v.type.code) [] v.type :=
    takes_ofExcept (orFault_eq_ok.mpr (ValueType.ofCode?_code v.type))
  refine ⟨dims, bytes, hdims, hbytes, takes_bind htakes (takes_step htype ?_)⟩
  rw [hnumbers]
  exact takes_map _ hinit

/-- The fields before the dimensions. -/
def headFields (version : Int) (v : Variable) : List (Nat × Int) :=
  [(1, v.scope.code)] ++
    (if storesExtension version then [(1, (v.extension.code : Int))] else []) ++
    [(2, v.script), (2, v.number), (1, v.type.code), (1, v.dims.length)]

/-- A variable is its fields, its dimensions and its value. -/
theorem putVariable_eq_ok :
    putVariable codec version v = .ok bytes ↔
      ∃ head dims initial, putRecord (headFields version v) = .ok head ∧
        (v.dims.mapM fun d => orFault (Bytes.unsigned? 4 d) Cause.overflow) = .ok dims ∧
        putInitial codec v.init = .ok initial ∧ bytes = head ++ (dims.flatten ++ initial) := by
  simp only [putVariable, bind_eq_ok, pure_eq_ok, Except.ok.injEq, headFields, append_assoc,
    @eq_comm _ bytes]
  constructor
  · rintro ⟨head, hhead, dims, hdims, initial, hinitial, rfl⟩
    exact ⟨head, dims, initial, hhead, hdims, hinitial, rfl⟩
  · rintro ⟨head, dims, initial, hhead, hdims, hinitial, rfl⟩
    exact ⟨head, hhead, dims, hdims, initial, hinitial, rfl⟩

theorem headFields_ok (h : v.Storable codec version) :
    ∃ head, putRecord (headFields version v) = .ok head := by
  have hscope : 0 ≤ v.scope.code ∧ v.scope.code < 256 ^ 1 := by
    have hne := h.scope
    cases hs : v.scope with
    | temporary => exact absurd hs hne
    | _ => decide
  have hextension : v.extension.code < 256 ^ 1 := by cases v.extension <;> decide
  have htype : v.type.code < 256 ^ 1 := by cases v.type <;> decide
  obtain ⟨hscript, hnumber, hrank⟩ := And.intro h.script (And.intro h.number h.rank)
  refine putRecord_ok ?_
  unfold headFields
  split
  all_goals
    simp only [cons_append, nil_append, forall_mem_cons, not_mem_nil,
      false_implies, implies_true, and_true]
    omega

theorem takes_readScope {s : Scope} (h : (n : Int) = s.code) : Takes (readScope n) [] s := by
  refine takes_ofExcept (orFault_eq_ok.mpr ?_)
  rw [h, Scope.ofCode?_code]

theorem takes_readExtension {e : Extension} (h : n = e.code) : Takes (readExtension n) [] e := by
  refine takes_ofExcept (orFault_eq_ok.mpr ?_)
  rw [h, Extension.ofCode?_code]

section

variable (h : v.Storable codec version)
include h

theorem takes_readExtended (hstores : storesExtension version = true)
    (hhead : putRecord (headFields version v) = .ok head)
    (hvalue : Takes (readValue codec v.type.code v.dims.length) bytes (v.dims, v.init)) :
    Takes (readExtended codec) (head ++ bytes) v := by
  have hsystem := h.extension
  rw [if_pos hstores] at hsystem
  rw [headFields, if_pos hstores] at hhead
  have hscope : (head.field 0 1 : Int) = v.scope.code := field_putRecord hhead 0 rfl
  have hextension : (head.field 1 1 : Int) = v.extension.code := field_putRecord hhead 1 rfl
  have hscript : (head.field 2 2 : Int) = v.script := field_putRecord hhead 2 rfl
  have hnumber : (head.field 4 2 : Int) = v.number := field_putRecord hhead 3 rfl
  have htype : (head.field 6 1 : Int) = v.type.code := field_putRecord hhead 4 rfl
  have hrank : (head.field 7 1 : Int) = v.dims.length := field_putRecord hhead 5 rfl
  refine takes_bind (takes_take (length_putRecord hhead)) (takes_step (takes_require ?_)
    (takes_step (takes_readScope hscope)
      (takes_step (takes_readExtension (Int.ofNat_inj.mp hextension)) ?_)))
  · rw [Bool.or_eq_true, decide_eq_true_eq, beq_iff_eq]
    by_cases hnew : firstUserNumber ≤ head.field 4 2
    · exact .inl hnew
    · rw [hsystem (by omega)] at hextension
      exact .inr (Int.ofNat_inj.mp hextension)
  · rw [Int.ofNat_inj.mp htype, Int.ofNat_inj.mp hrank, hscript, hnumber]
    exact takes_map _ hvalue

theorem takes_readPlain (hstores : ¬storesExtension version = true)
    (hhead : putRecord (headFields version v) = .ok head)
    (hvalue : Takes (readValue codec v.type.code v.dims.length) bytes (v.dims, v.init)) :
    Takes (readPlain codec) (head ++ bytes) v := by
  have hextension := h.extension
  rw [if_neg hstores] at hextension
  rw [headFields, if_neg hstores] at hhead
  have hscope : (head.field 0 1 : Int) = v.scope.code := field_putRecord hhead 0 rfl
  have hscript : (head.field 1 2 : Int) = v.script := field_putRecord hhead 1 rfl
  have hnumber : (head.field 3 2 : Int) = v.number := field_putRecord hhead 2 rfl
  have htype : (head.field 5 1 : Int) = v.type.code := field_putRecord hhead 3 rfl
  have hrank : (head.field 6 1 : Int) = v.dims.length := field_putRecord hhead 4 rfl
  have htold : (if head.field 3 2 < firstUserNumber then Extension.system else .declared)
      = v.extension := by
    simp only [hextension, ← hnumber, Int.ofNat_lt]
  refine takes_bind (takes_take (length_putRecord hhead)) (takes_step (takes_readScope hscope) ?_)
  simp only [Int.ofNat_inj.mp htype, Int.ofNat_inj.mp hrank, hscript, hnumber, htold]
  exact takes_map _ hvalue

/-- **A variable is read back.** -/
theorem takes_readVariable :
    ∃ bytes, putVariable codec version v = .ok bytes ∧
      Takes (readVariable codec version) bytes v := by
  obtain ⟨head, hhead⟩ := headFields_ok h
  obtain ⟨dims, initial, hdims, hinitial, hvalue⟩ := takes_readValue h
  refine ⟨_, putVariable_eq_ok.mpr ⟨head, dims, initial, hhead, hdims, hinitial, rfl⟩, ?_⟩
  unfold readVariable
  split
  · next hstores => exact takes_readExtended h hstores hhead hvalue
  · next hstores => exact takes_readPlain h hstores hhead hvalue

end

end VariableTable

/-! ## What is read is written -/

/-- Behind every end of an index list there is a zero byte. -/
def Instr.FillersAreZero (bytes : Bytes) : Prop :=
  ∀ segment ∈ Instr.segments bytes, segment.1 = Instr.indexEndWord → segment.2 = [0]

instance (bytes : Bytes) : Decidable (Instr.FillersAreZero bytes) :=
  inferInstanceAs (Decidable (∀ segment ∈ Instr.segments bytes,
    segment.1 = Instr.indexEndWord → segment.2 = [0]))

theorem Instr.zeroFillers_eq_self (h : FillersAreZero bytes) : zeroFillers bytes = bytes := by
  have hsegments : (segments bytes).flatMap zeroFiller
      = (segments bytes).flatMap fun segment => segment.1 ++ segment.2 := by
    refine flatMap_congr fun segment hsegment => ?_
    rw [zeroFiller]
    split
    · next hword => rw [h segment hsegment hword]
    · rfl
  rw [zeroFillers, hsegments, flatten_segments]

theorem Instr.encodeAll_of_decodeAll {codec : Codec} (hcodec : codec.Reencodes)
    (h : decodeAll codec bytes = .ok code) (hzero : FillersAreZero bytes) :
    encodeAll codec code = .ok bytes := by
  unfold decodeAll Reader.runOn at h
  split at h
  · next hread =>
    cases h
    have hencode := (reread_of_readAll hcodec hread).encode
    rwa [Cursor.start, zeroFillers_eq_self hzero] at hencode
  · cases h

namespace VariableTable

variable {codec : Codec} {version : Int}
variable {pieces : List Bytes} {entries : List Variable} {count : Nat} {table : VariableTable}

/-- The text in an initial value of a type, and what comes behind the value. -/
def cutInitial (type : Option ValueType) (bytes : Bytes) : List Bytes × Bytes :=
  match type with
  | some .text =>
    let size := bytes.field 0 2
    ([(bytes.drop 2).take size], bytes.drop (2 + size))
  | some .int | some .float => ([], bytes.drop 8)
  | some .unknown | none => ([], bytes)

/-- The text in the initial value of a variable, and what comes behind the variable. -/
def cutVariable (version : Int) (bytes : Bytes) : List Bytes × Bytes :=
  let size := if storesExtension version then 8 else 7
  cutInitial (ValueType.ofCode? (bytes.field (size - 2) 1))
    (bytes.drop (size + 4 * bytes.field (size - 1) 1))

/-- The texts in the initial values of a number of variables. -/
def cutTexts (version : Int) : (count : Nat) → Bytes → List Bytes
  | 0, _ => []
  | count + 1, bytes =>
    let (texts, rest) := cutVariable version bytes
    texts ++ cutTexts version count rest

/-- The bytes of the texts in a file. -/
def initialTexts (file : Bytes) : List Bytes :=
  cutTexts (file.field 4 4) (file.field 8 2) (file.drop 10)

/-- Bytes are those that are written, if the texts that are found in them have zero for all
fillers. -/
def WrittenBack (cut : Bytes → List Bytes × Bytes) (bytes : Bytes) (written : Except Fault Bytes) :
    Prop :=
  ∃ texts, (∀ rest, cut (bytes ++ rest) = (texts, rest)) ∧
    ((∀ text ∈ texts, Instr.FillersAreZero text) → written = .ok bytes)

/-- A value that is read would be written as it stands. -/
theorem sound_readInitial (hcodec : codec.Reencodes) (type : ValueType) :
    Sound (readInitial codec type) fun bytes init =>
      (init.map Initial.type).getD .unknown = type ∧
      WrittenBack (cutInitial (some type)) bytes (putInitial codec init) := by
  cases type with
  | unknown =>
    refine (sound_pure none).imp ?_
    rintro bytes init ⟨rfl, rfl⟩
    exact ⟨rfl, [], fun _ => rfl, fun _ => rfl⟩
  | int =>
    refine (sound_map _ (sound_signed 8)).imp ?_
    rintro bytes init ⟨n, rfl, hlength, rfl⟩
    refine ⟨rfl, [], fun rest => ?_, fun _ => ?_⟩
    · rw [cutInitial, drop_left' hlength]
    · have hvalue := signed?_toInt bytes
      rw [hlength] at hvalue
      exact orFault_eq_ok.mpr hvalue
  | float =>
    refine (sound_map _ sound_double).imp ?_
    rintro bytes init ⟨x, rfl, hlength, rfl⟩
    refine ⟨rfl, [], fun rest => ?_, fun _ => ?_⟩
    · rw [cutInitial, drop_left' hlength]
    · rw [putInitial, ofNat_bits hlength]
  -- Only a text has filling bytes, which are written back if they are zero.
  | text =>
    refine (sound_bind (sound_unsigned 2) fun n => sound_bind (sound_take n) fun text =>
      sound_map _ (sound_ofExcept (Instr.decodeAll codec text))).imp ?_
    rintro bytes init ⟨_, size, _, rfl, ⟨hsize, rfl⟩, text, _, _, rfl, ⟨hlength, rfl⟩, code, rfl,
      rfl, hdecode⟩
    rw [append_nil]
    have hfield (rest : Bytes) : Bytes.field (size ++ text ++ rest) 0 2 = text.length := by
      rw [Bytes.field, drop_zero, append_assoc, take_left' hsize, hlength]
    refine ⟨rfl, [text], fun rest => ?_, fun hzero => ?_⟩
    · simp only [cutInitial, hfield]
      rw [drop_left' (show (size ++ text).length = 2 + text.length by
        rw [length_append, hsize]), append_assoc, drop_left' hsize, take_left]
    · have hput := unsigned?_toNat size
      rw [hsize, ← hlength] at hput
      rw [putInitial, Instr.encodeAll_of_decodeAll hcodec hdecode (hzero text mem_cons_self),
        ok_bind, hput]
      rfl

/-- Dimensions that are read would be written as they stand. -/
theorem sound_dims (n : Nat) :
    Sound (repeated (unsigned 4) n) fun bytes numbers => numbers.length = n ∧
      ∃ pieces, bytes = pieces.flatten ∧ pieces.flatten.length = 4 * n ∧
        ((numbers.map Int.ofNat).mapM fun d => orFault (Bytes.unsigned? 4 d) Cause.overflow)
          = .ok pieces := by
  refine (sound_repeated (sound_unsigned 4) n).imp ?_
  rintro bytes numbers ⟨hcount, pieces, rfl, hpieces⟩
  refine ⟨hcount, pieces, rfl, ?_, ?_⟩
  · subst hcount
    induction hpieces with
    | nil => rfl
    | cons hpiece _ ih =>
      rw [flatten_cons, length_append, hpiece.1, ih, length_cons]
      omega
  · rw [mapM_eq_ok, forall₂_map_left_iff]
    refine hpieces.flip.imp fun number piece hpiece => ?_
    obtain ⟨hlength, rfl⟩ := hpiece
    have hput := unsigned?_toNat piece
    rw [hlength] at hput
    exact orFault_eq_ok.mpr hput

/-- What dimensions and an initial value that were read have to do with the record before them. -/
structure ValueWritten (codec : Codec) (typeCode count : Nat) (bytes : Bytes) (dims : List Int)
    (init : Option Initial) : Prop where
  type : ((init.map Initial.type).getD .unknown).code = typeCode
  rank : dims.length = count
  parts : ∃ pieces initial, bytes = pieces.flatten ++ initial ∧ pieces.flatten.length = 4 * count ∧
    (dims.mapM fun d => orFault (Bytes.unsigned? 4 d) Cause.overflow) = .ok pieces ∧
    WrittenBack (cutInitial (ValueType.ofCode? typeCode)) initial (putInitial codec init)

/-- So would one with its dimensions. -/
theorem sound_readValue (hcodec : codec.Reencodes) (typeCode count : Nat) :
    Sound (readValue codec typeCode count) fun bytes value =>
      ValueWritten codec typeCode count bytes value.1 value.2 := by
  refine (sound_bind (sound_dims count) fun _ => sound_bind (sound_ofExcept _) fun type =>
    sound_map _ (sound_readInitial hcodec type)).imp ?_
  rintro bytes value ⟨numbers, _, _, rfl, ⟨hcount, pieces, rfl, hlength, hpieces⟩, type, _, initial,
    rfl, ⟨rfl, htype⟩, init, rfl, hinit, hwritten⟩
  have hcode := orFault_eq_ok.mp htype
  refine ⟨?_, by rw [length_map, hcount], pieces, initial, rfl, hlength, hpieces, ?_⟩
  · rw [hinit]
    exact ValueType.code_of_ofCode? hcode
  · rw [hcode]
    exact hwritten

theorem writtenBack_variable {v : Variable} {record bytes : Bytes} {size : Nat}
    (hsize : size = if storesExtension version then 8 else 7) (hlength : record.length = size)
    (hrecord : putRecord (headFields version v) = .ok record)
    (hvalue : ValueWritten codec (record.field (size - 2) 1) (record.field (size - 1) 1) bytes
      v.dims v.init) :
    WrittenBack (cutVariable version) (record ++ bytes) (putVariable codec version v) := by
  obtain ⟨-, -, pieces, initial, rfl, hpieces, hdims, texts, hcut, hinitial⟩ := hvalue
  have hseven : 7 ≤ size := by
    rw [hsize]
    split <;> decide
  refine ⟨texts, fun rest => ?_, fun hzero => ?_⟩
  · -- The type and the number of dimensions are the last two bytes of the record.
    unfold cutVariable
    simp only [← hsize]
    rw [append_assoc, field_append_left _ (by omega),
      field_append_left _ (by omega), ← drop_drop, drop_left' hlength,
      append_assoc, drop_left' hpieces, hcut]
  · exact putVariable_eq_ok.mpr ⟨record, pieces, initial, hrecord, hdims, hinitial hzero, rfl⟩

theorem sound_readExtended (hcodec : codec.Reencodes) (hstores : storesExtension version = true) :
    Sound (readExtended codec) fun bytes v =>
      WrittenBack (cutVariable version) bytes (putVariable codec version v) := by
  refine (sound_bind (sound_take 8) fun record => sound_bind (sound_require _ _) fun _ =>
    sound_bind (sound_ofExcept _) fun scope => sound_bind (sound_ofExcept _) fun extension =>
    sound_map _ (sound_readValue hcodec _ _)).imp ?_
  rintro bytes v ⟨record, _, _, rfl, ⟨hlength, rfl⟩, _, _, _, rfl, ⟨rfl, -⟩, scope, _, _, rfl,
    ⟨rfl, hscope⟩, extension, _, _, rfl, ⟨rfl, hextension⟩, ⟨dims, init⟩, rfl, hvalue⟩
  refine writtenBack_variable (if_pos hstores).symm hlength ?_ hvalue
  have hrecord := putRecord_fieldsFrom record 0 [1, 1, 2, 2, 1, 1] hlength.symm
  rw [headFields, if_pos hstores, Scope.code_of_ofCode? (orFault_eq_ok.mp hscope),
    Extension.code_of_ofCode? (orFault_eq_ok.mp hextension), Variable.type, hvalue.type,
    hvalue.rank]
  exact hrecord

theorem sound_readPlain (hcodec : codec.Reencodes) (hstores : ¬storesExtension version = true) :
    Sound (readPlain codec) fun bytes v =>
      WrittenBack (cutVariable version) bytes (putVariable codec version v) := by
  refine (sound_bind (sound_take 7) fun record => sound_bind (sound_ofExcept _) fun scope =>
    sound_map _ (sound_readValue hcodec _ _)).imp ?_
  rintro bytes v ⟨record, _, _, rfl, ⟨hlength, rfl⟩, scope, _, _, rfl, ⟨rfl, hscope⟩, ⟨dims, init⟩,
    rfl, hvalue⟩
  refine writtenBack_variable (if_neg hstores).symm hlength ?_ hvalue
  have hrecord := putRecord_fieldsFrom record 0 [1, 2, 2, 1, 1] hlength.symm
  rw [headFields, if_neg hstores, Scope.code_of_ofCode? (orFault_eq_ok.mp hscope), Variable.type,
    hvalue.type, hvalue.rank]
  exact hrecord

/-- **A variable that has been read is written back.** -/
theorem sound_readVariable (hcodec : codec.Reencodes) (version : Int) :
    Sound (readVariable codec version) fun bytes v =>
      WrittenBack (cutVariable version) bytes (putVariable codec version v) := by
  unfold readVariable
  split
  · next hstores => exact sound_readExtended hcodec hstores
  · next hstores => exact sound_readPlain hcodec hstores

/-- Variables that were read are written as their pieces. -/
theorem mapM_putVariable
    (h : Forall₂
      (fun piece v => WrittenBack (cutVariable version) piece (putVariable codec version v))
      pieces entries)
    (hzero : ∀ text ∈ cutTexts version entries.length pieces.flatten, Instr.FillersAreZero text) :
    entries.mapM (putVariable codec version) = .ok pieces := by
  rw [mapM_eq_ok]
  induction h with
  | nil => exact .nil
  | cons hv _ ih =>
    obtain ⟨texts, hcut, hwritten⟩ := hv
    -- The cut ends where the next variable starts.
    rw [length_cons, flatten_cons, cutTexts, hcut, forall_mem_append] at hzero
    exact .cons (hwritten hzero.1) (ih hzero.2)

/-! ## Tables -/

/-- The header of a table. -/
def tableHeader (version : Int) (count : Nat) : Bytes :=
  Bytes.ofAscii "YSVR" ++ Bytes.ofNat 4 version.toNat ++ Bytes.ofNat 2 count

theorem isHeader_tableHeader (hversion : 200 ≤ version ∧ version < 600) (count : Nat) :
    Table.IsHeader 10 "YSVR" (tableHeader version count) version :=
  Table.isHeader_written hversion (by decide) (by rw [length_ofNat])

theorem field_tableHeader (version : Int) (hcount : count < 256 ^ 2) :
    (tableHeader version count).field 8 2 = count :=
  Table.field_written version rfl hcount

/-- Variables that can be stored are written. -/
theorem write_ok {given : Option Int}
    (hversion : 200 ≤ chosenVersion given table.version ∧ chosenVersion given table.version < 600)
    (hcount : table.entries.length < 256 ^ 2)
    (hpieces : table.entries.mapM (putVariable codec (chosenVersion given table.version))
      = .ok pieces) :
    write codec given none table = .ok
      (tableHeader (chosenVersion given table.version) table.entries.length ++ pieces.flatten) := by
  unfold write
  dsimp only
  rw [requireVersion_eq_ok hversion, ok_bind, Table.putHeader_ok "YSVR" hversion, ok_bind,
    putUnsigned_ok (by omega), ok_bind, hpieces, ok_bind, pure_eq_ok, tableHeader,
    Int.toNat_natCast]

/-- Variables that are taken make the table. -/
theorem read_ok (hversion : 200 ≤ version ∧ version < 600) (hcount : entries.length < 256 ^ 2)
    (h : Forall₂ (Takes (readVariable codec version)) pieces entries) :
    read codec none (tableHeader version entries.length ++ pieces.flatten)
      = .ok ⟨version, entries⟩ := by
  refine (exhausts_bind (Table.takes_readHeader "YSV" (isHeader_tableHeader hversion _)) ?_).runOn
  simp only [field_tableHeader version hcount]
  rw [← append_nil pieces.flatten]
  exact exhausts_bind (takes_repeated h) (exhausts_finished _ _)

theorem initialTexts_append (hversion : 200 ≤ version ∧ version < 600) (hcount : count < 256 ^ 2)
    (bytes : Bytes) :
    initialTexts (tableHeader version count ++ bytes) = cutTexts version count bytes := by
  have hheader := isHeader_tableHeader hversion count
  rw [initialTexts, field_append_left _ (by rw [hheader.length]; decide),
    field_append_left _ (by rw [hheader.length]), ← hheader.states,
    field_tableHeader version hcount, drop_left' hheader.length]

/-- A table that is read is made of the pieces of its file. -/
theorem exists_pieces_of_read (hcodec : codec.Reencodes) {file : Bytes}
    (h : read codec none file = .ok table) :
    (200 ≤ table.version ∧ table.version < 600) ∧ table.entries.length < 256 ^ 2 ∧
      ∃ pieces, file = tableHeader table.version table.entries.length ++ pieces.flatten ∧
        Forall₂
          (fun piece v =>
            WrittenBack (cutVariable table.version) piece (putVariable codec table.version v))
          pieces table.entries := by
  have hcovers := covers_bind (Table.sound_readHeader 10 "YSVR" "YSV") fun header =>
    covers_bind (sound_repeated (sound_readVariable hcodec header.2) (header.1.field 8 2))
      fun entries => covers_finished header.2 (VariableTable.mk header.2 entries)
  obtain ⟨⟨header, version⟩, _, _, rfl, ⟨rfl, hheader⟩, entries, _, _, rfl,
    ⟨hcount, pieces, rfl, hpieces⟩, rfl, rfl⟩ := hcovers.of_runOn h
  dsimp only at hheader hcount
  have hlast : (header.drop 8).length = 2 := by rw [length_drop, hheader.length]
  have hfield : header.field 8 2 = Bytes.toNat (header.drop 8) := by
    rw [Bytes.field, take_of_length_le (Nat.le_of_eq hlast)]
  have hlt := toNat_lt (header.drop 8)
  have hback := ofNat_toNat (header.drop 8)
  rw [hlast, ← hfield, ← hcount] at hlt hback
  refine ⟨hheader.supported, hlt, pieces, ?_, hpieces⟩
  rw [append_nil, tableHeader, hback, ← hheader.eq_append (by decide)]

/-- **Reading and writing variable tables undo each other.** Variables that can be stored are read
back in their order, with the version that they were written for. Bytes that have been read are
written back, if the codec gives back the bytes of its texts and no filler in an initial text is
other than zero. -/
theorem read_write_variables (codec : Codec) :
    (∀ (given : Option Int) (table : VariableTable),
      200 ≤ chosenVersion given table.version → chosenVersion given table.version < 600 →
      table.entries.length < 256 ^ 2 →
      (∀ v ∈ table.entries, v.Storable codec (chosenVersion given table.version)) →
      ∃ file, write codec given none table = .ok file ∧
        read codec none file = .ok ⟨chosenVersion given table.version, table.entries⟩) ∧
    (codec.Reencodes → ∀ (file : Bytes) (table : VariableTable), read codec none file = .ok table →
      (∀ text ∈ initialTexts file, Instr.FillersAreZero text) →
      write codec none none table = .ok file) := by
  refine ⟨fun given table hlow hhigh hcount hentries => ?_, fun hcodec file table hread hzero => ?_⟩
  · obtain ⟨pieces, hpieces⟩ := exists_forall₂ fun v hv => takes_readVariable (hentries v hv)
    exact ⟨_, write_ok ⟨hlow, hhigh⟩ hcount (mapM_eq_ok.mpr (hpieces.imp fun _ _ hv => hv.1)),
      read_ok ⟨hlow, hhigh⟩ hcount (hpieces.flip.imp fun _ _ hv => hv.2)⟩
  · obtain ⟨hversion, hcount, pieces, rfl, hpieces⟩ := exists_pieces_of_read hcodec hread
    rw [initialTexts_append hversion hcount] at hzero
    have hchosen : 200 ≤ chosenVersion none table.version ∧
        chosenVersion none table.version < 600 := hversion
    exact write_ok hchosen hcount (mapM_putVariable hpieces hzero)

/-- An array of the system without a type, a number, a float and the text of an element. -/
def sampleTable : VariableTable where
  version := 500
  entries :=
    [⟨.global, .system, 0, 999, [2, 0xFFFFFFFF], none⟩,
     ⟨.static, .third, 0xFFFF, 1000, [], some (.int (-0x8000000000000000))⟩,
     ⟨.folder, .declared, 1, 1001, [0], some (.float ⟨0x7FF0000000000001⟩)⟩,
     ⟨.global, .second, 1, 1002, [],
       some (.text [.access .element .text 1002, .int .w8 (-1), .op .indexEnd])⟩]

/-- A file with a value of each type. -/
def sampleFile : Bytes :=
  Bytes.ofAscii "YSVR" ++ [0xF4, 1, 0, 0, 4, 0] ++
    [1, 0, 0, 0, 0xE7, 3, 0, 2, 2, 0, 0, 0, 0xFF, 0xFF, 0xFF, 0xFF] ++
    [2, 3, 0xFF, 0xFF, 0xE8, 3, 1, 0, 0, 0, 0, 0, 0, 0, 0, 0x80] ++
    [3, 1, 1, 0, 0xE9, 3, 2, 1, 0, 0, 0, 0, 1, 0, 0, 0, 0, 0, 0xF0, 0x7F] ++
    [1, 2, 1, 0, 0xEA, 3, 3, 0, 14, 0] ++
    [0x56, 3, 0, 0x24, 0xEA, 3, 0x42, 1, 0, 0xFF, 0x29, 1, 0, 0]

theorem read_write_variables_sampleTable :
    (∀ v ∈ sampleTable.entries, v.Storable Codec.ascii 500) ∧
    (∀ text ∈ initialTexts sampleFile, Instr.FillersAreZero text) ∧
    read Codec.ascii none sampleFile = .ok sampleTable ∧
    write Codec.ascii none none sampleTable = .ok sampleFile := by
  obtain ⟨hforth, hback⟩ := read_write_variables Codec.ascii
  have hentries : ∀ v ∈ sampleTable.entries, v.Storable Codec.ascii 500 := by
    simp only [sampleTable, List.forall_mem_cons, List.not_mem_nil, false_implies, implies_true,
      and_true]
    refine ⟨?_, ?_, ?_, ?_⟩
    all_goals refine ⟨by decide, by decide, by decide, by decide, by decide, by decide, ?_⟩
    · rintro _ ⟨⟩
    · rintro _ ⟨⟩
      exact ⟨by decide, by decide⟩
    · rintro _ ⟨⟩
      trivial
    · rintro _ ⟨⟩
      refine ⟨by simp [Instr.InRange, IntWidth.size], fun bytes hbytes => ?_⟩
      have hencode : Instr.encodeAll Codec.ascii
          [.access .element .text 1002, .int .w8 (-1), .op .indexEnd]
            = .ok (sampleFile.drop 72) := by
        decide +kernel
      rw [hencode] at hbytes
      cases hbytes
      decide
  have htexts : ∀ text ∈ initialTexts sampleFile, Instr.FillersAreZero text := by decide +kernel
  obtain ⟨file, hwrite, hread⟩ :=
    hforth none sampleTable (by decide) (by decide) (by decide) hentries
  have hfile : write Codec.ascii none none sampleTable = .ok sampleFile := by decide +kernel
  rw [hfile] at hwrite
  cases hwrite
  exact ⟨hentries, htexts, hread, hback Codec.reencodes_ascii sampleFile sampleTable hread htexts⟩

end VariableTable

end NovelScript
