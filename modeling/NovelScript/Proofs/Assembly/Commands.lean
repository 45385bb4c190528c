import NovelScript.Proofs.Assembly.Form
import NovelScript.Proofs.Assembly.Placement

/-!
# Reading back commands

Reading follows the writer: a record is taken for each argument (`takes_write`), its data is found
in the expression section where it stands, and the commands come in the order of their places. There
is one layout with the arguments behind each command (`readCommands_writeJoined`) and one with a
section for them (`takes_readSplitCommands`).
-/

namespace NovelScript

open List Script

/-! ## Stored numbers -/

theorem typeOf_code (t : ValueType) : typeOf t.code = .ok t := by cases t <;> rfl

theorem ValueType.code_lt (t : ValueType) : t.code < 4 := by cases t <;> decide

theorem assignmentOf_code (op : Assignment) : assignmentOf op.code = .ok op := by
  cases op <;> rfl

namespace Draft

open Reader

variable {bytes : Bytes} {shape : Script.Shape} {a : Argument} {span : Span} {chunks : List Bytes}
  {p : Placed}
variable {expressions : Bytes} {codec : Codec} {version : Int} {places : Array Place}

/-! ## Arguments -/

theorem slice_eq_ok {offset size : Nat} (h : (expressions.drop offset).take size = bytes)
    (hsize : bytes.length = size) : slice expressions.toArray offset size = .ok bytes := by
  have hbytes : (expressions.toArray.extract offset (offset + size)).toList = bytes := by
    rw [← h]
    simp [extract_eq_take_drop]
  unfold slice
  simp only [hbytes, hsize, require]
  simp

/-- A record of an argument is read back, if its data is found. -/
theorem takes_readArgument {textCodec : Codec} {expressions : Array UInt8} {id size offset : Int}
    {type : ValueType} {op : Assignment} {data : ArgumentData} {record : Bytes}
    (hrecord : putRecord [(2, id), (1, (type.code : Int)), (1, (op.code : Int)), (4, size),
      (4, offset)] = .ok record)
    (hdata : argumentData codec textCodec expressions shape offset.toNat size.toNat = .ok data) :
    Takes (readArgument codec textCodec expressions shape) record
      ⟨id, type, op, size, offset, data⟩ := by
  have hid : (record.field 0 2 : Int) = id := field_putRecord hrecord 0 rfl
  have htype : (record.field 2 1 : Int) = type.code := field_putRecord hrecord 1 rfl
  have hop : (record.field 3 1 : Int) = op.code := field_putRecord hrecord 2 rfl
  have hsize : (record.field 4 4 : Int) = size := field_putRecord hrecord 3 rfl
  have hoffset : (record.field 8 4 : Int) = offset := field_putRecord hrecord 4 rfl
  have hlt := type.code_lt
  refine takes_last (takes_take (length_putRecord hrecord)) ?_
  refine takes_step (takes_ofExcept (a := data) ?_) (takes_step (takes_ofExcept (a := type) ?_)
    (takes_step (takes_ofExcept (a := op) ?_) ?_))
  · rw [← hdata]
    congr 1 <;> omega
  · rw [show record.field 2 1 % 4 = type.code by omega]
    exact typeOf_code type
  · rw [show record.field 3 1 = op.code by omega]
    exact assignmentOf_code op
  · rw [hid, hsize, hoffset]
    exact takes_pure _

/-- The data of an argument stands in the expression section where it can be read back. -/
def Stands (codec : Codec) (expressions : Bytes) (data : Data) (span : Span) : Prop :=
  match data with
  | .code instructions => ∃ bytes, (expressions.drop span.offset).take span.size = bytes ∧
      bytes.length = span.size ∧ Instr.decodeAll codec bytes = .ok instructions
  | .text w => ∃ bytes, (expressions.drop span.offset).take span.size = bytes ∧
      bytes.length = span.size ∧ codec.decode bytes = .ok w.shown
  | _ => True

/-- The type and the operator of an argument are among those that there are. -/
def Argument.InRange (a : Argument) : Prop :=
  (∃ t : ValueType, a.type = t.code) ∧ ∃ op : Assignment, a.assignment = op.code

theorem putRecord_of_write (h : a.write version places span = .ok bytes)
    (hlong : (∃ n, a.data = .number n) → isSplit version = true) :
    putRecord [(2, a.id), (1, a.type), (1, a.assignment), (4, (a.location version places span).1),
      (4, (a.location version places span).2)] = .ok bytes := by
  unfold Argument.write at h
  unfold Argument.location
  cases hdata : a.data with
  | number n =>
    have hsplit := hlong ⟨n, hdata⟩
    rw [hdata] at h
    dsimp only at h ⊢
    rw [if_pos hsplit] at h
    rw [if_pos (.inl hsplit)]
    exact h
  | jump target =>
    rw [hdata] at h
    obtain ⟨p, hp, h⟩ := of_bind h
    rw [orFault_eq_ok] at hp
    have hget : places.getD target {} = p := by
      rw [Array.getD_eq_getD_getElem?, hp]
      rfl
    dsimp only
    rw [hget]
    exact h
  | none | text w | bytes b | code c =>
    rw [hdata] at h
    exact h

/-- The data of an argument is found where its span tells. -/
theorem argumentData_location (hshape : a.data.HasShape shape)
    (hstands : Stands codec expressions a.data span) :
    argumentData codec codec expressions.toArray shape
      (a.location version places span).2.toNat (a.location version places span).1.toNat
        = .ok (a.content shape) := by
  unfold Argument.location Argument.content
  cases shape with
  | jump => rfl
  | expression =>
    cases hdata : a.data with
    | code instructions =>
      rw [hdata] at hstands
      obtain ⟨bytes, hslice, hlength, hdecode⟩ := hstands
      simp only [Int.toNat_natCast, argumentData, slice_eq_ok hslice hlength, ok_bind,
        hdecode]
      rfl
    | _ =>
      rw [hdata] at hshape
      exact hshape.elim
  | text =>
    cases hdata : a.data with
    | text w =>
      rw [hdata] at hstands
      obtain ⟨bytes, hslice, hlength, hdecode⟩ := hstands
      simp only [Int.toNat_natCast, argumentData, slice_eq_ok hslice hlength, ok_bind,
        hdecode]
      rfl
    | _ =>
      rw [hdata] at hshape
      exact hshape.elim

/-- An argument is read as it was written. -/
theorem takes_write (hwrite : a.write version places span = .ok bytes)
    (hlong : (∃ n, a.data = .number n) → isSplit version = true) (hrange : a.InRange)
    (hshape : a.data.HasShape shape) (hstands : Stands codec expressions a.data span) :
    ∃ r, Takes (readArgument codec codec expressions.toArray shape) bytes r ∧
      a.ReadAs version places shape span r := by
  obtain ⟨⟨t, ht⟩, op, hop⟩ := hrange
  have hrecord := putRecord_of_write hwrite hlong
  rw [ht, hop] at hrecord
  exact ⟨_, takes_readArgument hrecord (argumentData_location hshape hstands),
    rfl, ht.symm, hop.symm, rfl, rfl⟩

theorem takes_write_short {n : Int} (hwrite : a.write version places span = .ok bytes)
    (hnumber : a.data = .number n) (hsplit : isSplit version = false) (hrange : a.InRange) :
    ∃ r, Takes (readShortArgument version) bytes r ∧
      a.ReadAs version places .jump span r := by
  obtain ⟨⟨t, ht⟩, op, hop⟩ := hrange
  unfold Argument.write at hwrite
  simp only [hnumber, hsplit, ht, hop] at hwrite
  -- the head is the same in both cases; only the one version has a size behind it
  have hread : ∀ {head tail : Bytes} {size : Nat},
      putRecord [(2, a.id), (1, (t.code : Int)), (1, (op.code : Int))] = .ok head →
      Takes (if version = 290 then unsigned 4 else pure 0) tail size →
      Takes (readShortArgument version) (head ++ tail) ⟨a.id, t, op, size, 0, .none⟩ := by
    intro head tail size hhead htail
    have hid : (head.field 0 2 : Int) = a.id := field_putRecord hhead 0 rfl
    have htype : (head.field 2 1 : Int) = t.code := field_putRecord hhead 1 rfl
    have hassignment : (head.field 3 1 : Int) = op.code := field_putRecord hhead 2 rfl
    have hjoin : ∀ k : Nat → Reader NovelScript.Argument,
        (if version = 290 then unsigned 4 >>= k else pure 0 >>= k)
          = (if version = 290 then unsigned 4 else pure 0) >>= k := by
      intro k
      split <;> rfl
    refine takes_bind (takes_take (length_putRecord hhead)) ?_
    show Takes (if version = 290 then unsigned 4 >>= _ else pure 0 >>= _) _ _
    rw [hjoin]
    refine takes_last htail ?_
    refine takes_step (takes_ofExcept (a := t) ?_) (takes_step (takes_ofExcept (a := op) ?_) ?_)
    · rw [show head.field 2 1 = t.code by omega]
      exact typeOf_code t
    · rw [show head.field 3 1 = op.code by omega]
      exact assignmentOf_code op
    · rw [hid]
      exact takes_pure _
  by_cases hversion : version = 290
  · rw [if_neg (by simp), if_pos hversion] at hwrite
    obtain ⟨head, tail, hhead, htail, rfl⟩ := putRecord_append hwrite
    have hsize : (tail.field 0 4 : Int) = n := field_putRecord htail 0 rfl
    have hlength : tail.length = 4 := length_putRecord htail
    have hunsigned : Takes (if version = 290 then unsigned 4 else pure 0) tail tail.toNat := by
      rw [if_pos hversion]
      exact takes_unsigned hlength
    refine ⟨_, hread hhead hunsigned, rfl, ht.symm, hop.symm, ?_, rfl⟩
    simp only [Argument.location, hnumber, hversion, or_true, if_true]
    rw [← hsize, Bytes.field, drop_zero, ← hlength, take_length]
  · rw [if_neg (by simp), if_neg hversion] at hwrite
    have hshort := hread hwrite (show Takes _ [] 0 by rw [if_neg hversion]; exact takes_pure 0)
    rw [append_nil] at hshort
    refine ⟨_, hshort, rfl, ht.symm, hop.symm, ?_, rfl⟩
    simp [Argument.location, hnumber, hversion, hsplit]

/-! ## The arguments of a command -/

/-- Everything that reading a placed command back depends on. -/
structure Placed.Readable (table : CommandTable) (codec : Codec) (expressions : Bytes)
    (p : Placed) :
    Prop where
  formed : ∃ shapes, Formed table p.command.code (p.command.arguments.map Argument.data) shapes
  arguments : Forall₂ (fun (a : Argument) s => a.InRange ∧ Stands codec expressions a.data s)
    p.command.arguments p.spans

theorem takes_returnCode {arguments : List Argument} {spans : List Span} {value : Int}
    (hdata : arguments.map Argument.data = [.number value])
    (harguments : Forall₂ (fun (a : Argument) s => a.InRange ∧ Stands codec expressions a.data s)
      arguments spans)
    (hchunks : Forall₂ (fun (x : Argument × Span) chunk =>
      x.1.write version places x.2 = .ok chunk) (arguments.zip spans) chunks) :
    ∃ rs, Takes (do
        require (arguments.length == 1) Condition.argumentCount
        if version < 300 then return [← readShortArgument version]
        else return [← readArgument codec codec expressions.toArray .jump]) chunks.flatten rs ∧
      Forall₂ (fun (x : Script.Shape × Argument × Span) r =>
        x.2.1.ReadAs version places x.1 x.2.2 r)
        ([Script.Shape.jump].zip (arguments.zip spans)) rs := by
  obtain ⟨a, rfl, hnumber⟩ := map_eq_singleton_iff.mp hdata
  obtain ⟨s, _, ⟨hrange, hstands⟩, hnil, rfl⟩ := forall₂_cons_left_iff.mp harguments
  cases hnil
  obtain ⟨chunk, _, hchunk, hnil, rfl⟩ := forall₂_cons_left_iff.mp hchunks
  cases hnil
  rw [flatten_cons, flatten_nil, append_nil]
  have hrequire : Takes (require ([a].length == 1) Condition.argumentCount : Reader Unit) [] () :=
    takes_require rfl
  by_cases hversion : version < 300
  · obtain ⟨r, htakes, hr⟩ := takes_write_short hchunk hnumber
      (by simpa [isSplit] using hversion) hrange
    refine ⟨[r], takes_step hrequire ?_, Forall₂.cons hr Forall₂.nil⟩
    rw [if_pos hversion]
    exact takes_map (fun r => [r]) htakes
  · have hshape : a.data.HasShape .jump := by
      rw [hnumber]
      trivial
    obtain ⟨r, htakes, hr⟩ := takes_write hchunk (fun _ => by simpa [isSplit] using hversion) hrange
      hshape hstands
    refine ⟨[r], takes_step hrequire ?_, Forall₂.cons hr Forall₂.nil⟩
    rw [if_neg hversion]
    exact takes_map (fun r => [r]) htakes

/-- So are all arguments of a command. -/
theorem takes_writeArguments {table : CommandTable} (hforms : HasForms table) {n : Nat}
    (hp : p.Readable table codec expressions) (hn : p.command.code = n)
    (hwrite : p.writeArguments version places = .ok bytes) :
    ∃ rs, Takes (readArguments ⟨table.code, version, codec, codec, expressions.toArray⟩ n
        p.command.arguments.length) bytes rs ∧ rs.length = p.command.arguments.length ∧
      ∃ shapes, Formed table p.command.code (p.command.arguments.map Argument.data) shapes ∧
        Forall₂ (fun (x : Script.Shape × Argument × Span) r =>
          x.2.1.ReadAs version places x.1 x.2.2 r) (shapes.zip (p.command.arguments.zip p.spans))
          rs := by
  obtain ⟨shapes, hformed⟩ := hp.formed
  obtain ⟨r, hr⟩ := hforms "RETURNCODE" (by simp)
  obtain ⟨chunks, hchunks, hwrite⟩ := of_bind hwrite
  cases hwrite
  rw [mapM_eq_ok] at hchunks
  suffices hread : ∃ rs, Takes (if n = r then do
        require (p.command.arguments.length == 1) Condition.argumentCount
        if version < 300 then return [← readShortArgument version]
        else return [← readArgument codec codec expressions.toArray .jump]
      else do
        let shapes ← Reader.ofExcept (Script.shapes table.code n p.command.arguments.length)
        shapes.mapM (readArgument codec codec expressions.toArray)) chunks.flatten rs ∧
      Forall₂ (fun (x : Script.Shape × Argument × Span) r =>
        x.2.1.ReadAs version places x.1 x.2.2 r) (shapes.zip (p.command.arguments.zip p.spans))
        rs by
    obtain ⟨rs, htakes, hrs⟩ := hread
    have hshapes := length_of_formed hformed
    have hspans := hp.arguments.length_eq
    have hlength := hrs.length_eq
    rw [length_map] at hshapes
    rw [length_zip, length_zip] at hlength
    exact ⟨rs, takes_step (takes_ofExcept hr) htakes, by omega, shapes, hformed, hrs⟩
  by_cases hreturn : n = r
  · rw [if_pos hreturn]
    obtain ⟨value, hdata, rfl⟩ := number_of_formed hformed hn (hreturn ▸ hr)
    exact takes_returnCode hdata hp.arguments hchunks
  · rw [if_neg hreturn]
    have hcode : table.code "RETURNCODE" ≠ .ok n := fun h => by
      rw [hr] at h
      exact hreturn (Except.ok.inj h).symm
    have hshapes := shapes_of_formed hforms hformed hn hcode
    rw [length_map] at hshapes
    have hfit := hasShape_of_formed hformed
    rw [forall₂_map_right_iff] at hfit
    obtain ⟨rs, htakes, hrs⟩ := takes_mapM
      (f := readArgument codec codec expressions.toArray)
      ((forall₂_zip hfit hp.arguments).imp fun shape x hx chunk hchunk =>
        takes_write hchunk (fun hnumber => absurd (hx.1.2 hnumber) (by
          rintro ⟨k, hk, hreturn⟩
          rw [hn, Int.natCast_inj] at hk
          exact hcode (hk ▸ hreturn))) hx.2.1 hx.1.1 hx.2.2) hchunks
    exact ⟨rs, takes_step (takes_ofExcept hshapes) htakes, hrs⟩

/-! ## Commands with their arguments behind them -/

theorem length_write (h : a.write version places span = .ok bytes) :
    bytes.length = a.size version := by
  unfold Argument.write at h
  unfold Argument.size
  cases hdata : a.data with
  | number n =>
    simp only [hdata] at h ⊢
    split at h
    · next hsplit =>
      rw [if_pos hsplit]
      exact length_putRecord h
    · next hsplit =>
      rw [if_neg hsplit]
      split at h
      · next hversion =>
        rw [if_pos hversion]
        exact length_putRecord h
      · next hversion =>
        rw [if_neg hversion]
        exact length_putRecord h
  | jump t =>
    simp only [hdata] at h ⊢
    obtain ⟨_, _, h⟩ := of_bind h
    exact length_putRecord h
  | _ =>
    simp only [hdata] at h ⊢
    exact length_putRecord h

theorem length_flatten_write :
    ∀ {arguments : List Argument} {spans : List Span} {chunks : List Bytes},
      arguments.length = spans.length →
      Forall₂ (fun (x : Argument × Span) chunk => x.1.write version places x.2 = .ok chunk)
        (arguments.zip spans) chunks →
      chunks.flatten.length = total (arguments.map (Argument.size version))
  | [], [], _, _, h => by
    cases h
    rfl
  | a :: arguments, s :: spans, _, hlength, h => by
    obtain ⟨chunk, chunks, hchunk, hchunks, rfl⟩ := forall₂_cons_left_iff.mp h
    rw [flatten_cons, length_append, length_write hchunk,
      length_flatten_write (Nat.succ.inj hlength) hchunks]
    rfl

/-- The sizes of arguments tell how long they are written. -/
theorem length_writeArguments (hlength : p.command.arguments.length = p.spans.length)
    (h : p.writeArguments version places = .ok bytes) :
    bytes.length = total (p.command.arguments.map (Argument.size version)) := by
  obtain ⟨chunks, hchunks, h⟩ := of_bind h
  cases h
  exact length_flatten_write hlength (mapM_eq_ok.mp hchunks)

/-- A command followed by its arguments, as old versions write it. -/
def Placed.writeJoined (version : Int) (places : Array Place) (p : Placed) :
    Except Fault Bytes := do
  let head ← putRecord [(1, p.command.code), (1, (p.command.arguments.length : Int)),
    (4, p.command.line)]
  return head ++ (← p.writeArguments version places)

theorem length_writeJoined (hsplit : isSplit version = false)
    (hlength : p.command.arguments.length = p.spans.length)
    (h : p.writeJoined version places = .ok bytes) : bytes.length = p.command.size version := by
  obtain ⟨head, hhead, h⟩ := of_bind h
  obtain ⟨arguments, harguments, h⟩ := of_bind h
  cases h
  rw [length_append, length_putRecord hhead, length_writeArguments hlength harguments,
    Command.size, hsplit]
  rfl

theorem length_writeJoined_pos {chunk : Bytes} (h : p.writeJoined version places = .ok chunk) :
    0 < chunk.length := by
  obtain ⟨head, hhead, h⟩ := of_bind h
  obtain ⟨arguments, -, h⟩ := of_bind h
  cases h
  have hlength : head.length = 6 := length_putRecord hhead
  rw [length_append]
  omega

section

variable {table : CommandTable} {version : Int} {codec : Codec} {expressions : Bytes}
  {places : Array Place}
variable {kept : List Placed} {chunks : List Bytes}

/-- A command that stands with its arguments is read back. -/
theorem readCommand_writeJoined (hforms : HasForms table) (hsplit : isSplit version = false)
    {p : Placed} (hp : p.Readable table codec expressions) {bytes : Bytes}
    (hwrite : p.writeJoined version places = .ok bytes) (c : Cursor) (rest : Bytes)
    (hpos : c.pos = p.place.offset) (hc : c.rest = bytes ++ rest) :
    ∃ r, readCommand ⟨table.code, version, codec, codec, expressions.toArray⟩ c
        = .ok r { c with pos := c.pos + bytes.length, rest } ∧
      p.ReadAs table version places r := by
  obtain ⟨head, hhead, hwrite⟩ := of_bind hwrite
  obtain ⟨arguments, harguments, hwrite⟩ := of_bind hwrite
  cases hwrite
  have hcode : (head.field 0 1 : Int) = p.command.code := field_putRecord hhead 0 rfl
  have hcount : (head.field 1 1 : Int) = p.command.arguments.length := field_putRecord hhead 1 rfl
  have hline : (head.field 2 4 : Int) = p.command.line := field_putRecord hhead 2 rfl
  obtain ⟨rs, htakes, hlength, hrs⟩ := takes_writeArguments hforms hp hcode.symm harguments
  refine ⟨⟨c.pos, head.field 2 4, head.field 0 1, rs, 0⟩, ?_, ?_⟩
  · have hbody := takes_bind (takes_take (length_putRecord hhead)) (k := fun record => do
      let arguments ← readArguments ⟨table.code, version, codec, codec, expressions.toArray⟩
        (record.field 0 1) (record.field 1 1)
      return (⟨c.pos, record.field 2 4, record.field 0 1, arguments, 0⟩ : NovelScript.Command))
      (takes_map _
        (by rw [show head.field 1 1 = p.command.arguments.length by omega]; exact htakes))
    exact hbody c rest hc
  · refine ⟨?_, hline, hcode, ?_, hlength, hrs⟩
    · rw [hpos, hsplit]
      rfl
    · rw [hsplit]
      rfl

/-- Commands with their arguments behind them are read back, whatever the bound above their
number. -/
theorem readCommands_writeJoined (hforms : HasForms table) (hsplit : isSplit version = false)
    (size : Nat) :
    ∀ {items : List (Command × List (List Piece))} {start : Place} {chunks : List Bytes}
      {bound : Nat}, Forall₂ (fun (p : Placed) chunk => p.writeJoined version places = .ok chunk)
        (keptOf version (placeFrom version start items)) chunks →
      (∀ p ∈ keptOf version (placeFrom version start items), p.Readable table codec expressions) →
      chunks.length ≤ bound →
      ∃ rs c', readCommands ⟨table.code, version, codec, codec, expressions.toArray⟩ bound
          ⟨size, start.offset, chunks.flatten⟩ = .ok rs c' ∧
        Forall₂ (Placed.ReadAs table version places)
          (keptOf version (placeFrom version start items)) rs
  | [], start, _, bound, hchunks, _, _ => by
    cases hchunks
    cases bound with
    | zero | succ _ => exact ⟨[], _, rfl, Forall₂.nil⟩
  | (c, data) :: rest, start, chunks, bound, hchunks, hread, hbound => by
    cases hleft : c.presence.isLeftOut version with
    | true =>
      rw [keptOf_leftOut hleft] at hchunks hread ⊢
      exact readCommands_writeJoined hforms hsplit size hchunks hread hbound
    | false =>
      rw [keptOf_kept hleft] at hchunks hread ⊢
      obtain ⟨chunk, others, hchunk, hothers, rfl⟩ := forall₂_cons_left_iff.mp hchunks
      obtain ⟨bound, rfl⟩ : ∃ n, bound = n + 1 := ⟨bound - 1, by simp at hbound; omega⟩
      have hp := hread _ mem_cons_self
      have hlength := length_writeJoined hsplit hp.arguments.length_eq hchunk
      obtain ⟨r, hr, hfirst⟩ := readCommand_writeJoined hforms hsplit hp hchunk
        ⟨size, start.offset, (chunk :: others).flatten⟩ others.flatten rfl flatten_cons
      obtain ⟨rs, c', hrs, hrest⟩ := readCommands_writeJoined hforms hsplit size hothers
        (forall_mem_cons.mp hread).2 (Nat.le_of_succ_le_succ hbound)
      refine ⟨r :: rs, c', ?_, Forall₂.cons hfirst hrest⟩
      -- A command has a head, so the reader does not stop here.
      have hfull : ¬(chunk :: others).flatten.isEmpty = true := by
        have hpositive := length_writeJoined_pos hchunk
        rw [flatten_cons, isEmpty_iff_length_eq_zero, length_append]
        omega
      have hafter : (start.after version c data).offset = start.offset + chunk.length := by
        rw [hlength, Place.after, hleft]
        rfl
      rw [hafter] at hrs
      show (if (chunk :: others).flatten.isEmpty = true then (pure [] : Reader _) else do
        let command ← readCommand _
        return command :: (← readCommands _ bound)) _ = _
      rw [if_neg hfull]
      show EStateM.bind _ _ _ = _
      rw [EStateM.bind, hr]
      show EStateM.bind _ _ _ = _
      rw [EStateM.bind, hrs]
      rfl

/-! ## Commands and arguments in sections of their own -/

theorem quads_flatten : ∀ {chunks : List Bytes}, (∀ chunk ∈ chunks, chunk.length = 4) →
    quads chunks.flatten = chunks
  | [], _ => rfl
  | chunk :: chunks, h => by
    have hlength := h chunk mem_cons_self
    match chunk, hlength with
    | [a, b, c, d], _ =>
      rw [flatten_cons]
      show [a, b, c, d] :: quads chunks.flatten = _
      rw [quads_flatten (forall_mem_cons.mp h).2]

theorem length_flatten_quads : ∀ {chunks : List Bytes}, (∀ chunk ∈ chunks, chunk.length = 4) →
    chunks.flatten.length = chunks.length * 4
  | [], _ => rfl
  | chunk :: chunks, h => by
    rw [flatten_cons, length_append, h chunk mem_cons_self,
      length_flatten_quads (forall_mem_cons.mp h).2, length_cons]
    omega

/-- The record of a command without its arguments. -/
def Placed.writeRecord (p : Placed) : Except Fault Bytes :=
  putRecord [(1, p.command.code), (1, (p.command.arguments.length : Int)),
    (2, p.command.parameters)]

/-- The line of a command, as new versions write it. -/
def Placed.writeLine (p : Placed) : Except Fault Bytes := putRecord [(4, p.command.line)]

theorem length_eq_four_of_putRecord {fields : Placed → List (Nat × Int)}
    (hfields : ∀ p, ((fields p).map Prod.fst).sum = 4)
    (h : Forall₂ (fun p b => putRecord (fields p) = .ok b) kept chunks) :
    ∀ chunk ∈ chunks, chunk.length = 4 := by
  induction h with
  | nil => simp
  | cons hhead _ ih =>
    intro chunk hchunk
    rcases mem_cons.mp hchunk with rfl | hchunk
    · rw [length_putRecord hhead, hfields]
    · exact ih chunk hchunk

theorem length_writeArguments_mod (hsplit : isSplit version = true)
    (hlength : ∀ p ∈ kept, p.command.arguments.length = p.spans.length)
    (h : Forall₂ (fun (p : Placed) b => p.writeArguments version places = .ok b) kept chunks) :
    chunks.flatten.length % 12 = 0 := by
  induction h with
  | nil => rfl
  | cons hchunk _ ih =>
    rename_i p chunk kept chunks _
    have hsizes : p.command.arguments.map (Argument.size version)
        = p.command.arguments.map fun _ => 12 := by
      refine map_congr_left fun a _ => ?_
      unfold Argument.size
      split
      · rw [if_pos hsplit]
      · rfl
    have hrest := ih (forall_mem_cons.mp hlength).2
    rw [flatten_cons, length_append,
      length_writeArguments (hlength p mem_cons_self) hchunk, hsizes, total_eq_sum,
      map_const', sum_replicate_nat]
    omega

/-- Commands in sections of their own are read back, one after the other. -/
theorem takes_readSplitCommands (hforms : HasForms table) (hsplit : isSplit version = true) :
    ∀ {items : List (Command × List (List Piece))} {start : Place}
      {records lines chunks : List Bytes},
      Forall₂ (fun (p : Placed) b => p.writeRecord = .ok b)
        (keptOf version (placeFrom version start items)) records →
      Forall₂ (fun (p : Placed) b => p.writeLine = .ok b)
        (keptOf version (placeFrom version start items)) lines →
      Forall₂ (fun (p : Placed) b => p.writeArguments version places = .ok b)
        (keptOf version (placeFrom version start items)) chunks →
      (∀ p ∈ keptOf version (placeFrom version start items), p.Readable table codec expressions) →
      ∃ rs, Takes (readSplitCommands
          ⟨table.code, version, codec, codec, expressions.toArray⟩ (4 * start.index)
          (records.zip lines)) chunks.flatten rs ∧
        Forall₂ (Placed.ReadAs table version places)
          (keptOf version (placeFrom version start items)) rs
  | [], start, _, _, _, hrecords, _, hchunks, _ => by
    cases hrecords
    cases hchunks
    exact ⟨[], takes_pure [], Forall₂.nil⟩
  -- The three sections lose one record each, unless the command is left out of all.
  | (c, data) :: rest, start, _, _, _, hrecords, hlines, hchunks, hread => by
    cases hleft : c.presence.isLeftOut version with
    | true =>
      rw [keptOf_leftOut hleft] at hrecords hlines hchunks hread ⊢
      exact takes_readSplitCommands hforms hsplit hrecords hlines hchunks hread
    | false =>
      rw [keptOf_kept hleft] at hrecords hlines hchunks hread ⊢
      obtain ⟨record, _, hrecord, hrecords', rfl⟩ := forall₂_cons_left_iff.mp hrecords
      obtain ⟨line, _, hline, hlines', rfl⟩ := forall₂_cons_left_iff.mp hlines
      obtain ⟨chunk, _, hchunk, hchunks', rfl⟩ := forall₂_cons_left_iff.mp hchunks
      have hcode : (record.field 0 1 : Int) = c.code := field_putRecord hrecord 0 rfl
      have hcount : (record.field 1 1 : Int) = c.arguments.length := field_putRecord hrecord 1 rfl
      have hparameters : (record.field 2 2 : Int) = c.parameters := field_putRecord hrecord 2 rfl
      have hnumber : (line.toNat : Int) = c.line := by
        have hfield : (line.field 0 4 : Int) = c.line := field_putRecord hline 0 rfl
        have hlength : line.length = 4 := length_putRecord hline
        rw [← hfield, Bytes.field, drop_zero, ← hlength, take_length]
      obtain ⟨as, htakes, hlength, has⟩ := takes_writeArguments hforms
        (hread _ mem_cons_self) hcode.symm hchunk
      obtain ⟨rs, hrest, hrs⟩ := takes_readSplitCommands hforms hsplit hrecords' hlines' hchunks'
        (forall_mem_cons.mp hread).2
      have hafter : 4 * (start.after version c data).index = 4 * start.index + 4 := by
        rw [Place.after, hleft]
        rfl
      rw [hafter] at hrest
      refine ⟨⟨(4 * start.index : Nat), line.toNat, record.field 0 1, as, record.field 2 2⟩ :: rs,
        ?_,
        Forall₂.cons ⟨?_, hnumber, hcode, ?_, hlength, has⟩ hrs⟩
      · rw [zip_cons_cons, readSplitCommands, flatten_cons]
        refine takes_bind (a := as) ?_ (takes_map _ hrest)
        rw [show record.field 1 1 = c.arguments.length by omega]
        exact htakes
      · rw [hsplit]
        rfl
      · rw [hsplit]
        exact hparameters

end

end Draft

end NovelScript