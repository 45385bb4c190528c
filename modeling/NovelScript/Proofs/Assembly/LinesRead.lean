import NovelScript.Proofs.Assembly.Parts
import NovelScript.Proofs.Assembly.RoundTrip
import NovelScript.Proofs.Table.Reading

/-!
# The lines that are read

The reader of a script takes a command by the sizes of what stands in it. Where lines have a section
of their own, the header tells its size, and the lines are those of the parts that the script is
made of. Where they are joined to the commands, the reader comes to each line only if the arguments
of the commands before it are as long as it takes them to be: twelve bytes each, but for the command
with the short argument (`Part.InStep`). No text has to be decoded for this.
-/

namespace NovelScript

open List Reader

/-! ## How many bytes are read for arguments -/

namespace Script

/-- How many bytes the arguments of a command take, as the reader tells from the code. -/
def argumentsSize (version : Int) (short code count : Nat) : Nat :=
  if code = short then if version < 300 then if version = 290 then 8 else 4 else 12 else 12 * count

variable {codes : CommandCodes} {ctx : Context} {code count : Nat} {l : List Shape}

/-- Every argument of a command has a shape. -/
theorem length_shapes (h : shapes codes code count = .ok l) : l.length = count := by
  have hcount {n : Nat} {shapes : List Shape}
      (h : (do
        require (count == n) Condition.argumentCount
        return shapes : Except Fault _) = .ok l)
      (hn : shapes.length = n) : l.length = count := by
    obtain ⟨_, hcount, h⟩ := of_bind h
    cases h
    rw [hn, eq_of_beq (require_eq_ok.mp hcount)]
  obtain ⟨_, -, h⟩ := of_bind h
  extract_lets chosen at h
  -- The names are looked up in turn; each branch tells a number of arguments.
  have hchosen : ∃ branches, chosen branches = .ok l := by
    split at h
    · exact ⟨true, h⟩
    · obtain ⟨_, -, h⟩ := of_bind h
      exact ⟨_, h⟩
  obtain ⟨branches, h⟩ := hchosen
  dsimp only [chosen] at h
  split at h
  case isTrue hthree =>
    cases h
    exact (eq_of_beq (Bool.and_eq_true_iff.mp hthree).2).symm
  obtain ⟨_, -, h⟩ := of_bind h
  split at h
  · exact hcount h rfl
  obtain ⟨_, -, h⟩ := of_bind h
  split at h
  · exact hcount h rfl
  obtain ⟨_, -, h⟩ := of_bind h
  split at h
  · exact hcount h rfl
  · cases h
    exact length_replicate

theorem sound_readArgument (codec textCodec : Codec) (expressions : Array UInt8) (shape : Shape) :
    Sound (readArgument codec textCodec expressions shape) fun bytes _ => bytes.length = 12 := by
  refine (sound_bind (sound_take 12) fun _ => sound_bind (sound_ofExcept _) fun _ =>
    sound_bind (sound_ofExcept _) fun _ => sound_map _ (sound_ofExcept _)).imp ?_
  rintro bytes _ ⟨_, record, _, rfl, ⟨hrecord, -⟩, _, _, _, rfl, ⟨rfl, -⟩, _, _, _, rfl, ⟨rfl, -⟩,
    _, -, rfl, -⟩
  simpa using hrecord

/-- The short argument is longer in one version. -/
theorem sound_readShortArgument (version : Int) :
    Sound (readShortArgument version) fun bytes _ =>
      bytes.length = if version = 290 then 8 else 4 := by
  by_cases hversion : version = 290
  · simp only [readShortArgument, if_pos hversion]
    refine (sound_bind (sound_take 4) fun _ => sound_bind (sound_unsigned 4) fun _ =>
      sound_bind (sound_ofExcept _) fun _ => sound_map _ (sound_ofExcept _)).imp ?_
    rintro bytes _ ⟨_, record, _, rfl, ⟨hrecord, -⟩, _, size, _, rfl, ⟨hsize, -⟩, _, _, _, rfl,
      ⟨rfl, -⟩, _, -, rfl, -⟩
    simp [hrecord, hsize]
  · simp only [readShortArgument, if_neg hversion]
    refine (sound_bind (sound_take 4) fun _ => sound_bind (sound_ofExcept _) fun _ =>
      sound_map _ (sound_ofExcept _)).imp ?_
    rintro bytes _ ⟨_, record, _, rfl, ⟨hrecord, -⟩, _, _, _, rfl, ⟨rfl, -⟩, _, -, rfl, -⟩
    simp [hrecord]

theorem sound_mapM {α β : Type} {f : β → Reader α} {n : Nat}
    (hf : ∀ b, Sound (f b) fun bytes _ => bytes.length = n) (items : List β) :
    Sound (items.mapM f) fun bytes _ => bytes.length = n * items.length := by
  induction items with
  | nil =>
    refine (sound_pure []).imp ?_
    rintro bytes _ ⟨rfl, -⟩
    rfl
  | cons b rest ih =>
    rw [mapM_cons]
    refine (sound_bind (hf b) fun _ => sound_map _ ih).imp ?_
    rintro bytes _ ⟨_, first, second, rfl, hfirst, _, -, hsecond⟩
    rw [length_append, hfirst, hsecond, length_cons, Nat.mul_succ, Nat.add_comm]

/-- The arguments of a command take as many bytes as its code tells, and the command with the short
argument has one argument. -/
theorem sound_readArguments (ctx : Context) (code count : Nat) :
    Sound (readArguments ctx code count) fun bytes _ => ∃ short,
      ctx.codes "RETURNCODE" = .ok short ∧ (code = short → count = 1) ∧
        bytes.length = argumentsSize ctx.version short code count := by
  -- Whatever code the short argument has.
  have hrest (short : Nat) : Sound (if code = short then do
      require (count == 1) Condition.argumentCount
      if ctx.version < 300 then return [← readShortArgument ctx.version]
      else return [← readArgument ctx.codec ctx.textCodec ctx.expressions .jump]
    else do
      let shapes ← Reader.ofExcept (shapes ctx.codes code count)
      shapes.mapM (readArgument ctx.codec ctx.textCodec ctx.expressions))
      fun bytes _ => (code = short → count = 1) ∧
        bytes.length = argumentsSize ctx.version short code count := by
    unfold argumentsSize
    split
    · split
      · refine (sound_bind (sound_require _ _) fun _ =>
          sound_map _ (sound_readShortArgument _)).imp ?_
        rintro _ _ ⟨_, _, _, rfl, ⟨rfl, hcount⟩, _, -, hlength⟩
        exact ⟨fun _ => eq_of_beq hcount, hlength⟩
      · refine (sound_bind (sound_require _ _) fun _ =>
          sound_map _ (sound_readArgument _ _ _ _)).imp ?_
        rintro _ _ ⟨_, _, _, rfl, ⟨rfl, hcount⟩, _, -, hlength⟩
        exact ⟨fun _ => eq_of_beq hcount, hlength⟩
    · next hcode =>
      refine (sound_bind (sound_ofExcept _) fun l =>
        sound_mapM (sound_readArgument _ _ _) l).imp ?_
      rintro _ _ ⟨l, _, _, rfl, ⟨rfl, hl⟩, hlength⟩
      rw [← length_shapes hl]
      exact ⟨fun h => absurd h hcode, hlength⟩
  refine (sound_bind (sound_ofExcept _) hrest).imp ?_
  rintro _ _ ⟨short, _, _, rfl, ⟨rfl, hshort⟩, hlength⟩
  exact ⟨short, hshort, hlength⟩

end Script

/-! ## Commands -/

open Script (Context argumentsSize readCommand readCommands readSplitCommands)

/-- The arguments of a part are as long as the reader takes them to be, if it takes any. -/
def Draft.Part.InStep (ctx : Context) (x : Draft.Part) : Prop :=
  ∀ short, ctx.codes "RETURNCODE" = .ok short → (x.code = short → x.argumentCount = 1) →
    x.arguments.flatten.length = argumentsSize ctx.version short x.code x.argumentCount

variable {version : Int} {ctx : Context} {parts : List Draft.Part} {rs : List Command}

/-- A part has a head, so it is never empty. -/
theorem Draft.Part.length_command_pos (hsplit : Draft.isSplit version = false) {x : Draft.Part}
    (h : x.Formed version) : 0 < (x.command version).length := by
  have hhead := h.head
  rw [Draft.Part.command, hsplit]
  simp only [Bool.false_eq_true, if_false, length_append]
  omega

/-- A command is read with the line of its part, and nothing behind the part is taken. -/
theorem line_of_readCommand (hsplit : Draft.isSplit version = false) {x : Draft.Part}
    (hformed : x.Formed version) (hstep : x.InStep ctx) {c c' : Cursor} {r : Command} {rest : Bytes}
    (hc : c.rest = x.command version ++ rest) (h : readCommand ctx c = .ok r c') :
    r.line = x.lineNumber ∧ c'.rest = rest := by
  obtain ⟨_, _, hget, h⟩ := runBind_eq_ok.mp h
  cases hget
  obtain ⟨record, c₁, htake, h⟩ := runBind_eq_ok.mp h
  obtain ⟨arguments, c₂, harguments, h⟩ := runBind_eq_ok.mp h
  cases h
  obtain ⟨_, hrecord, -, hlength, rfl⟩ := sound_take 6 c record c₁ htake
  obtain ⟨taken, htaken, -, short, hshort, hone, hsize⟩ :=
    Script.sound_readArguments _ _ _ c₁ arguments c' harguments
  have hhead : (x.head ++ x.line).length = record.length := by
    rw [length_append, hformed.head, hformed.line, hlength]
  rw [Draft.Part.command, hsplit, if_neg (by simp), append_assoc, hrecord] at hc
  obtain ⟨rfl, hrest⟩ := append_inj hc hhead.symm
  have hcode : (x.head ++ x.line).field 0 1 = x.code :=
    Bytes.field_append_left x.line (by rw [hformed.head]; decide)
  have hcount : (x.head ++ x.line).field 1 1 = x.argumentCount :=
    Bytes.field_append_left x.line (by rw [hformed.head])
  have hline : (x.head ++ x.line).field 2 4 = x.lineNumber := by
    rw [Bytes.field_append _ _ (by rw [hformed.head]), hformed.head]
    rfl
  rw [hcode, hcount] at hsize hone
  rw [← hstep short hshort hone] at hsize
  exact ⟨congrArg _ hline, (append_inj (htaken.symm.trans hrest) hsize).2⟩

/-- A run of the reader over parts that are in step comes to the line of each of them. -/
theorem lines_of_readCommands (hsplit : Draft.isSplit version = false)
    (hformed : ∀ x ∈ parts, x.Formed version) (hstep : ∀ x ∈ parts, x.InStep ctx) {bound : Nat}
    (hbound : parts.length ≤ bound) {c c' : Cursor}
    (hc : c.rest = parts.flatMap (Draft.Part.command version))
    (h : readCommands ctx bound c = .ok rs c') :
    rs.map Command.line = parts.map fun x => (x.lineNumber : Int) := by
  -- The bound is never reached: each part gives the reader one command.
  induction parts generalizing bound c rs with
  | nil =>
    cases bound with
    | zero =>
      cases h
      rfl
    | succ bound =>
      obtain ⟨_, _, hget, h⟩ := runBind_eq_ok.mp h
      cases hget
      rw [hc, if_pos (show (flatMap _ []).isEmpty = true from rfl)] at h
      cases h
      rfl
  | cons x rest ih =>
    cases bound with
    | zero => exact absurd hbound (by simp)
    | succ bound =>
      obtain ⟨_, _, hget, h⟩ := runBind_eq_ok.mp h
      cases hget
      have hfull : ¬c.rest.isEmpty = true := by
        have hpositive := Draft.Part.length_command_pos hsplit (hformed x mem_cons_self)
        rw [hc, flatMap_cons, isEmpty_iff_length_eq_zero, length_append]
        omega
      rw [if_neg hfull] at h
      obtain ⟨r, c₁, hfirst, h⟩ := runBind_eq_ok.mp h
      obtain ⟨others, c₂, hothers, h⟩ := runBind_eq_ok.mp h
      cases h
      obtain ⟨hline, hrest⟩ := line_of_readCommand hsplit (hformed x mem_cons_self)
        (hstep x mem_cons_self) (hc.trans flatMap_cons) hfirst
      rw [map_cons, map_cons, hline, ih (fun y hy => hformed y (mem_cons_of_mem _ hy))
        (fun y hy => hstep y (mem_cons_of_mem _ hy)) (Nat.le_of_succ_le_succ hbound) hrest
        hothers]

/-- Lines are read from their own section. -/
theorem lines_of_readSplitCommands {offset : Nat} {records : List (Bytes × Bytes)} {c c' : Cursor}
    (h : readSplitCommands ctx offset records c = .ok rs c') :
    rs.map Command.line = records.map fun x => (x.2.toNat : Int) := by
  induction records generalizing offset c rs with
  | nil =>
    cases h
    rfl
  | cons record rest ih =>
    obtain ⟨arguments, c₁, -, h⟩ := runBind_eq_ok.mp h
    obtain ⟨others, c₂, hothers, h⟩ := runBind_eq_ok.mp h
    cases h
    rw [map_cons, map_cons, ih hothers]

/-! ## Files -/

theorem runOn_eq_ok {α : Type} {r : Reader α} {bytes : Bytes} {a : α}
    (h : r.runOn bytes = .ok a) : ∃ c', r (Cursor.start bytes) = .ok a c' := by
  unfold runOn at h
  split at h
  · next c' hrun => exact ⟨c', by rw [hrun, Except.ok.inj h]⟩
  · cases h

section

variable {head key linked : Bytes} {shown : Int} {count : Nat} {make : Bytes → Context}

/-- The lines of a script whose commands are joined to them. -/
theorem lines_of_readJoined (hsplit : Draft.isSplit version = false)
    (hhead : Draft.header shown count (Draft.Part.sections version parts) = .ok head)
    (hformed : ∀ x ∈ parts, x.Formed version)
    (hstep : ∀ bytes, ∀ x ∈ parts, x.InStep (make bytes))
    (h : Script.readJoined head (([parts.flatMap (Draft.Part.command version), linked].map
      (Bytes.cyclicXor key)).flatten) key make = .ok rs) :
    rs.map Command.line = parts.map fun x => (x.lineNumber : Int) := by
  rw [Draft.Part.sections, hsplit, if_neg (by simp)] at hhead
  have hlength : head.field 8 4 = (parts.flatMap (Draft.Part.command version)).length :=
    (Draft.isHeader_of_header hhead).field_eq 1 (by decide) rfl
  obtain ⟨_, -, h⟩ := of_bind h
  obtain ⟨_, -, h⟩ := of_bind h
  rw [map_cons, flatten_cons, hlength,
    Draft.splitSection_bind _ (Bytes.length_cyclicXor _ _)] at h
  obtain ⟨⟨second, _⟩, -, h⟩ := of_bind h
  obtain ⟨c', hrun⟩ := runOn_eq_ok h
  rw [Bytes.cyclicXor_cyclicXor] at hrun
  refine lines_of_readCommands hsplit hformed (hstep _) ?_ rfl hrun
  rw [flatMap_def, ← length_map (Draft.Part.command version)]
  exact length_le_length_flatten
    (forall_mem_map.mpr fun x hx => Draft.Part.length_command_pos hsplit (hformed x hx))

/-- The lines of a script that has a section for them. -/
theorem lines_of_readSplit (hsplit : Draft.isSplit version = true)
    (hhead : Draft.header shown count (Draft.Part.sections version parts) = .ok head)
    (hformed : ∀ x ∈ parts, x.Formed version)
    (hlinked : linked.length = (parts.flatMap Draft.Part.expressions).length)
    (h : Script.readSplit head (([parts.flatMap (Draft.Part.command version),
      parts.flatMap fun x => x.arguments.flatten, linked, parts.flatMap Draft.Part.line].map
        (Bytes.cyclicXor key)).flatten) key make = .ok rs) :
    rs.map Command.line = parts.map fun x => (x.lineNumber : Int) := by
  rw [Draft.Part.sections, if_pos hsplit] at hhead
  have hheader := Draft.isHeader_of_header hhead
  have hcommands : head.field 12 4 = _ := hheader.field_eq 2 (by decide) rfl
  have harguments : head.field 16 4 = _ := hheader.field_eq 3 (by decide) rfl
  have hexpressions : head.field 20 4 = _ := hheader.field_eq 4 (by decide) rfl
  have hlines : head.field 24 4 = _ := hheader.field_eq 5 (by decide) rfl
  obtain ⟨_, -, h⟩ := of_bind h
  obtain ⟨_, -, h⟩ := of_bind h
  obtain ⟨_, -, h⟩ := of_bind h
  simp only [map_cons, map_nil, flatten_cons] at h
  -- Hiding keeps lengths, so the sections are cut where the header says.
  rw [hcommands, Draft.splitSection_bind _ (Bytes.length_cyclicXor _ _), harguments,
    Draft.splitSection_bind _ (Bytes.length_cyclicXor _ _), hexpressions,
    Draft.splitSection_bind _ ((Bytes.length_cyclicXor _ _).trans hlinked), hlines,
    Draft.splitSection_bind _ (Bytes.length_cyclicXor _ _), noting_eq_ok] at h
  obtain ⟨c', hrun⟩ := runOn_eq_ok h
  have hquads {f : Draft.Part → Bytes} (hf : ∀ x ∈ parts, (f x).length = 4) :
      Script.quads (parts.flatMap f) = parts.map f := by
    rw [flatMap_def, Draft.quads_flatten (by simpa using hf)]
  have hrecord (x : Draft.Part) (hx : x ∈ parts) : (x.command version).length = 4 := by
    have hparameters := (hformed x hx).parameters
    rw [hsplit, if_pos rfl] at hparameters
    rw [Draft.Part.command, if_pos hsplit, length_append, (hformed x hx).head, hparameters]
  simp only [Bytes.cyclicXor_cyclicXor] at hrun
  rw [hquads hrecord, hquads fun x hx => (hformed x hx).line] at hrun
  have hnumber (x : Draft.Part) (hx : x ∈ parts) : x.line.toNat = x.lineNumber := by
    rw [Draft.Part.lineNumber, Bytes.field, drop_zero,
      take_of_length_le (Nat.le_of_eq (hformed x hx).line)]
  have hsecond : ((parts.map (Draft.Part.command version)).zip (parts.map Draft.Part.line)).map
      Prod.snd = parts.map Draft.Part.line :=
    map_snd_zip (by simp)
  rw [lines_of_readSplitCommands hrun,
    ← Function.comp_def (fun bytes : Bytes => (bytes.toNat : Int)), ← map_map, hsecond, map_map]
  exact map_congr_left fun x hx => congrArg _ (hnumber x hx)

/-- The commands of a script are read by the layout of its version. -/
theorem commands_of_read {codes : CommandCodes} {options : Script.ReadOptions} {script : Script}
    {rest : Bytes} (hhead : head.length = 32) (hkey : Script.keyBytes script.key = .ok key)
    (h : Script.read codes options (head ++ rest) = .ok script) :
    ∃ make : Bytes → Context,
      (∀ bytes, (make bytes).codes = codes ∧ (make bytes).version = script.version) ∧
      (if script.version < 300 then Script.readJoined head rest key make
        else Script.readSplit head rest key make) = .ok script.commands := by
  obtain ⟨_, -, h⟩ := of_bind h
  rw [splitAt_eq, take_left' hhead, drop_left' hhead] at h
  obtain ⟨_, -, h⟩ := of_bind h
  obtain ⟨_, -, h⟩ := of_bind h
  obtain ⟨bytes, hbytes, h⟩ := of_bind h
  extract_lets make result at h
  refine ⟨make, ?_⟩
  split at h
  case isTrue hversion =>
    obtain ⟨commands, hcommands, h⟩ := of_bind h
    cases h
    cases hbytes.symm.trans hkey
    exact ⟨fun _ => ⟨rfl, rfl⟩, (if_pos hversion).trans hcommands⟩
  case isFalse hversion =>
    obtain ⟨commands, hcommands, h⟩ := of_bind h
    cases h
    cases hbytes.symm.trans hkey
    exact ⟨fun _ => ⟨rfl, rfl⟩, (if_neg hversion).trans hcommands⟩

end

end NovelScript
