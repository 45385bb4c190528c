import NovelScript.Proofs.Assembly.RoundTrip
import NovelScript.Proofs.Compile.Symbols
import NovelScript.Proofs.Decompile.Commands
import NovelScript.Proofs.Decompile.Restored

/-!
# Compiled scripts can be read back

A reader tells the arguments of a command apart by its code, so a command can be read back if its
arguments have the form that its code asks for. The commands of a plain script have
(`CompiledStatements.plainly`), and they keep it when variables get their numbers. Their texts and
literals are decoded to what they were, if the codec keeps each of them (`Codec.Keeps`).
-/

namespace NovelScript

open List

variable {keywords : List (Option String × Expr)}
  {places : List (Option String × Option Draft.Argument)}

/-! ## Texts that codecs keep -/

/-- A codec gives a text back if it has bytes for it at all. -/
def Codec.Keeps (codec : Codec) (w : Wording) : Prop :=
  ∀ bytes, codec.encodeWording w = .ok bytes → codec.decode bytes = .ok w.shown

/-- The text of an instruction that is a literal. -/
def Instr.wording? : Instr → Option Wording
  | .text literal => some literal
  | _ => none

namespace Draft

variable {codec : Codec} {check : Instr → Except Fault Unit} {data : Data} {table : CommandTable}
  {version : Int} {commands : List Command} {a : Assembly}

/-- The texts in the data of an argument: a text of its own, or the literals of an expression. -/
def Data.texts : Data → List Wording
  | .code instructions => instructions.filterMap Instr.wording?
  | .text w => [w]
  | _ => []

/-- No instruction is a literal that is not decoded. -/
def Data.Decoded (data : Data) : Prop :=
  ∀ code, data = .code code → ∀ i ∈ code, ∀ b, i ≠ .raw b

/-- Data is read as it was written if its texts are kept. -/
theorem rereads_of_pieces {pieces : List Piece} (hdata : data.Decoded)
    (htexts : ∀ w ∈ data.texts, codec.Keeps w) (h : data.pieces codec check = .ok pieces) :
    data.Rereads codec := by
  cases data with
  | code instructions =>
    intro i hi
    obtain ⟨piece, -, hencode, -⟩ := exists_of_mem_forall₂_right (pieces_code_eq_ok h).flip hi
    cases i with
    | text literal =>
      obtain ⟨bytes, hbytes, -⟩ := of_bind hencode
      have hkept := htexts literal (mem_filterMap.mpr ⟨_, hi, rfl⟩) bytes hbytes
      obtain ⟨s, rfl, -⟩ := Codec.encodeWording_eq_ok hbytes
      rw [Wording.shown_ofString] at hkept
      rw [Instr.reread, hbytes, ok_bind, hkept]
      rfl
    | raw b => exact absurd rfl (hdata instructions rfl _ hi b)
    | _ => rfl
  | text w => exact htexts w (mem_singleton.mpr rfl)
  | _ => trivial

/-- Numbers of variables are no texts. -/
theorem Data.texts_relocate (numbers : Nat → Nat) : (data.relocate numbers).texts = data.texts := by
  cases data with
  | code instructions =>
    show (instructions.map (Instr.relocate numbers)).filterMap _ = _
    rw [filterMap_map]
    refine filterMap_congr fun i _ => ?_
    cases i <;> rfl
  | _ => rfl

/-! ## Regular commands -/

/-- A command that takes part in the script, whose arguments have the form that its code asks for,
or a label. -/
structure Command.Regular (table : CommandTable) (c : Command) : Prop where
  presence : c.presence = .kept ∨ c.presence = .label ∧ c.arguments = []
  formed : c.presence = .kept →
    ∃ shapes, Formed table c.code (c.arguments.map Argument.data) shapes
  inRange : ∀ a ∈ c.arguments, a.InRange
  decoded : ∀ a ∈ c.arguments, a.data.Decoded

theorem isTarget_relocate (h : data.IsTarget) (numbers : Nat → Nat) :
    (data.relocate numbers).IsTarget := by
  unfold Data.IsTarget at h
  split at h <;> trivial

theorem formed_relocate {code : Int} {data : List Data} {shapes : List Script.Shape}
    (h : Formed table code data shapes) (numbers : Nat → Nat) :
    Formed table code (data.map (Data.relocate numbers)) shapes := by
  cases h with
  | condition hcode hnext hclose =>
    exact .condition hcode (isTarget_relocate hnext numbers) (isTarget_relocate hclose numbers)
  | otherwise hcode => exact .otherwise hcode
  | loop hcode hclose => exact .loop hcode (isTarget_relocate hclose numbers)
  | word hcode => exact .word hcode
  | returnCode hcode => exact .returnCode hcode
  | @other n codes hcode =>
    have hother : Formed table n ((codes.map (List.map (Instr.relocate numbers))).map .code) _ :=
      .other hcode
    rw [map_map, map_map] at hother
    rw [map_map]
    exact hother

theorem Data.Decoded.relocate (h : data.Decoded) (numbers : Nat → Nat) :
    (data.relocate numbers).Decoded := by
  intro code hcode i hi b heq
  cases data with
  | code instructions =>
    cases hcode
    obtain ⟨j, hj, rfl⟩ := mem_map.mp hi
    cases j with
    | raw b' => exact h instructions rfl _ hj b' rfl
    | _ => cases heq
  | _ => cases hcode

/-- Linking keeps commands regular. -/
theorem Command.Regular.relocate {c : Command} (h : c.Regular table) (numbers : Nat → Nat) :
    (c.relocate numbers).Regular table where
  presence := h.presence.imp_right fun hlabel =>
    ⟨hlabel.1, by rw [Command.relocate, hlabel.2]; rfl⟩
  formed hkept := by
    obtain ⟨shapes, hformed⟩ := h.formed hkept
    refine ⟨shapes, ?_⟩
    have hdata : (c.relocate numbers).arguments.map Argument.data =
        (c.arguments.map Argument.data).map (Data.relocate numbers) := by
      rw [Command.relocate, map_map, map_map]
      rfl
    rw [hdata]
    exact formed_relocate hformed numbers
  inRange a ha := by
    obtain ⟨b, hb, rfl⟩ := mem_map.mp ha
    exact h.inRange b hb
  decoded a ha := by
    obtain ⟨b, hb, rfl⟩ := mem_map.mp ha
    exact (h.decoded b hb).relocate numbers

theorem spelled_of_assemble (h : assemble version none codec check commands = .ok a)
    (hcommands : ∀ c ∈ commands, c.Regular table) :
    ∀ c ∈ commands, ∀ x ∈ c.arguments, ∀ w, x.data = .text w → Wording.ofString w.shown = w := by
  intro c hc x hx w hw
  obtain ⟨data, hdata, -⟩ := assemble_eq_ok.mp h
  obtain ⟨encoded, -, hencoded⟩ := exists_of_mem_forall₂_right hdata.flip hc
  have hkept : c.presence = .kept := (hcommands c hc).presence.resolve_right fun hlabel => by
    rw [hlabel.2] at hx
    cases hx
  rw [Command.encoded, hkept, Presence.isLeftOut, if_neg (by simp), mapM_eq_ok] at hencoded
  obtain ⟨pieces, -, hpieces⟩ := exists_of_mem_forall₂_right hencoded.flip hx
  rw [hw] at hpieces
  obtain ⟨bytes, hbytes, -⟩ := of_bind hpieces
  obtain ⟨s, rfl, -⟩ := Codec.encodeWording_eq_ok hbytes
  rw [Wording.shown_ofString]

/-- **Regular commands can be read back** where they are assembled, if their texts are kept. -/
theorem readable_of_regular (h : assemble version none codec check commands = .ok a)
    (hcommands : ∀ c ∈ commands, c.Regular table)
    (htexts : ∀ c ∈ commands, ∀ x ∈ c.arguments, ∀ w ∈ x.data.texts, codec.Keeps w) :
    ∀ p ∈ keptOf version a.placed, p.Readable table codec (expressionBytes a.placed) := by
  refine readable_of_rereads h (fun c hc => ?_) fun c hc x hx => ?_
  · obtain ⟨hmem, hkeep⟩ := mem_filter.mp hc
    have hregular := hcommands c hmem
    refine hregular.formed (hregular.presence.resolve_right fun hlabel => ?_)
    rw [hlabel.1] at hkeep
    cases hkeep
  · have hmem := (mem_filter.mp hc).1
    have hregular := hcommands c hmem
    exact ⟨hregular.inRange x hx,
      fun _ => rereads_of_pieces (hregular.decoded x hx) (htexts c hmem x hx)⟩

end Draft

/-! ## The commands of plain scripts -/

namespace Draft

/-- An argument is an expression without literals that are not decoded. -/
structure Argument.IsValue (a : Argument) : Prop where
  inRange : a.InRange
  code : ∃ code, a.data = .code code
  decoded : a.data.Decoded

theorem Data.decoded_of_ne_code {data : Data} (h : ∀ code, data ≠ .code code) : data.Decoded :=
  fun code hcode => absurd hcode (h code)

/-- An argument as it is unless something else is said of it. -/
theorem inRange_default (id : Int) (data : Data) : ({ id, data } : Argument).InRange :=
  ⟨⟨.unknown, rfl⟩, ⟨.set, rfl⟩⟩

/-- A command with values alone is regular. -/
theorem regular_of_values {table : CommandTable} {c : Command} {name : String} {n : Nat}
    (hn : table.code name = .ok n) (hname : name ∉ ["IF", "ELSE", "LOOP", "WORD", "RETURNCODE"])
    (hcode : c.code = n) (hkept : c.presence = .kept) (hvalues : ∀ a ∈ c.arguments, a.IsValue) :
    c.Regular table where
  presence := .inl hkept
  formed _ := by
    obtain ⟨codes, hcodes⟩ := exists_codes fun a ha => (hvalues a ha).code
    rw [hcode, hcodes]
    refine ⟨_, .other fun other hother hsame => ?_⟩
    obtain rfl := CommandTable.code_injective hn hsame
    exact hname hother
  inRange a ha := (hvalues a ha).inRange
  decoded a ha := (hvalues a ha).decoded

end Draft

variable {v : Vocabulary} {n n' : Names}

/-- An argument that was compiled is a value. -/
theorem Compiled.isValue {e : Expr} {coded : Coded} (h : Compiled v n e coded n')
    (assignment : Assignment) : (coded.argument assignment).IsValue where
  inRange := ⟨⟨coded.type, rfl⟩, ⟨assignment, rfl⟩⟩
  code := ⟨coded.code, rfl⟩
  decoded code hcode i hi b heq := by
    cases hcode
    have hknown := h.known i hi
    rw [heq] at hknown
    exact hknown

theorem CompiledArguments.isValue {given : List (Option String × Draft.Argument)}
    (h : CompiledArguments v n keywords given n') : ∀ g ∈ given, g.2.IsValue := by
  induction h with
  | nil => simp
  | cons h _ ih =>
    intro g hg
    rcases mem_cons.mp hg with rfl | hg
    · exact h.isValue .set
    · exact ih g hg

theorem CompiledPlaces.isValue (h : CompiledPlaces v n keywords places n') :
    ∀ k a, (k, some a) ∈ places → a.IsValue := by
  induction h with
  | nil => simp
  | left _ ih =>
    intro k a ha
    rcases mem_cons.mp ha with heq | ha
    · cases heq
    · exact ih k a ha
  | given _ h _ ih =>
    intro k a ha
    rcases mem_cons.mp ha with heq | ha
    · cases heq
      exact h.isValue .set
    · exact ih k a ha

theorem CompiledFills.isValue {body : List Stmt}
    {places' : List (Option String × Option Draft.Argument)}
    (h : CompiledFills v n places body places' n')
    (hplaces : ∀ k a, (k, some a) ∈ places → a.IsValue) :
    ∀ k a, (k, some a) ∈ places' → a.IsValue := by
  induction h with
  | nil => exact hplaces
  | cons _ h _ _ ih =>
    refine ih fun k a ha => ?_
    obtain ⟨⟨k', a'⟩, hmem, heq⟩ := mem_map.mp ha
    dsimp only at heq
    split at heq
    · cases heq
      exact h.isValue _
    · cases heq
      exact hplaces k a hmem

section

variable {c : CompileContext} {table : CommandTable} {p p₁ p' : Progress}
  {commands : List Draft.Command}
variable {command : Draft.Command} {name : String} {code line : Nat} {target test : Expr}
  {t : Coded} {n₁ : Names}

/-- Regular commands lead from one progress to another, and the codec stays. -/
structure Progress.Plainly (table : CommandTable) (p : Progress) (commands : List Draft.Command)
    (p' : Progress) : Prop where
  regular : ∀ command ∈ commands, command.Regular table
  codec : p'.codec = p.codec

/-- Plain parts make a plain whole. -/
theorem Progress.Plainly.append {first rest : List Draft.Command} (h : p.Plainly table first p₁)
    (h' : p₁.Plainly table rest p') : p.Plainly table (first ++ rest) p' where
  regular command hcommand :=
    (mem_append.mp hcommand).elim (h.regular command) (h'.regular command)
  codec := h'.codec.trans h.codec

theorem plainly_singleton (h : command.Regular table) (hcodec : p'.codec = p.codec) :
    p.Plainly table [command] p' :=
  ⟨fun _ hx => mem_singleton.mp hx ▸ h, hcodec⟩

/-- A command with one argument that is no code is regular, if the reader knows its form. -/
theorem regular_single {id : Int} {data : Draft.Data} {shapes : List Script.Shape}
    (harguments : command.arguments = [{ id, data }]) (hdata : ∀ code, data ≠ .code code)
    (hformed : Draft.Formed table command.code [data] shapes) (hkept : command.presence = .kept) :
    command.Regular table := by
  refine ⟨.inl hkept, fun _ => ⟨shapes, ?_⟩, ?_, ?_⟩
  · rw [harguments]
    exact hformed
  · rw [harguments]
    exact forall_mem_singleton.mpr (Draft.inRange_default id data)
  · rw [harguments]
    exact forall_mem_singleton.mpr (Draft.Data.decoded_of_ne_code hdata)

theorem isValue_pair {t w : Draft.Argument} (ht : t.IsValue) (hw : w.IsValue) :
    ∀ a ∈ [t, w], a.IsValue := by
  simp [ht, hw]

theorem regular_condition (hname : name = "IF" ∨ name = "ELSE") (hcode : table.code name = .ok code)
    (hcommand : command.code = code) (hkept : command.presence = .kept)
    (ht : Compiled v n test t n') {next close : Draft.Data} (hnext : next.IsTarget)
    (hclose : close.IsTarget)
    (harguments : command.arguments = [t.argument .set, { data := next }, { data := close }]) :
    command.Regular table := by
  have hdecoded {data : Draft.Data} (h : data.IsTarget) : data.Decoded := by
    intro code' hcode' i hi
    subst hcode'
    cases code' with
    | nil => cases hi
    | cons => cases h
  refine ⟨.inl hkept, fun _ => ?_, ?_, ?_⟩
  · rw [hcommand, harguments]
    refine ⟨_, .condition ?_ hnext hclose⟩
    rcases hname with rfl | rfl
    · exact .inl hcode
    · exact .inr hcode
  · rw [harguments]
    simp only [forall_mem_cons, not_mem_nil, false_implies, implies_true, and_true]
    exact ⟨(ht.isValue .set).inRange, Draft.inRange_default _ _, Draft.inRange_default _ _⟩
  · rw [harguments]
    simp only [forall_mem_cons, not_mem_nil, false_implies, implies_true, and_true]
    exact ⟨(ht.isValue .set).decoded, hdecoded hnext, hdecoded hclose⟩

variable (htable : table.commands = c.vocabulary.commands)
include htable

theorem CompileContext.HasCode.code_eq_ok
    (h : c.HasCode name code) : table.code name = .ok code := by
  obtain ⟨info, h⟩ := h
  exact (CommandTable.code_of_command? htable h).1

theorem plainly_keywordCommand (hname : isCallable name = true)
    {given : List (Option String × Draft.Argument)} (hgiven : ∀ g ∈ given, g.2.IsValue)
    (h : Compiling.keywordCommand c line name given p₁ = .ok (commands, p'))
    (hcodec : p₁.codec = p.codec) : p.Plainly table commands p' := by
  obtain ⟨info, code, arguments, parameters, hcode, harguments, rfl, rfl⟩ :=
    keywordCommand_eq_ok h
  have hother : name ∉ ["IF", "ELSE", "LOOP", "WORD", "RETURNCODE"] := fun hmem => by
    have hrole := Decompiler.forms_subset hmem
    simp only [isCallable, Bool.and_eq_true, Bool.not_eq_true', contains_eq_mem,
      decide_eq_false_iff_not] at hname
    exact hname.1 hrole
  refine plainly_singleton (Draft.regular_of_values (CommandTable.code_of_command? htable hcode).1
    hother rfl rfl fun a ha => ?_) hcodec
  obtain ⟨g, hg, keyword, id, -, -, rfl⟩ := exists_of_mem_forall₂_right harguments ha
  have hvalue := hgiven g hg
  exact ⟨hvalue.inRange, hvalue.code, hvalue.decoded⟩

theorem CompiledDefinition.plainly
    {value : Option Expr} (h : CompiledDefinition c p line name target value commands p') :
    p.Plainly table commands p' := by
  obtain ⟨hd, -, -, hdefined, ht, hw, hcode⟩ := h
  have hother : name ∉ ["IF", "ELSE", "LOOP", "WORD", "RETURNCODE"] :=
    fun hmem => Decompiler.notMem_of_ofName? hd (Decompiler.forms_subset hmem)
  refine plainly_singleton (Draft.regular_of_values (hcode.code_eq_ok htable) hother rfl rfl
    (isValue_pair (ht.isValue .set) (hw.isValue .set))) ?_
  cases hdefined <;> rfl

theorem CompiledStore.plainly {op : Option BinaryOp} {value : Expr}
    (h : CompiledStore c p line target op value commands p') : p.Plainly table commands p' := by
  obtain ⟨ht, -, hw, hcode⟩ := h
  exact plainly_singleton (Draft.regular_of_values (hcode.code_eq_ok htable) (by decide) rfl rfl
    (isValue_pair (ht.isValue _) (hw.isValue .set))) rfl

/-- A plain statement without blocks becomes regular commands. -/
theorem CompiledSimple.plainly {version : Int}
    {depth : Depth} {s : Stmt} (h : CompiledSimple c depth p s commands p')
    (hplain : s.isPlain version = true) : p.Plainly table commands p' := by
  cases h with
  | pass => exact ⟨by simp, rfl⟩
  | label => exact plainly_singleton ⟨.inr ⟨rfl, rfl⟩, nofun, nofun, nofun⟩ rfl
  | codec => cases hplain
  | word hcode =>
    exact plainly_singleton (regular_single rfl nofun (.word (hcode.code_eq_ok htable)) rfl) rfl
  | returnCode _ hcode =>
    exact plainly_singleton (regular_single rfl nofun (.returnCode (hcode.code_eq_ok htable)) rfl)
      rfl
  | evaluate he hcode =>
    refine plainly_singleton (Draft.regular_of_values (hcode.code_eq_ok htable) (by decide) rfl rfl
      fun a ha => ?_) rfl
    rw [mem_singleton.mp ha]
    exact he.isValue .set
  | @call _ name keywords _ _ _ _ hgiven hcommand =>
    have hparts : (isCallable name && keywords.all (keywordIsPlain version)) = true := hplain
    exact plainly_keywordCommand htable (Bool.and_eq_true_iff.mp hparts).1 hgiven.isValue hcommand
      rfl
  | @context _ name keywords bound body _ _ _ _ _ _ _ hplaces _ hfills hgiven hcommand =>
    have hcallable : isCallable name = true := by
      cases bound with
      | none =>
        have hparts : (isCallable name && keywords.all (keywordIsPlain version) &&
          body.all (Stmt.fillIsPlain version)) = true := hplain
        simp only [Bool.and_eq_true] at hparts
        exact hparts.1.1
      | some => cases hplain
    subst hgiven
    refine plainly_keywordCommand htable hcallable (fun g hg => ?_) hcommand rfl
    exact hfills.isValue hplaces.isValue g.1 g.2 (mem_map.mpr ⟨g, hg, rfl⟩)
  | define h | defineAs h | store _ h | augment h => exact h.plainly htable

theorem plainly_bare (hcode : c.HasCode name code)
    (hname : name ∉ ["IF", "ELSE", "LOOP", "WORD", "RETURNCODE"]) (p : Progress)
    (line : Option Nat) :
    p.Plainly table [p.command line code] (p.placed line) :=
  plainly_singleton (Draft.regular_of_values (hcode.code_eq_ok htable) hname rfl rfl
    fun _ ha => by cases ha) rfl

section

variable (ht : Compiled c.vocabulary p.names test t n₁)
include ht

theorem plainly_openChain (hcode : c.HasCode "IF" code) (next : Option Nat) (close : Nat) :
    p.Plainly table [Compiling.openChain (p.command (some line) code) t next close]
      ((p.named n₁).placed (some line)) := by
  refine plainly_singleton (regular_condition (.inl rfl) (hcode.code_eq_ok htable) rfl rfl ht ?_ ?_
    rfl) rfl
  · cases next <;> trivial
  · trivial

theorem plainly_continueChain (hcode : c.HasCode "ELSE" code) (next : Option Nat) :
    p.Plainly table [Compiling.continueChain (p.command none code) t next]
      ((p.named n₁).placed none) := by
  refine plainly_singleton (regular_condition (.inr rfl) (hcode.code_eq_ok htable) rfl rfl ht ?_ ?_
    rfl) rfl
  · cases next <;> trivial
  · trivial

theorem plainly_loop {close : Nat} (hcode : c.HasCode "LOOP" code) :
    p.Plainly table [p.command (some line) code [t.argument .set, { data := .jump close }]]
      ((p.named n₁).placed (some line)) := by
  refine plainly_singleton ⟨.inl rfl,
    fun _ => ⟨_, .loop (hcode.code_eq_ok htable) trivial⟩, ?_, ?_⟩ rfl
  · simp only [Progress.command, forall_mem_cons, not_mem_nil, false_implies,
      implies_true, and_true]
    exact ⟨(ht.isValue .set).inRange, Draft.inRange_default _ _⟩
  · simp only [Progress.command, forall_mem_cons, not_mem_nil, false_implies,
      implies_true, and_true]
    exact ⟨(ht.isValue .set).decoded, Draft.Data.decoded_of_ne_code fun _ h => by cases h⟩

end

theorem plainly_else (hcode : c.HasCode "ELSE" code) (p : Progress) :
    p.Plainly table [p.command none code] (p.placed none) :=
  plainly_singleton ⟨.inl rfl, fun _ => ⟨_, .otherwise (hcode.code_eq_ok htable)⟩, nofun, nofun⟩ rfl

omit htable

mutual

/-- So does any plain statement. -/
theorem CompiledStatement.plainly (htable : table.commands = c.vocabulary.commands)
    {version : Int} {depth : Depth} {s : Stmt} {commands : List Draft.Command} :
    ∀ {p p' : Progress}, CompiledStatement c depth p s commands p' → s.isPlain version = true →
      p.Plainly table commands p'
  | _, _, .simple h, hplain => h.plainly htable hplain
  | _, _, .branch htest hopen hbody hchain hclose, hplain => by
    rw [Stmt.isPlain, Bool.and_eq_true, Bool.and_eq_true] at hplain
    exact (((plainly_openChain htable htest hopen _ _).append
      (hbody.plainly htable hplain.1.2)).append (hchain.plainly htable hplain.2)).append
      (plainly_bare htable hclose (by decide) _ _)
  | _, _, .loop htest hopen hbody hclose, hplain => by
    rw [Stmt.isPlain, Bool.and_eq_true, Bool.and_eq_true] at hplain
    exact ((plainly_loop htable htest hopen).append (hbody.plainly htable hplain.1.2)).append
      (plainly_bare htable hclose (by decide) _ _)

/-- **The commands of a plain script are regular**, and its texts have one codec. -/
theorem CompiledStatements.plainly (htable : table.commands = c.vocabulary.commands)
    {version : Int} {depth : Depth} {body : List Stmt} {commands : List Draft.Command} :
    ∀ {p p' : Progress}, CompiledStatements c depth p body commands p' →
      allArePlain version body = true → p.Plainly table commands p'
  | _, _, .nil, _ => ⟨by simp, rfl⟩
  | _, _, .cons h hrest, hplain => by
    rw [allArePlain, Bool.and_eq_true] at hplain
    exact (h.plainly htable hplain.1).append (hrest.plainly htable hplain.2)

theorem CompiledChain.plainly (htable : table.commands = c.vocabulary.commands)
    {version : Int} {depth : Depth} {elseBody : List Stmt} {next : Option Nat}
    {commands : List Draft.Command} :
    ∀ {p p' : Progress}, CompiledChain c depth p elseBody next commands p' →
      allArePlain version elseBody = true → p.Plainly table commands p'
  | _, _, .nil, _ => ⟨by simp, rfl⟩
  | p, _, .elseIf hblend htest hcode hbody hchain, hplain => by
    rw [allArePlain, Bool.and_eq_true, Stmt.isPlain, Bool.and_eq_true, Bool.and_eq_true] at hplain
    have hhead := plainly_continueChain (p := p.placed none) htable htest hcode
    exact (((plainly_bare htable hblend (by decide) _ _).append (hhead _)).append
      (hbody.plainly htable hplain.1.1.2)).append (hchain.plainly htable hplain.1.2)
  | _, _, .otherwise _ hblend hcode hbody, hplain =>
    ((plainly_bare htable hblend (by decide) _ _).append (plainly_else htable hcode _)).append
      (hbody.plainly htable hplain)

end

end

end NovelScript
