import NovelScript.Compile.Assembly
import NovelScript.Proofs.Outcome
import NovelScript.Script.Read
import NovelScript.Table.Commands

/-!
# The form of commands

The reader of a script knows what an argument is only by the code of its command and by how many
arguments there are. A draft whose commands have the form that these tell (`Formed`) can be read
back, and `Placed.ReadAs` says as what.
-/

namespace NovelScript

open List

/-! ## Codes -/

namespace CommandTable

variable {table : CommandTable} {n : Nat}

/-- The command with a code has the name that it was found by. -/
theorem code_eq_ok {name : String} (h : table.code name = .ok n) :
    ∃ c, table.commands[n]? = some c ∧ c.name = name := by
  unfold code code? at h
  rw [orFault_eq_ok, Option.map_eq_some_iff] at h
  obtain ⟨⟨c, _⟩, hfind, rfl⟩ := h
  have hmem := mem_reverse.mp (mem_of_find?_eq_some hfind)
  have hname := find?_some hfind
  exact ⟨c, mem_zipIdx_iff_getElem?.mp hmem, by simpa using hname⟩

/-- No code has two names. -/
theorem code_injective {x y : String} (hx : table.code x = .ok n) (hy : table.code y = .ok n) :
    x = y := by
  obtain ⟨c, hc, rfl⟩ := code_eq_ok hx
  obtain ⟨c', hc', rfl⟩ := code_eq_ok hy
  rw [hc] at hc'
  cases hc'
  rfl

end CommandTable

/-! ## The form of a command -/

namespace Draft

variable {table : CommandTable} {data : List Data} {shapes : List Script.Shape} {m : Int} {n : Nat}

/-- What may stand in the place of a jump target. -/
def Data.IsTarget : Data → Prop
  | .jump _ | .none | .code [] => True
  | _ => False

/-- The data that a command of a code has, and how each argument is to be read. -/
inductive Formed (table : CommandTable) : Int → List Data → List Script.Shape → Prop where
  | condition {n : Nat} {test : List Instr} {next close : Data}
      (hcode : table.code "IF" = .ok n ∨ table.code "ELSE" = .ok n)
      (hnext : next.IsTarget) (hclose : close.IsTarget) :
      Formed table n [.code test, next, close] [.expression, .jump, .jump]
  | otherwise {n : Nat} (hcode : table.code "ELSE" = .ok n) : Formed table n [] []
  | loop {n : Nat} {test : List Instr} {close : Data} (hcode : table.code "LOOP" = .ok n)
      (hclose : close.IsTarget) : Formed table n [.code test, close] [.expression, .jump]
  | word {n : Nat} {content : Wording} (hcode : table.code "WORD" = .ok n) :
      Formed table n [.text content] [.text]
  | returnCode {n : Nat} {value : Int} (hcode : table.code "RETURNCODE" = .ok n) :
      Formed table n [.number value] [.jump]
  | other {n : Nat} {codes : List (List Instr)}
      (hcode : ∀ name ∈ ["IF", "ELSE", "LOOP", "WORD", "RETURNCODE"], table.code name ≠ .ok n) :
      Formed table n (codes.map .code) (codes.map fun _ => .expression)

/-- The table has the commands by which arguments are told apart. -/
def HasForms (table : CommandTable) : Prop :=
  ∀ name ∈ ["IF", "ELSE", "LOOP", "WORD", "RETURNCODE"], ∃ n, table.code name = .ok n

/-- The two numbers that are stored for an argument: the size and the place of its data, or the
parts of a jump target. -/
def Argument.location (version : Int) (places : Array Place) (a : Argument) (span : Span) :
    Int × Int :=
  match a.data with
  | .number n => (if isSplit version ∨ version = 290 then n else 0, 0)
  | .jump target =>
    let p := places.getD target {}
    ((if isSplit version then p.index else p.offset : Nat), p.expressions)
  | .none => (0, 0)
  | _ => (span.size, span.offset)

/-- What is read of the data of an argument, by its shape. -/
def Argument.content (shape : Script.Shape) (a : Argument) : ArgumentData :=
  match shape, a.data with
  | .expression, .code instructions => .code instructions
  | .text, .text w => .text w.shown
  | _, _ => .none

/-- An argument of a draft is read as an argument of a script. -/
structure Argument.ReadAs (version : Int) (places : Array Place) (shape : Script.Shape)
    (a : Argument) (span : Span) (r : NovelScript.Argument) : Prop where
  id : r.id = a.id
  type : (r.type.code : Int) = a.type
  assignment : (r.assignment.code : Int) = a.assignment
  location : (r.size, r.offset) = a.location version places span
  data : r.data = a.content shape

/-- A placed command of a draft is read as a command of a script. -/
structure Placed.ReadAs (table : CommandTable) (version : Int) (places : Array Place) (p : Placed)
    (r : NovelScript.Command) : Prop where
  offset : r.offset = (if isSplit version then 4 * p.place.index else p.place.offset : Nat)
  line : r.line = p.command.line
  code : r.code = p.command.code
  parameters : r.parameters = if isSplit version then p.command.parameters else 0
  count : r.arguments.length = p.command.arguments.length
  arguments : ∃ shapes, Formed table p.command.code (p.command.arguments.map Argument.data) shapes ∧
    Forall₂ (fun (x : Script.Shape × Argument × Span) r =>
      x.2.1.ReadAs version places x.1 x.2.2 r) (shapes.zip (p.command.arguments.zip p.spans))
      r.arguments

/-! ## Shapes -/

theorem length_of_formed {n : Int} (h : Formed table n data shapes) :
    data.length = shapes.length := by
  cases h <;> simp

/-- The reader tells the shapes of a formed command. -/
theorem shapes_of_formed (hforms : HasForms table) (h : Formed table m data shapes) (hm : m = n)
    (hcode : table.code "RETURNCODE" ≠ .ok n) :
    Script.shapes table.code n data.length = .ok shapes := by
  obtain ⟨i, hi⟩ := hforms "IF" (by simp)
  obtain ⟨e, he⟩ := hforms "ELSE" (by simp)
  obtain ⟨l, hl⟩ := hforms "LOOP" (by simp)
  obtain ⟨w, hw⟩ := hforms "WORD" (by simp)
  have hne : ∀ {x y : String} {a b : Nat}, table.code x = .ok a → table.code y = .ok b →
      x ≠ y → a ≠ b := fun hx hy hxy hab => hxy (CommandTable.code_injective hx (hab ▸ hy))
  have hei := hne he hi (by decide)
  have hle := hne hl he (by decide)
  have hli := hne hl hi (by decide)
  have hwi := hne hw hi (by decide)
  have hwe := hne hw he (by decide)
  have hwl := hne hw hl (by decide)
  unfold Script.shapes
  simp only [hi, he, hl, hw, ok_bind]
  cases h with
  | condition hc _ _ =>
    obtain rfl := Int.natCast_inj.mp hm
    rcases hc with hc | hc
    · cases hi.symm.trans hc
      simp
    · cases he.symm.trans hc
      simp [hei]
  | otherwise hc =>
    obtain rfl := Int.natCast_inj.mp hm
    cases he.symm.trans hc
    simp [hei, require]
  | loop hc _ =>
    obtain rfl := Int.natCast_inj.mp hm
    cases hl.symm.trans hc
    simp [hli, hle, require]
  | word hc =>
    obtain rfl := Int.natCast_inj.mp hm
    cases hw.symm.trans hc
    simp [hwi, hwe, hwl, require]
  | returnCode hc =>
    obtain rfl := Int.natCast_inj.mp hm
    exact absurd hc hcode
  | other hc =>
    obtain rfl := (Int.natCast_inj.mp hm).symm
    have hother : ∀ {name : String} {k : Nat}, table.code name = .ok k →
        name ∈ ["IF", "ELSE", "LOOP", "WORD", "RETURNCODE"] → n ≠ k :=
      fun hk hname hnk => hc _ hname (hnk ▸ hk)
    have h1 := hother hi (by simp)
    have h2 := hother he (by simp)
    have h3 := hother hl (by simp)
    have h4 := hother hw (by simp)
    simp [h1, h2, h3, h4, map_const']

/-- Data may be read by a shape. -/
def Data.HasShape : Data → Script.Shape → Prop
  | .code _, .expression => True
  | .text _, .text => True
  | .number _, .jump => True
  | data, .jump => data.IsTarget
  | _, _ => False

theorem hasShape_of_isTarget {data : Data} (h : data.IsTarget) : data.HasShape .jump := by
  cases data with
  | jump _ | none => trivial
  | code c => exact h
  | _ => exact h.elim

theorem ne_number_of_isTarget {data : Data} (h : data.IsTarget) (n : Int) : data ≠ .number n := by
  rintro rfl
  exact h

/-- The data of a well formed command has the shapes of its arguments, and a number only ends a
text. -/
theorem hasShape_of_formed (h : Formed table m data shapes) :
    Forall₂ (fun shape (d : Data) => d.HasShape shape ∧ ((∃ k, d = .number k) →
      ∃ n : Nat, m = n ∧ table.code "RETURNCODE" = .ok n)) shapes data := by
  have htarget : ∀ {d : Data}, d.IsTarget → d.HasShape .jump ∧ ((∃ k, d = .number k) →
      ∃ n : Nat, m = n ∧ table.code "RETURNCODE" = .ok n) := fun hd =>
    ⟨hasShape_of_isTarget hd, fun ⟨k, hk⟩ => absurd hk (ne_number_of_isTarget hd k)⟩
  have hcode : ∀ {code : List Instr}, (Data.code code).HasShape .expression ∧
      ((∃ k, Data.code code = .number k) → ∃ n : Nat, m = n ∧ table.code "RETURNCODE" = .ok n) :=
    ⟨trivial, fun ⟨k, hk⟩ => nomatch hk⟩
  cases h with
  | condition _ hnext hclose =>
    exact .cons hcode (.cons (htarget hnext) (.cons (htarget hclose) .nil))
  | otherwise => exact .nil
  | loop _ hclose => exact .cons hcode (.cons (htarget hclose) .nil)
  | word => exact .cons ⟨trivial, fun ⟨k, hk⟩ => nomatch hk⟩ .nil
  | returnCode hreturn => exact .cons ⟨trivial, fun _ => ⟨_, rfl, hreturn⟩⟩ .nil
  | other _ =>
    rw [forall₂_map_left_iff, forall₂_map_right_iff, forall₂_same]
    exact fun _ _ => hcode

/-- The command of a return code has a number alone. -/
theorem number_of_formed (h : Formed table m data shapes) (hm : m = n)
    (hcode : table.code "RETURNCODE" = .ok n) :
    ∃ value, data = [.number value] ∧ shapes = [.jump] := by
  have hother : ∀ {x : String}, table.code x = .ok n → x = "RETURNCODE" :=
    fun hx => CommandTable.code_injective hx hcode
  cases h with
  | condition hc _ _ =>
    obtain rfl := Int.natCast_inj.mp hm
    rcases hc with hc | hc <;> exact absurd (hother hc) (by decide)
  | otherwise hc | loop hc _ | word hc =>
    obtain rfl := Int.natCast_inj.mp hm
    exact absurd (hother hc) (by decide)
  | returnCode _ => exact ⟨_, rfl, rfl⟩
  | other hc =>
    obtain rfl := Int.natCast_inj.mp hm
    exact absurd hcode (hc "RETURNCODE" (by simp))

end Draft

end NovelScript
