import NovelScript.Proofs.Compile.Symbols
import NovelScript.Proofs.Link.Renumbering

/-!
# Linking scripts

The compiler tells for every symbol where its number stands in the expression section, and the
linker writes numbers there. The result is the expression section of the draft with these numbers
(`writeLinks_expressionBytes`): wherever the two sections differ there is a number of a symbol, all
such places are told, and what is written there is what stands in the new section. So nothing else
of a script is changed by linking it.
-/

namespace NovelScript

open List

variable {links : List Project.Link} {shown : Option Int} {codec : Codec} {count : Nat}
  {commands : List Draft.Command} {a a' : Assembly} {check : Instr → Except Fault Unit} {p : Placed}
  {x : Draft.Argument} {s : Span}
variable {version : Int} {numbers : Nat → Nat}

/-! ## Writing numbers -/

namespace Project

/-- A place of a section holds a number. -/
def StandsAt (data : Bytes) (place : Nat × Nat) : Prop :=
  data[place.1]? = some (UInt8.ofNat (place.2 % 256)) ∧
    data[place.1 + 1]? = some (UInt8.ofNat (place.2 / 256))

/-- A number that fits is written inside the data. -/
theorem writeNumber_ok {data : Bytes} {offset number : Nat} (hnumber : number < 0x10000)
    (hoffset : offset + 1 < data.length) :
    writeNumber data.toArray offset number =
      .ok ((data.set offset (UInt8.ofNat (number % 256))).set (offset + 1)
        (UInt8.ofNat (number / 256))).toArray := by
  have hsize : offset + 2 ≤ data.length := hoffset
  simp [writeNumber, require, hnumber, hsize]

/-- Numbers written one by one make the target, if each stands there. -/
theorem foldlM_writeNumber {target : Bytes} : ∀ {places : List (Nat × Nat)} {data : Bytes},
    (∀ x ∈ places, x.2 < 0x10000 ∧ StandsAt target x) → data.length = target.length →
    (∀ k, data[k]? ≠ target[k]? → ∃ x ∈ places, k = x.1 ∨ k = x.1 + 1) →
    places.foldlM (fun d (o, n) => writeNumber d o n) data.toArray = .ok target.toArray
  | [], data, _, _, hcover => by
    have heq : data = target := by
      refine ext_getElem? fun k => ?_
      by_contra hne
      obtain ⟨x, hx, -⟩ := hcover k hne
      cases hx
    rw [heq]
    rfl
  | (o, n) :: rest, data, hplaces, hlength, hcover => by
    obtain ⟨hn, hlow, hhigh⟩ := hplaces (o, n) mem_cons_self
    have ho : o + 1 < data.length := by
      rw [hlength]
      exact (List.getElem?_eq_some_iff.mp hhigh).1
    rw [foldlM_cons]
    dsimp only
    rw [writeNumber_ok hn ho, ok_bind]
    refine foldlM_writeNumber (forall_mem_cons.mp hplaces).2 (by simpa) ?_
    intro k hk
    -- the two bytes that were written agree now, so the difference is one of before
    have hne : k ≠ o ∧ k ≠ o + 1 := by
      constructor
      · rintro rfl
        refine hk ?_
        rw [getElem?_set_ne (by omega), getElem?_set_self (by omega)]
        exact hlow.symm
      · rintro rfl
        refine hk ?_
        rw [getElem?_set_self (by simpa)]
        exact hhigh.symm
    rw [getElem?_set_ne (by omega), getElem?_set_ne (by omega)] at hk
    obtain ⟨x, hx, hkx⟩ := hcover k hk
    rcases mem_cons.mp hx with rfl | hx
    · omega
    · exact ⟨x, hx, hkx⟩

end Project

/-! ## Where numbers stand -/

namespace Draft

variable {numbers : Nat → Nat} {version : Int}
variable {o : Nat} {p : Piece} {shown : Option Int} {codec : Codec}
  {check : Instr → Except Fault Unit} {commands : List Command} {a : Assembly} {pieces : List Piece}
  (data : List (List Piece)) (placed : List Placed)

theorem mem_piecesFrom : ∀ {pieces : List Piece} {offset : Nat},
    (o, p) ∈ piecesFrom offset pieces →
      ∃ before after, pieces = before ++ p :: after ∧ o = offset + pieceSize before
  | [], _, h => by cases h
  | q :: rest, offset, h => by
    rcases mem_cons.mp h with heq | h
    · cases heq
      exact ⟨[], rest, rfl, rfl⟩
    · obtain ⟨before, after, rfl, rfl⟩ := mem_piecesFrom h
      refine ⟨q :: before, after, rfl, ?_⟩
      simp [pieceSize, Nat.add_assoc]

/-- Pieces follow each other. -/
theorem piecesFrom_append (xs ys : List Piece) (offset : Nat) :
    piecesFrom offset (xs ++ ys) =
      piecesFrom offset xs ++ piecesFrom (offset + pieceSize xs) ys := by
  induction xs generalizing offset with
  | nil => rfl
  | cons x xs ih => simp [piecesFrom, ih, pieceSize, Nat.add_assoc]

/-- The pieces of placed commands. -/
def piecesOf (placed : List Placed) : List Piece := placed.flatMap fun p => p.data.flatten

theorem piecesOf_cons (p : Placed) (rest : List Placed) :
    piecesOf (p :: rest) = p.data.flatten ++ piecesOf rest := rfl

theorem pieceBytes_flatten : pieceBytes data.flatten = data.flatMap pieceBytes := by
  induction data with
  | nil => rfl
  | cons pieces rest ih =>
    rw [flatten_cons, flatMap_cons, ← ih, pieceBytes, flatMap_append]
    rfl

theorem piecesOf_relocate :
    piecesOf (placed.map (Placed.relocate numbers)) =
      (piecesOf placed).map (Piece.relocate numbers) := by
  simp [piecesOf, Placed.relocate, flatMap_map, map_flatMap, map_flatten]

theorem expressionBytes_eq : expressionBytes placed = pieceBytes (piecesOf placed) := by
  induction placed with
  | nil => rfl
  | cons p rest ih =>
    rw [piecesOf_cons, pieceBytes, flatMap_append, expressionBytes, flatMap_cons]
    exact congrArg₂ (· ++ ·) (pieceBytes_flatten p.data).symm ih

theorem flatMap_spansFrom (offset : Nat) :
    ((data.zip (spansFrom offset data)).flatMap fun (pieces, span) =>
      piecesFrom span.offset pieces) = piecesFrom offset data.flatten := by
  induction data generalizing offset with
  | nil => rfl
  | cons pieces rest ih =>
    rw [spansFrom, zip_cons_cons, flatMap_cons, ih, flatten_cons, piecesFrom_append]

theorem flatMap_placeFrom : ∀ {items : List (Command × List (List Piece))} (start : Place),
    Skips version items →
    ((placeFrom version start items).flatMap fun p =>
        (p.data.zip p.spans).flatMap fun (pieces, span) => piecesFrom span.offset pieces) =
      piecesFrom start.expressions (piecesOf (placeFrom version start items))
  | [], _, _ => rfl
  | (c, data) :: rest, start, hskips => by
    have hrest : Skips version rest := (forall_mem_cons.mp hskips).2
    rw [placeFrom, flatMap_cons, flatMap_placeFrom _ hrest, piecesOf_cons, piecesFrom_append,
      expressions_after (hskips _ mem_cons_self), ← pieceBytes_flatten, length_pieceBytes]
    exact congrArg (· ++ _) (flatMap_spansFrom data start.expressions)

/-- The instructions of an assembly are those of its pieces, at their offsets. -/
theorem mem_instructions (h : assemble version shown codec check commands = .ok a) {size : Nat}
    {i : Instr} :
    (o, size, i) ∈ a.instructions ↔ ∃ p, (o, p) ∈ piecesFrom 0 (piecesOf a.placed) ∧
      p.instruction = some i ∧ size = p.bytes.length := by
  obtain ⟨data, hdata, hplaced, -⟩ := assemble_eq_ok.mp h
  have hpieces := flatMap_placeFrom {} (skips_of_encoded hdata)
  rw [← hplaced] at hpieces
  rw [Assembly.instructions, hpieces, mem_filterMap]
  constructor
  · rintro ⟨⟨o', p⟩, hp, heq⟩
    obtain ⟨j, hj, heq⟩ := Option.map_eq_some_iff.mp heq
    cases heq
    exact ⟨p, hp, hj, rfl⟩
  · rintro ⟨p, hp, hi, rfl⟩
    exact ⟨(o, p), hp, by simp [hi]⟩

/-- The number of a symbol stands somewhere in pieces that start at an offset. -/
def IsPlace (numbers : Nat → Nat) (offset : Nat) (pieces : List Piece) (place : Nat × Nat) : Prop :=
  ∃ o p kind mark number, (o, p) ∈ piecesFrom offset pieces ∧
    p.instruction = some (.access kind mark number) ∧ (firstUserNumber : Int) ≤ number ∧
    place = (o + numberOffset, numbers (number - firstUserNumber).toNat)

theorem getElem?_relocate_ne {k : Nat} (h : p.bytes[k]? ≠ (p.relocate numbers).bytes[k]?) :
    (∃ kind mark number, p.instruction = some (.access kind mark number) ∧
      (firstUserNumber : Int) ≤ number) ∧ (k = 4 ∨ k = 5) := by
  unfold Piece.relocate at h
  split at h
  · next i hi =>
    unfold Instr.relocateBytes at h
    split at h
    · next kind mark number =>
      split at h
      · exact absurd rfl h
      · next hsystem =>
        refine ⟨⟨kind, mark, number, hi, by omega⟩, ?_⟩
        by_contra hk
        rw [getElem?_set_ne (by omega), getElem?_set_ne (by omega)] at h
        exact h rfl
    · exact absurd rfl h
  · exact absurd rfl h

/-- Bytes that differ are those of a number that is linked. -/
theorem exists_isPlace_of_ne : ∀ {pieces : List Piece} (offset : Nat) {k : Nat},
    (pieceBytes pieces)[k]? ≠ (pieceBytes (pieces.map (Piece.relocate numbers)))[k]? →
      ∃ x, IsPlace numbers offset pieces x ∧ (offset + k = x.1 ∨ offset + k = x.1 + 1)
  | [], _, _, h => absurd rfl h
  | p :: rest, offset, k, h => by
    rw [pieceBytes, pieceBytes, map_cons, flatMap_cons, flatMap_cons] at h
    by_cases hk : k < p.bytes.length
    · rw [getElem?_append_left hk, getElem?_append_left (by simpa using hk)] at h
      obtain ⟨⟨kind, mark, number, hi, hnumber⟩, hplace⟩ := getElem?_relocate_ne h
      refine ⟨_, ⟨offset, p, kind, mark, number, mem_cons_self, hi, hnumber, rfl⟩, ?_⟩
      unfold numberOffset
      omega
    · rw [getElem?_append_right (by omega), getElem?_append_right (by simpa using hk),
        length_relocate_bytes] at h
      obtain ⟨x, ⟨o, q, kind, mark, number, hq, hi, hnumber, rfl⟩, hplace⟩ :=
        exists_isPlace_of_ne (offset + p.bytes.length) h
      refine ⟨_, ⟨o, q, kind, mark, number, mem_cons_of_mem _ hq, hi, hnumber, rfl⟩, ?_⟩
      omega

/-- A number that is linked stands in the relocated bytes. -/
theorem standsAt_of_isPlace {place : Nat × Nat}
    (hpieces : ∀ p ∈ pieces, ∀ i, p.instruction = some i → i.encode codec = .ok p.bytes)
    (h : IsPlace numbers 0 pieces place) :
    Project.StandsAt (pieceBytes (pieces.map (Piece.relocate numbers))) place := by
  obtain ⟨o, p, kind, mark, number, hp, hi, hnumber, rfl⟩ := h
  obtain ⟨before, after, rfl, rfl⟩ := mem_piecesFrom hp
  have hlength : p.bytes.length = 6 := by
    obtain ⟨-, hb⟩ := Instr.encode_access_eq_ok.mp (hpieces p (by simp) _ hi)
    simp [hb]
  -- Only the last two of the six bytes hold the number.
  have hbytes : (p.relocate numbers).bytes = (p.bytes.set 4 (UInt8.ofNat
      (numbers (number - firstUserNumber).toNat % 256))).set 5 (UInt8.ofNat
      (numbers (number - firstUserNumber).toNat / 256)) := by
    rw [Piece.relocate, hi]
    exact if_neg (by omega)
  have hsection : pieceBytes ((before ++ p :: after).map (Piece.relocate numbers)) =
      pieceBytes (before.map (Piece.relocate numbers)) ++ ((p.relocate numbers).bytes ++
        pieceBytes (after.map (Piece.relocate numbers))) := by
    simp [pieceBytes]
  have hat : ∀ j < 6, (pieceBytes ((before ++ p :: after).map (Piece.relocate numbers)))[0 +
      pieceSize before + j]? = (p.relocate numbers).bytes[j]? := by
    intro j hj
    rw [hsection, getElem?_append_right (by simp),
      getElem?_append_left (by simp [hlength]; omega)]
    simp
  refine ⟨?_, ?_⟩
  · show _ = _
    rw [show numberOffset = 4 from rfl, hat 4 (by omega), hbytes,
      getElem?_set_ne (by omega), getElem?_set_self (by omega)]
  · show _ = _
    rw [show numberOffset = 4 from rfl, Nat.add_assoc, hat 5 (by omega), hbytes,
      getElem?_set_self (by simp [hlength])]

theorem sound_of_pieces {data : Data} (h : data.pieces codec check = .ok pieces) :
    ∀ p ∈ pieces, ∀ i, p.instruction = some i →
      i.encode codec = .ok p.bytes ∧ check i = .ok () := by
  intro p hp i hi
  cases data with
  | code code =>
    obtain ⟨j, -, hj, hcheck, hinstruction⟩ := exists_of_mem_forall₂_right (pieces_code_eq_ok h) hp
    rw [hinstruction] at hi
    cases hi
    exact ⟨hj, hcheck⟩
  | text w =>
    obtain ⟨bytes, -, h⟩ := of_bind h
    cases h
    rw [mem_singleton.mp hp] at hi
    cases hi
  | bytes b =>
    cases h
    rw [mem_singleton.mp hp] at hi
    cases hi
  | _ =>
    cases h
    cases hp

theorem sound_of_assemble (h : assemble version shown codec check commands = .ok a) :
    ∀ p ∈ piecesOf a.placed, ∀ i, p.instruction = some i →
      i.encode codec = .ok p.bytes ∧ check i = .ok () := by
  intro p hp
  obtain ⟨placed, hplaced, hp⟩ := mem_flatMap.mp hp
  obtain ⟨pieces, hpieces, hp⟩ := mem_flatten.mp hp
  have hencoded := (encoded_of_assemble h hplaced).2
  unfold Command.encoded at hencoded
  split at hencoded
  · rw [← Except.ok.inj hencoded] at hpieces
    cases hpieces
  · obtain ⟨x, -, hx⟩ := exists_of_mem_forall₂_right (mapM_eq_ok.mp hencoded) hpieces
    exact sound_of_pieces hx p hp

end Draft

/-! ## Linking -/

/-- The number that the links of a script give to a symbol. -/
def Project.numberOf (links : List Project.Link) (s : Nat) : Nat :=
  (links[s]?.map Project.Link.number).getD 0

theorem Project.numberOf_lt (h : ∀ l ∈ links, l.number < 0x10000) (s : Nat) :
    Project.numberOf links s < 0x10000 := by
  unfold Project.numberOf
  cases hs : links[s]? with
  | none => simp
  | some l => exact h l (mem_of_getElem? hs)

/-- A link as it is written: one without places has no number. -/
def Project.Link.used (l : Project.Link) : Project.Link :=
  if l.offsets = [] then { l with number := 0 } else l

theorem Project.Link.offsets_used (l : Project.Link) : l.used.offsets = l.offsets := by
  unfold used
  split <;> rfl

theorem Project.writeLinks_used (data : Bytes) (links : List Project.Link) :
    Project.writeLinks data (links.map Link.used) = Project.writeLinks data links := by
  have hplaces : ((links.map Link.used).flatMap fun l => l.offsets.map fun o => (o, l.number)) =
      links.flatMap fun l => l.offsets.map fun o => (o, l.number) := by
    rw [flatMap_map]
    refine flatMap_congr fun l _ => ?_
    unfold Link.used
    split
    · next hnone => simp [hnone]
    · rfl
  rw [writeLinks, writeLinks, hplaces]

theorem Project.number_lt_of_foldlM : ∀ {places : List (Nat × Nat)} {data out : Array UInt8},
    places.foldlM (fun d (o, n) => Project.writeNumber d o n) data = .ok out →
      ∀ x ∈ places, x.2 < 0x10000
  | [], _, _, _ => fun x hx => absurd hx not_mem_nil
  | (o, n) :: rest, data, out, h => by
    obtain ⟨data', hfirst, hrest⟩ := of_bind h
    obtain ⟨_, hnumber, -⟩ := of_bind hfirst
    rw [require_eq_ok, decide_eq_true_eq] at hnumber
    exact forall_mem_cons.mpr ⟨hnumber, number_lt_of_foldlM hrest⟩

theorem Project.number_lt_of_writeLinks {data out : Bytes}
    (h : Project.writeLinks data links = .ok out) :
    ∀ l ∈ links.map Link.used, l.number < 0x10000 := by
  obtain ⟨written, hwritten, -⟩ := of_bind h
  refine forall_mem_map.mpr fun l hl => ?_
  unfold Link.used
  split
  · exact Nat.zero_lt_succ _
  · next hplaces =>
    obtain ⟨o, ho⟩ := exists_mem_of_ne_nil _ hplaces
    exact number_lt_of_foldlM hwritten (o, l.number)
      (mem_flatMap.mpr ⟨l, hl, mem_map_of_mem ho⟩)

open Draft

section

variable (h : assemble version shown codec (checkSymbol count) commands = .ok a)
  (hlinks : links.map Project.Link.offsets = (symbolUses count a.instructions).toList)
include h hlinks

/-- The links of a script name exactly the places of its numbers. -/
theorem isPlace_iff_mem_links {place : Nat × Nat} :
    IsPlace (Project.numberOf links) 0 (piecesOf a.placed) place ↔
      ∃ l ∈ links, place.1 ∈ l.offsets ∧ place.2 = l.number := by
  have hat (s : Nat) : links[s]?.map Project.Link.offsets =
      (symbolUses count a.instructions)[s]? := by
    rw [← getElem?_map, hlinks, Array.getElem?_toList]
  constructor
  · rintro ⟨o, p, kind, mark, number, hp, hi, hnumber, rfl⟩
    obtain ⟨before, after, hpieces, -⟩ := mem_piecesFrom hp
    have hcheck := (sound_of_assemble h p (by rw [hpieces]; simp) _ hi).2
    simp only [checkSymbol, require_eq_ok, decide_eq_true_eq] at hcheck
    -- Below the first user number stand the variables of the system, which are not linked.
    obtain ⟨s, rfl⟩ : ∃ s : Nat, number = firstUserNumber + s :=
      ⟨(number - firstUserNumber).toNat, by omega⟩
    have hs : s < count := by omega
    have hget := (hat s).trans (getElem?_symbolUses hs a.instructions)
    obtain ⟨l, hl, hoffsets⟩ := Option.map_eq_some_iff.mp hget
    refine ⟨l, mem_of_getElem? hl, ?_, ?_⟩
    · rw [hoffsets]
      exact mem_filterMap.mpr ⟨_, (mem_instructions h).mpr ⟨p, hp, hi, rfl⟩,
        useOf?_eq_some.mpr ⟨⟨kind, mark, rfl⟩, rfl⟩⟩
    · show Project.numberOf links ((firstUserNumber : Int) + s - firstUserNumber).toNat = _
      rw [show ((firstUserNumber : Int) + s - firstUserNumber).toNat = s by omega,
        Project.numberOf, hl]
      rfl
  · rintro ⟨l, hl, ho, hn⟩
    obtain ⟨s, hs⟩ := mem_iff_getElem?.mp hl
    have hget := (hat s).symm
    rw [hs, Option.map_some] at hget
    have hcount : s < count := by
      rw [← size_symbolUses count a.instructions]
      exact (Array.getElem?_eq_some_iff.mp hget).1
    rw [getElem?_symbolUses hcount, Option.some.injEq] at hget
    rw [← hget] at ho
    obtain ⟨⟨offset, size, i⟩, hmem, huse⟩ := mem_filterMap.mp ho
    obtain ⟨⟨kind, mark, rfl⟩, hplace⟩ := useOf?_eq_some.mp huse
    obtain ⟨p, hp, hi, -⟩ := (mem_instructions h).mp hmem
    refine ⟨offset, p, kind, mark, _, hp, hi, by omega, Prod.ext hplace ?_⟩
    show place.2 = Project.numberOf links ((firstUserNumber : Int) + s - firstUserNumber).toNat
    rw [show ((firstUserNumber : Int) + s - firstUserNumber).toNat = s by omega,
      Project.numberOf, hs]
    exact hn

/-- **To link a script is to give its draft the numbers of the variables.** -/
theorem writeLinks_expressionBytes (hnumbers : ∀ l ∈ links, l.number < 0x10000) :
    Project.writeLinks (expressionBytes a.placed) links =
      .ok (expressionBytes (a.placed.map (Placed.relocate (Project.numberOf links)))) := by
  have hmem (place : Nat × Nat) :
      place ∈ (links.flatMap fun l => l.offsets.map fun o => (o, l.number)) ↔
        IsPlace (Project.numberOf links) 0 (piecesOf a.placed) place := by
    rw [isPlace_iff_mem_links h hlinks]
    simp only [mem_flatMap, mem_map]
    constructor
    · rintro ⟨l, hl, o, ho, rfl⟩
      exact ⟨l, hl, ho, rfl⟩
    · rintro ⟨l, hl, ho, hn⟩
      exact ⟨l, hl, place.1, ho, Prod.ext rfl hn.symm⟩
  have hlength : (pieceBytes (piecesOf a.placed)).length = (pieceBytes ((piecesOf a.placed).map
      (Piece.relocate (Project.numberOf links)))).length := by
    rw [length_pieceBytes, length_pieceBytes, pieceSize_relocate]
  rw [expressionBytes_eq, expressionBytes_eq, piecesOf_relocate]
  refine bind_eq_ok.mpr ⟨_, Project.foldlM_writeNumber ?_ hlength ?_, rfl⟩
  · intro place hplace
    refine ⟨?_, standsAt_of_isPlace (fun p hp i hi => (sound_of_assemble h p hp i hi).1)
      ((hmem place).mp hplace)⟩
    obtain ⟨l, hl, hplace⟩ := mem_flatMap.mp hplace
    obtain ⟨o, -, rfl⟩ := mem_map.mp hplace
    exact hnumbers l hl
  · intro k hk
    obtain ⟨x, hx, hkx⟩ := exists_isPlace_of_ne 0 hk
    exact ⟨x, (hmem x).mpr hx, by omega⟩

/-- Where numbers have been written, each place has the number of its link. -/
theorem standsAt_of_writeLinks {expressions : Bytes}
    (hwrite : Project.writeLinks (expressionBytes a.placed) links = .ok expressions) :
    ∀ l ∈ links, ∀ o ∈ l.offsets, Project.StandsAt expressions (o, l.number) := by
  have hoffsets : (links.map Project.Link.used).map Project.Link.offsets =
      (symbolUses count a.instructions).toList := by
    rw [← hlinks, map_map]
    exact map_congr_left fun l _ => l.offsets_used
  have hsection := writeLinks_expressionBytes h hoffsets (Project.number_lt_of_writeLinks hwrite)
  rw [Project.writeLinks_used, hwrite] at hsection
  rw [Except.ok.inj hsection, expressionBytes_eq, piecesOf_relocate]
  intro l hl o ho
  refine standsAt_of_isPlace (fun p hp i hi => (sound_of_assemble h p hp i hi).1) ?_
  refine (isPlace_iff_mem_links h hoffsets).mpr ⟨l, mem_map.mpr ⟨l, hl, ?_⟩, ho, rfl⟩
  exact if_neg (ne_nil_of_mem ho)

omit hlinks in
theorem exists_expressions {f : Bytes → Except Fault Bytes} {segments : List Bytes}
    (hchange : Project.changeExpressions f a.segments = .ok segments) :
    ∃ expressions, f (expressionBytes a.placed) = .ok expressions ∧
      Project.changeExpressions (fun _ => .ok expressions) a.segments = .ok segments := by
  obtain ⟨data, -, -, hsections, -⟩ := assemble_eq_ok.mp h
  rw [Assembly.segments] at hchange ⊢
  rcases sectionsOf_relocate id hsections with ⟨cs, as, ls, hs, -⟩ | ⟨cs, hs, -⟩
  · rw [hs] at hchange ⊢
    obtain ⟨expressions, hf, hsegments⟩ := of_bind hchange
    exact ⟨expressions, hf, hsegments⟩
  · rw [hs] at hchange ⊢
    obtain ⟨expressions, hf, hsegments⟩ := of_bind hchange
    exact ⟨expressions, hf, hsegments⟩

end

/-! ## What linking leaves alone -/

/-- The bytes of a span. -/
def Draft.Span.slice (s : Span) (expressions : Bytes) : Bytes :=
  (expressions.drop s.offset).take s.size

/-- An expression section differs from that of a script in the numbers of symbols only: every
argument has the same instructions as before, with the numbers that symbols are given, and no other
byte is changed. -/
structure Draft.Assembly.Relocated (a : Assembly) (numbers : Nat → Nat) (expressions : Bytes) :
    Prop where
  length : expressions.length = (expressionBytes a.placed).length
  instructions : ∀ p ∈ a.placed, ∀ x s, (x, s) ∈ p.command.arguments.zip p.spans →
    ∀ code, x.data = .code code → ∀ codec, Instr.decodeAll codec (s.slice expressions) =
      (Instr.decodeAll codec (s.slice (expressionBytes a.placed))).map
        (List.map (Instr.relocate numbers))
  others : ∀ p ∈ a.placed, ∀ x s, (x, s) ∈ p.command.arguments.zip p.spans →
    (∀ code, x.data ≠ .code code) →
      s.slice expressions = s.slice (expressionBytes a.placed)
  bytes : ∀ k, expressions[k]? ≠ (expressionBytes a.placed)[k]? →
    ∃ offset size kind mark number, (offset, size, Instr.access kind mark number) ∈ a.instructions ∧
      (firstUserNumber : Int) ≤ number ∧
      (k = offset + numberOffset ∨ k = offset + numberOffset + 1)

theorem zip_spans_of_leftOut (h : assemble version shown codec check commands = .ok a)
    (hp : p ∈ a.placed) (hx : (x, s) ∈ p.command.arguments.zip p.spans) :
    p.command.presence.isLeftOut version = false := by
  by_contra hleft
  have hencoded := (encoded_of_assemble h hp).2
  rw [Command.encoded, if_pos (by simpa using hleft)] at hencoded
  rw [Placed.spans, ← Except.ok.inj hencoded, spansFrom, zip_nil_right] at hx
  cases hx

section

variable (hn : ∀ s, numbers s < 0x10000) (h : assemble version shown codec check commands = .ok a)
  (h' : assemble version shown codec (fun _ => .ok ()) (commands.map (Command.relocate numbers)) =
    .ok a')
  (hplaced : a'.placed = a.placed.map (Placed.relocate numbers))
include hn h h' hplaced

/-- Relocated arguments keep their spans. -/
theorem slices_of_relocate (hp : p ∈ a.placed) (hx : (x, s) ∈ p.command.arguments.zip p.spans) :
    ∃ pieces, x.data.pieces codec check = .ok pieces ∧
      (x.data.relocate numbers).pieces codec (fun _ => .ok ()) =
        .ok (pieces.map (Piece.relocate numbers)) ∧
      s.slice (expressionBytes a.placed) = pieceBytes pieces ∧
      s.slice (expressionBytes a'.placed) = pieceBytes (pieces.map (Piece.relocate numbers)) := by
  have hkept := zip_spans_of_leftOut h hp hx
  obtain ⟨pieces, hpieces, -, hslice⟩ := (forall₂_iff_zip.mp (slices_of_assemble h hp hkept)).2 hx
  have hp' : p.relocate numbers ∈ a'.placed := by
    rw [hplaced]
    exact mem_map_of_mem hp
  have hx' : (x.relocate numbers, s) ∈
      (p.relocate numbers).command.arguments.zip (p.relocate numbers).spans := by
    rw [Placed.spans_relocate, Placed.relocate, Command.relocate, zip_map_left]
    exact mem_map.mpr ⟨(x, s), hx, rfl⟩
  obtain ⟨pieces', hpieces', -, hslice'⟩ := (forall₂_iff_zip.mp
    (slices_of_assemble h' hp' hkept)).2 hx'
  have hrelocated := pieces_relocate hn hpieces
  cases hpieces'.symm.trans hrelocated
  exact ⟨pieces, hpieces, hrelocated, hslice, hslice'⟩

/-- The relocated draft has the relocated bytes. -/
theorem relocated_of_assemble :
    a.Relocated numbers (expressionBytes a'.placed) where
  length := by rw [hplaced, length_expressionBytes_relocate]
  instructions p hp x s hx code hcode codec' := by
    obtain ⟨pieces, hpieces, hpieces', hslice, hslice'⟩ :=
      slices_of_relocate hn h h' hplaced hp hx
    rw [hcode] at hpieces hpieces'
    rw [hslice, hslice', decodeAll_pieceBytes codec' hpieces, decodeAll_pieceBytes codec' hpieces',
      mapM_reread_relocate]
  others p hp x s hx hother := by
    obtain ⟨pieces, hpieces, hpieces', hslice, hslice'⟩ :=
      slices_of_relocate hn h h' hplaced hp hx
    -- data that is no code is encoded without a look at the check or the numbers
    have hsame : (x.data.relocate numbers).pieces codec (fun _ => .ok ()) =
        x.data.pieces codec check := by
      cases hdata : x.data with
      | code code => exact absurd hdata (hother code)
      | _ => rfl
    rw [hsame, hpieces] at hpieces'
    rw [hslice, hslice', ← Except.ok.inj hpieces']
  bytes k hk := by
    rw [hplaced, expressionBytes_eq, expressionBytes_eq, piecesOf_relocate] at hk
    obtain ⟨x, ⟨o, p, kind, mark, number, hp, hi, hnumber, rfl⟩, hkx⟩ :=
      exists_isPlace_of_ne 0 (Ne.symm hk)
    exact ⟨o, _, kind, mark, number, (mem_instructions h).mpr ⟨p, hp, hi, rfl⟩, hnumber, by omega⟩

end

/-- **Linking changes the numbers of symbols and nothing else.** No instruction of a script names a
symbol that is not in the symbol list; and whatever numbers of sixteen bits the symbols are given,
to write them at the places of the symbols gives a script that differs in these numbers only. -/
theorem relocated_of_writeLinks {options : CompileOptions} {vocabulary : Vocabulary}
    {source : List Stmt} (hv : vocabulary.SystemFirst) :
    (∀ commands p, Compiling.statements (options.context vocabulary) {} source
        { codec := options.codec } = .ok (commands, p) →
      ∀ command ∈ commands, ∀ x ∈ command.arguments,
        x.data.Accepted (checkSymbol p.names.symbols.reverse.length)) ∧
    ∀ compiled, compileScript options vocabulary source = .ok compiled →
      ∀ links : List Project.Link,
        links.map Project.Link.offsets = compiled.symbols.map SymbolUse.offsets →
        (∀ l ∈ links, l.number < 0x10000) →
        ∃ commands p a expressions segments,
          CompilesTo options vocabulary source commands p a compiled ∧
          Project.changeExpressions (Project.writeLinks · links) compiled.segments =
            .ok segments ∧
          Project.changeExpressions (fun _ => .ok expressions) compiled.segments = .ok segments ∧
          a.Relocated (Project.numberOf links) expressions := by
  refine ⟨fun commands p h => ?_, fun compiled hcompiled links hlinks hnumbers => ?_⟩
  · rw [List.length_reverse]
    exact accepted_of_statements hv h
  · obtain ⟨commands, p, a, h⟩ := compilesTo_of_compileScript hcompiled
    have hn := Project.numberOf_lt hnumbers
    -- The relocated draft is assembled to the same places.
    obtain ⟨a', hassembly, hplaced, hsegments⟩ := assemble_relocate hn h.assembly
    have hwrite := writeLinks_expressionBytes h.assembly (hlinks.trans h.offsets) hnumbers
    rw [← hplaced] at hwrite
    refine ⟨commands, p, a, expressionBytes a'.placed, a'.segments, h, ?_, ?_,
      relocated_of_assemble hn h.assembly hassembly hplaced⟩
    · rw [h.segments]
      exact hsegments _ hwrite
    · rw [h.segments]
      exact hsegments _ rfl

/-- Two commands and a variable of the system. -/
def sampleVocabulary : Vocabulary where
  commands := [⟨"INT", []⟩, ⟨"LET", []⟩]
  system := [("level", .int, 5)]

/-- A temporary variable is defined, and its value is given to the variable of the system. -/
def sampleSource : List Stmt :=
  [.assign 1 [.subscript (.name "INT") (.attribute (.name "x") "N")] (.int 7),
    .assign 2 [.attribute (.name "level") "N"] (.attribute (.name "x") "N")]

theorem relocated_of_writeLinks_sampleSource :
    ∃ compiled commands p a expressions segments,
      compileScript { version := 300, codec := Codec.ascii } sampleVocabulary sampleSource =
        .ok compiled ∧
      CompilesTo { version := 300, codec := Codec.ascii } sampleVocabulary sampleSource commands p a
        compiled ∧
      Project.changeExpressions (Project.writeLinks · [⟨[4, 20], 0x1234⟩]) compiled.segments =
        .ok segments ∧
      Project.changeExpressions (fun _ => .ok expressions) compiled.segments = .ok segments ∧
      a.Relocated (Project.numberOf [⟨[4, 20], 0x1234⟩]) expressions := by
  have hv : sampleVocabulary.SystemFirst := by
    intro name type number h
    rcases Names.lookup_cons_eq_some h with ⟨-, heq⟩ | h
    · cases heq
      decide
    · cases h
  have hoffsets : ((compileScript { version := 300, codec := Codec.ascii } sampleVocabulary
      sampleSource).map fun c => c.symbols.map SymbolUse.offsets).toOption = some [[4, 20]] := by
    decide +kernel
  obtain ⟨compiled, hcompiled, hoffsets⟩ := exists_ok_of_map hoffsets
  obtain ⟨commands, p, a, expressions, segments, h⟩ := (relocated_of_writeLinks hv).2 compiled
    hcompiled [⟨[4, 20], 0x1234⟩] hoffsets.symm (by simp)
  exact ⟨compiled, commands, p, a, expressions, segments, hcompiled, h⟩

end NovelScript
