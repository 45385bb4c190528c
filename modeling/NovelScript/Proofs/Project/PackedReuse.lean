import NovelScript.Project.Build
import NovelScript.Proofs.Bytes
import NovelScript.Proofs.Session

/-!
# When a packed script is used again

The linker keeps the packed form of a script, and uses it again for the same linked sections. The
file of a script also depends on its header, on where the sections end and on the key, and these are
not compared. What is kept after any number of calls is told by `LinkCall.keep`: a call leaves the
kept script alone if its sections are the same or if it fails, and replaces it otherwise.

So a call hands out the file that it would make with nothing kept exactly if the call that has made
the kept one makes the same file (`LinkCall.handsOut_iff`). With another key it hands out the old
file.
-/

namespace NovelScript.Project

open List Session Script

/-- A call of the linker. -/
structure LinkCall where
  key : Int
  task : LinkTask

namespace LinkCall

/-- The segments with the numbers of the variables in place. -/
def linked (c : LinkCall) : Except Fault (List Bytes) :=
  changeExpressions (writeLinks · c.task.links) c.task.segments

/-- The sections that a call packs. -/
def sections? (c : LinkCall) : Option Bytes := c.linked.toOption.map sectionsOf

/-- The file of the script when it is not compressed. -/
def image? (c : LinkCall) : Option Bytes := do
  let segments ← c.linked.toOption
  let key ← (keyBytes c.key).toOption
  return (encrypt key segments).flatten

/-- A call at a root. -/
def run (root : String) (compress : Bytes → Bytes) (c : LinkCall) : Work Archive.Entry :=
  linkTask ⟨root, c.key, compress⟩ c.task

/-- The world after calls, whether they succeed or fail. -/
def afterAll (root : String) (compress : Bytes → Bytes) (calls : List LinkCall)
    (w : World CacheRecord) : World CacheRecord :=
  calls.foldl (fun w c => after (c.run root compress) w) w

/-- The call that the kept script goes back to, after one more call. -/
def keep (kept : Option LinkCall) (c : LinkCall) : Option LinkCall :=
  if c.image? = none ∨ kept.bind sections? = c.sections? then kept else some c

/-- Where a call keeps what it packs. -/
def keptPath (root : String) (c : LinkCall) : String := Path.join root (c.task.path ++ ".comp")

/-! ## Packed data -/

/-- A compressor whose output, where it is used, inflates to the input. -/
def Restores (compress : Bytes → Bytes) : Prop :=
  ∀ data, (compress data).length < data.length → Inflate.inflate? (compress data) = some data

/-- What is packed can be unpacked. -/
theorem entryData_packData {compress : Bytes → Bytes} (hcompress : Restores compress) (data : Bytes)
    (name : String) (kind size : Int) :
    entryData ⟨name, kind, (packData compress data).1, (packData compress data).2, size⟩ =
      .ok data := by
  unfold entryData packData
  by_cases hshorter : (compress data).length < data.length
  · simp [hshorter, hcompress data hshorter, orFault]
  · simp [hshorter]

theorem packData_length (compress : Bytes → Bytes) (data : Bytes) :
    ((packData compress data).1 != 0 ||
      (packData compress data).2.length == data.length) = true := by
  unfold packData
  by_cases hshorter : (compress data).length < data.length <;> simp [hshorter]

theorem length_encrypt (key : Bytes) (segments : List Bytes) :
    (encrypt key segments).flatten.length = total (segments.map List.length) := by
  cases segments with
  | nil => rfl
  | cons header sections =>
    have hsame : List.length ∘ Bytes.cyclicXor key = List.length := by
      funext data
      exact Bytes.length_cyclicXor key data
    simp [encrypt, hsame]

/-! ## One call -/

section

variable {root : String} {compress : Bytes → Bytes} {c d : LinkCall} {w : World CacheRecord}
  {segments : List Bytes}
variable {path : String} {sections image key : Bytes} {f : Fault} {w' : World CacheRecord}
  {e : Archive.Entry}

/-- The entry of a call. -/
def entryFor (compress : Bytes → Bytes) (c : LinkCall) (segments : List Bytes) (image : Bytes) :
    Archive.Entry :=
  ⟨archiveName (scriptFile c.task.number), 0, (packData compress image).1,
    (packData compress image).2, total (segments.map List.length)⟩

/-- What is kept at a path is that of a call, or nothing. -/
def Shelved (compress : Bytes → Bytes) (path : String) (w : World CacheRecord) :
    Option LinkCall → Prop
  | none => ∃ p, w.tree.locate path = .ok (.free p)
  | some d => ∃ p time sections image, d.sections? = some sections ∧ d.image? = some image ∧
      w.tree.locate path = .ok (.file p ⟨.record (.packed ⟨sections, (packData compress image).1,
        (packData compress image).2⟩), time⟩)

variable {kept : Option LinkCall}

theorem keptPacked?_of_other (size : Nat) (h : Shelved compress path w kept)
    (hother : kept.bind sections? ≠ some sections) :
    keptPacked? path sections size w = .ok none w := by
  cases kept with
  | none =>
    obtain ⟨p, hlocate⟩ := h
    have hfound : w.tree.locate path = .ok (.ofFile? p none) := hlocate
    rw [keptPacked?, runBind_of_ok (content?_eq hfound)]
    rfl
  | some d =>
    obtain ⟨p, time, sections', image, hsections, -, hlocate⟩ := h
    have hfound : w.tree.locate path = .ok (.ofFile? p (some _)) := hlocate
    have hdifferent : sections' ≠ sections := by
      rintro rfl
      exact hother hsections
    rw [keptPacked?, runBind_of_ok (content?_eq hfound)]
    dsimp only [Option.map_some]
    rw [if_neg hdifferent]
    rfl

theorem keptPacked?_of_same (size : Nat) (h : Shelved compress path w (some d))
    (hsections : d.sections? = some sections) (himage : d.image? = some image) :
    keptPacked? path sections size w =
      if ((packData compress image).1 != 0 ||
        (packData compress image).2.length == size) = true then
        .ok (some ⟨sections, (packData compress image).1, (packData compress image).2⟩) w
      else .error Condition.packedLength w := by
  obtain ⟨p, time, sections', image', hsections', himage', hlocate⟩ := h
  obtain rfl : sections = sections' := Option.some.inj (hsections.symm.trans hsections')
  obtain rfl : image = image' := Option.some.inj (himage.symm.trans himage')
  have hfound : w.tree.locate path = .ok (.ofFile? p (some _)) := hlocate
  rw [keptPacked?, runBind_of_ok (content?_eq hfound)]
  dsimp only [Option.map_some]
  rw [if_pos rfl]
  split
  · next hlength => rw [require, if_pos hlength]; rfl
  · next hlength => rw [require, if_neg hlength]; rfl

theorem run_of_unlinked (hlinked : c.linked = .error f) : c.run root compress w = .error f w := by
  have hstart : (ofResult c.linked : Work (List Bytes)) w = .error f w := by
    rw [hlinked]
    rfl
  exact runBind_of_error hstart

/-- A call with the kept sections hands the kept image out. -/
theorem run_of_same (hlinked : c.linked = .ok segments)
    (h : Shelved compress (c.keptPath root) w (some d)) (hsections : d.sections? = c.sections?)
    (himage : d.image? = some image) :
    c.run root compress w =
      if ((packData compress image).1 != 0 ||
          (packData compress image).2.length == total (segments.map List.length)) = true then
        .ok (entryFor compress c segments image) w
      else .error Condition.packedLength w := by
  have hstart : (ofResult c.linked : Work (List Bytes)) w = .ok segments w :=
    ofResult_eq_ok.mpr ⟨hlinked, rfl⟩
  have hfor : d.sections? = some (sectionsOf segments) := by
    rw [hsections, sections?, hlinked]
    rfl
  have hkept := keptPacked?_of_same (total (segments.map List.length)) h hfor himage
  refine (runBind_of_ok hstart).trans ?_
  split at hkept
  · next hlength =>
    rw [if_pos hlength]
    exact runBind_of_ok hkept
  · next hlength =>
    rw [if_neg hlength]
    exact runBind_of_error hkept

theorem Shelved.exists_locate (h : Shelved compress path w kept) :
    ∃ p found, w.tree.locate path = .ok (.ofFile? p found) := by
  cases kept with
  | none =>
    obtain ⟨p, hlocate⟩ := h
    exact ⟨p, none, hlocate⟩
  | some d =>
    obtain ⟨p, time, sections, image, -, -, hlocate⟩ := h
    exact ⟨p, some _, hlocate⟩

theorem Shelved.congr (h : Shelved compress path w kept) (htree : w'.tree = w.tree) :
    Shelved compress path w' kept := by
  cases kept with
  | none | some d => simpa only [Shelved, htree] using h

theorem image?_eq_some (hlinked : c.linked = .ok segments)
    (hkey : keyBytes c.key = .ok key) :
    c.image? = some (encrypt key segments).flatten := by
  rw [image?, hlinked, hkey]
  rfl

/-- The second half of a call, when nothing that is kept can be used. -/
def packAnew (root : String) (compress : Bytes → Bytes) (c : LinkCall) (segments : List Bytes) :
    Work Archive.Entry := do
  let key ← ofResult (keyBytes c.key)
  let image := (encrypt key segments).flatten
  Session.write (c.keptPath root) (.record (.packed ⟨sectionsOf segments,
    (packData compress image).1, (packData compress image).2⟩))
  return entryFor compress c segments image

theorem run_of_none (hlinked : c.linked = .ok segments)
    (hkept :
      keptPacked? (c.keptPath root) (sectionsOf segments) (total (segments.map List.length)) w =
      .ok none w) :
    ∃ w₁, w₁.tree = w.tree ∧ c.run root compress w = packAnew root compress c segments w₁ := by
  have hstart : (ofResult c.linked : Work (List Bytes)) w = .ok segments w :=
    ofResult_eq_ok.mpr ⟨hlinked, rfl⟩
  have hsaid (line : String) : Session.say line w =
      EStateM.Result.ok () { w with log := w.log ++ [line] } := rfl
  refine ⟨{ w with log := w.log ++ [s!"compress {c.task.number} {c.task.path}"] }, rfl, ?_⟩
  exact (runBind_of_ok hstart).trans <| (runBind_of_ok hkept).trans <|
    (runBind_of_ok (hsaid _)).trans rfl

/-- Any other call packs its own. -/
theorem run_of_other (hlinked : c.linked = .ok segments)
    (h : Shelved compress (c.keptPath root) w kept) (hother : kept.bind sections? ≠ c.sections?) :
    ∃ w₁, w₁.tree = w.tree ∧ c.run root compress w = packAnew root compress c segments w₁ := by
  rw [sections?, hlinked] at hother
  exact run_of_none hlinked (keptPacked?_of_other _ h hother)

theorem packAnew_of_badKey (hkey : keyBytes c.key = .error f) :
    packAnew root compress c segments w = .error f w := by
  have hstart : (ofResult (keyBytes c.key) : Work Bytes) w = .error f w := by
    rw [hkey]
    rfl
  exact runBind_of_error hstart

theorem packAnew_eq (hlinked : c.linked = .ok segments) (hkey : keyBytes c.key = .ok key)
    (h : Shelved compress (c.keptPath root) w kept) :
    ∃ w', packAnew root compress c segments w =
        .ok (entryFor compress c segments (encrypt key segments).flatten) w' ∧
      Shelved compress (c.keptPath root) w' (some c) := by
  have hsections : c.sections? = some (sectionsOf segments) := by
    rw [sections?, hlinked]
    rfl
  obtain ⟨p, found, hlocate⟩ := h.exists_locate
  refine ⟨_, (runBind_of_ok (ofResult_eq_ok.mpr ⟨hkey, rfl⟩)).trans <|
    (runBind_of_ok (write_eq hlocate _)).trans rfl, ?_⟩
  exact ⟨p, _, _, _, hsections, image?_eq_some hlinked hkey, Tree.locate_put hlocate _⟩

/-- One call does to what is kept what `keep` says. -/
theorem Shelved.after_run (h : Shelved compress (c.keptPath root) w kept) :
    Shelved compress (c.keptPath root) (after (c.run root compress) w) (keep kept c) := by
  unfold keep Session.after
  cases hlinked : c.linked with
  | error f =>
    have himage : c.image? = none := by
      rw [image?, hlinked]
      rfl
    rw [if_pos (.inl himage), run_of_unlinked hlinked]
    exact h
  | ok segments =>
    -- Only other sections than the kept ones are packed anew.
    by_cases hsame : kept.bind sections? = c.sections?
    · rw [if_pos (.inr hsame)]
      have hsections : c.sections? = some (sectionsOf segments) := by
        rw [sections?, hlinked]
        rfl
      cases kept with
      | none =>
        rw [hsections] at hsame
        cases hsame
      | some d =>
        obtain ⟨_, _, _, image, -, himage, -⟩ := id h
        rw [run_of_same hlinked h hsame himage]
        generalize ((packData compress image).1 != 0 ||
          (packData compress image).2.length == total (segments.map List.length)) = fits
        cases fits <;> exact h
    · obtain ⟨w₁, htree, hrun⟩ := run_of_other hlinked h hsame
      rw [hrun]
      cases hkey : keyBytes c.key with
      | error f =>
        have himage : c.image? = none := by
          rw [image?, hlinked, hkey]
          rfl
        rw [if_pos (.inl himage), packAnew_of_badKey hkey]
        exact h.congr htree
      | ok key =>
        have himage := image?_eq_some hlinked hkey
        obtain ⟨w', hpack, hshelved⟩ := packAnew_eq hlinked hkey (h.congr htree)
        rw [if_neg (by simp [himage, hsame]), hpack]
        exact hshelved

variable {calls : List LinkCall}

/-- After calls the last one that packed is kept. -/
theorem Shelved.afterAll (hcalls : ∀ d ∈ calls, d.keptPath root = path)
    (h : Shelved compress path w kept) :
    Shelved compress path (afterAll root compress calls w) (calls.foldl keep kept) := by
  induction calls generalizing w kept with
  | nil => exact h
  | cons d rest ih =>
    refine ih (forall_mem_cons.mp hcalls).2 ?_
    obtain rfl := hcalls d mem_cons_self
    exact h.after_run

theorem foldl_keep_cases (calls : List LinkCall) (kept : Option LinkCall) :
    calls.foldl keep kept = kept ∨ ∃ d ∈ calls, calls.foldl keep kept = some d := by
  induction calls generalizing kept with
  | nil => exact .inl rfl
  | cons c rest ih =>
    rw [foldl_cons]
    rcases ih (keep kept c) with h | ⟨d, hd, h⟩
    · rw [h]
      unfold keep
      split
      · exact .inl rfl
      · exact .inr ⟨c, mem_cons_self, rfl⟩
    · exact .inr ⟨d, mem_cons_of_mem _ hd, h⟩

/-! ## A call after others -/

/-- A call succeeds only if its path leads to a place that is no folder. -/
theorem shelved_of_run (hnone : w.tree.file? (Path.place (c.keptPath root)) = none)
    (hrun : c.run root compress w = .ok e w') : Shelved compress (c.keptPath root) w none := by
  obtain ⟨segments, w₁, hlinked', hrest⟩ := of_runBind hrun
  obtain ⟨hlinked, rfl⟩ := ofResult_eq_ok.mp hlinked'
  obtain ⟨kept, w₂, hkept', -⟩ := of_runBind hrest
  have hkept : keptPacked? (c.keptPath root) _ _ _ = _ := hkept'
  obtain ⟨content, w₃, hcontent, hfound⟩ := of_runBind hkept
  obtain ⟨rfl, ⟨p, found, hlocate, -⟩ | ⟨f, hlocate, -, rfl⟩⟩ := found_of_content? hcontent
  · have hstands := Tree.standsAt_of_locate hlocate
    cases found with
    | none => exact ⟨p, hlocate⟩
    | some f =>
      rw [Tree.file?, hstands.2] at hnone
      cases hnone
  · -- Nothing can be written if the folder is missing.
    cases hfound
    obtain ⟨w₁, htree, hanew⟩ := run_of_none hlinked hkept
    rw [hanew] at hrun
    obtain ⟨key, w₄, hkey, hwritten⟩ := of_runBind hrun
    obtain ⟨-, rfl⟩ := ofResult_eq_ok.mp hkey
    obtain ⟨_, _, hwrite, -⟩ := of_runBind hwritten
    obtain ⟨found, hlocate'⟩ := hasRoom_of_write hwrite
    rw [htree, hlocate] at hlocate'
    cases hlocate'

theorem run_fresh (h : Shelved compress (c.keptPath root) w none)
    (hrun : c.run root compress w = .ok e w') :
    ∃ segments key, c.linked = .ok segments ∧ keyBytes c.key = .ok key ∧
      e = entryFor compress c segments (encrypt key segments).flatten := by
  cases hlinked : c.linked with
  | error f =>
    rw [run_of_unlinked hlinked] at hrun
    cases hrun
  | ok segments =>
    have hother : (none : Option LinkCall).bind sections? ≠ c.sections? := by
      rw [sections?, hlinked]
      nofun
    obtain ⟨w₁, htree, hanew⟩ := run_of_other hlinked h hother
    rw [hanew] at hrun
    cases hkey : keyBytes c.key with
    | error f =>
      rw [packAnew_of_badKey hkey] at hrun
      cases hrun
    | ok key =>
      obtain ⟨w₂, hpack, -⟩ := packAnew_eq hlinked hkey (h.congr htree)
      rw [hpack] at hrun
      cases hrun
      exact ⟨segments, key, rfl, rfl, rfl⟩

/-- A call after others hands out an entry with the name and the file of a given one. -/
def HandsOut (root : String) (compress : Bytes → Bytes) (calls : List LinkCall) (c : LinkCall)
    (w : World CacheRecord) (e : Archive.Entry) : Prop :=
  ∃ e' w', c.run root compress (afterAll root compress calls w) = .ok e' w' ∧
    e'.name = e.name ∧ entryData e' = entryData e

theorem handsOut_iff_of_same (hcompress : Restores compress) (hlinked : c.linked = .ok segments)
    (hkey : keyBytes c.key = .ok key)
    (h : Shelved compress (c.keptPath root) (LinkCall.afterAll root compress calls w) (some d))
    (hsections : d.sections? = c.sections?) :
    HandsOut root compress calls c w
      (entryFor compress c segments (encrypt key segments).flatten) ↔ d.image? = c.image? := by
  obtain ⟨_, _, _, image, -, himage, -⟩ := id h
  rw [himage, image?_eq_some hlinked hkey, Option.some_inj]
  unfold HandsOut
  rw [run_of_same hlinked h hsections himage]
  constructor
  · rintro ⟨e, w₁, hrun, -, hdata⟩
    split at hrun
    · cases hrun
      rw [entryFor, entryFor, entryData_packData hcompress, entryData_packData hcompress] at hdata
      exact Except.ok.inj hdata
    · cases hrun
  · rintro rfl
    have hlength := packData_length compress (encrypt key segments).flatten
    rw [length_encrypt] at hlength
    exact ⟨_, _, if_pos hlength, rfl, rfl⟩

/-- **When the linker hands out the file that it makes with nothing kept**, after any calls for the
same path. It does so exactly if the call that the kept script then goes back to makes the same
file, and always if no earlier call with the same sections makes another file. -/
theorem handsOut_iff (hcompress : Restores compress) {calls : List LinkCall}
    (hcalls : ∀ d ∈ calls, d.task.path = c.task.path)
    (hnone : w.tree.file? (Path.place (c.keptPath root)) = none) {e : Archive.Entry}
    {w' : World CacheRecord} (hrun : c.run root compress w = .ok e w') :
    (HandsOut root compress calls c w e ↔ ((calls ++ [c]).foldl keep none).bind image? = c.image?) ∧
    ((∀ d ∈ calls, d.sections? = c.sections? → d.image? = c.image?) →
      HandsOut root compress calls c w e) := by
  have hstart := shelved_of_run hnone hrun
  obtain ⟨segments, key, hlinked, hkey, rfl⟩ := run_fresh hstart hrun
  have himage := image?_eq_some hlinked hkey
  have hpaths : ∀ d ∈ calls, d.keptPath root = c.keptPath root := by
    intro d hd
    rw [keptPath, keptPath, hcalls d hd]
  have hkept := hstart.afterAll hpaths
  -- What a call hands out is what is kept once it has run.
  have hiff : HandsOut root compress calls c w
      (entryFor compress c segments (encrypt key segments).flatten) ↔
        (keep (calls.foldl keep none) c).bind image? = c.image? := by
    generalize calls.foldl keep none = kept at hkept ⊢
    by_cases hsame : kept.bind sections? = c.sections?
    · cases kept with
      | none =>
        rw [sections?, hlinked] at hsame
        cases hsame
      | some d =>
        have hkeep : keep (some d) c = some d := if_pos (.inr hsame)
        rw [hkeep]
        exact handsOut_iff_of_same hcompress hlinked hkey hkept hsame
    · have hkeep : keep kept c = some c := if_neg (by simp [himage, hsame])
      rw [hkeep]
      obtain ⟨w₁, htree, hanew⟩ := run_of_other hlinked hkept hsame
      obtain ⟨w₂, hpack, -⟩ := packAnew_eq hlinked hkey (hkept.congr htree)
      exact ⟨fun _ => rfl, fun _ => ⟨_, w₂, hanew.trans hpack, rfl, rfl⟩⟩
  rw [List.foldl_append, List.foldl_cons, List.foldl_nil]
  refine ⟨hiff, fun hagree => hiff.mpr ?_⟩
  by_cases hsame : (calls.foldl keep none).bind sections? = c.sections?
  · rw [keep, if_pos (.inr hsame)]
    rcases foldl_keep_cases calls none with h | ⟨d, hd, h⟩
    · rw [h, sections?, hlinked] at hsame
      cases hsame
    · rw [h] at hsame ⊢
      exact hagree d hd hsame
  · rw [keep, if_neg (by simp [himage, hsame])]
    rfl

end

/-- Compression of a sample. -/
def sampleCompress (data : Bytes) : Bytes :=
  if data = replicate 40 0 then [120, 218, 99, 96, 32, 14, 0, 0, 0, 40, 0, 1] else data

/-- A call with zeros only. -/
def sampleCall : LinkCall where
  key := 0
  task := ⟨1, "a", [⟨[0], 0⟩], [replicate 32 0, replicate 4 0, replicate 4 0]⟩

/-- Calls before it: for other sections, with a link that leads nowhere, and for the same sections
under another number. -/
def sampleCalls : List LinkCall :=
  [⟨7, ⟨1, "a", [], [[9], [1, 2], [3]]⟩⟩, ⟨0, ⟨1, "a", [⟨[4], 0⟩], [[9], [1, 2], [3]]⟩⟩,
    { sampleCall with task.number := 2 }]

/-- A root with nothing in it. -/
def sampleShelf : World CacheRecord where
  tree := { folders := [["w"]] }

theorem handsOut_iff_sampleCall :
    ∃ e w', sampleCall.run "w" sampleCompress sampleShelf = .ok e w' ∧ e.packing = -1 ∧
      HandsOut "w" sampleCompress sampleCalls sampleCall sampleShelf e := by
  have hcompress : Restores sampleCompress := by
    intro data hshorter
    unfold sampleCompress at hshorter ⊢
    split
    · next hdata =>
      rw [hdata]
      decide +kernel
    · next hdata =>
      rw [if_neg hdata] at hshorter
      exact absurd hshorter (Nat.lt_irrefl _)
  have hrun : sampleCall.run "w" sampleCompress sampleShelf =
      .ok ⟨"ysbin\\yst00001.ybn", 0, -1, [120, 218, 99, 96, 32, 14, 0, 0, 0, 40, 0, 1], 40⟩
        (after (sampleCall.run "w" sampleCompress) sampleShelf) := by
    decide +kernel
  exact ⟨_, _, hrun, rfl, (handsOut_iff hcompress (by decide +kernel) (by decide +kernel) hrun).2
    (by decide +kernel)⟩

/-- After a call with another key, the file that is handed out is the one with the old key. -/
theorem oldKey_handedOut :
    ∃ e e' w₁ w₂, sampleCall.run "w" sampleCompress sampleShelf = .ok e w₁ ∧
      sampleCall.run "w" sampleCompress
        (afterAll "w" sampleCompress [{ sampleCall with key := 1 }] sampleShelf) = .ok e' w₂ ∧
      entryData e = .ok (List.replicate 40 0) ∧
      entryData e' = .ok (List.replicate 32 0 ++ [0, 0, 0, 1, 0, 0, 0, 1]) := by
  refine ⟨⟨"ysbin\\yst00001.ybn", 0, -1, [120, 218, 99, 96, 32, 14, 0, 0, 0, 40, 0, 1], 40⟩,
    ⟨"ysbin\\yst00001.ybn", 0, 0, List.replicate 32 0 ++ [0, 0, 0, 1, 0, 0, 0, 1], 40⟩,
    after (sampleCall.run "w" sampleCompress) sampleShelf,
    afterAll "w" sampleCompress [{ sampleCall with key := 1 }] sampleShelf, ?_⟩
  decide +kernel

end LinkCall

end NovelScript.Project
