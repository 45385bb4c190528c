import NovelScript.Files.Session
import NovelScript.Proofs.Files.Tree

/-!
# Work on files

Work with a state that is kept when a step fails succeeds exactly if each of its steps does, each
from the state that the one before it has left.

What work does to a tree is said by `Ensures`, with one condition for work that succeeds and one for
work that fails. Every step of a session has a rule, and rules are put together as the steps are; so
what a whole run does to the tree follows from what its writing steps do.
-/

namespace NovelScript

open List NovelScript.Tree

/-! ## Steps -/

section

variable {α β σ : Type} {s s' : σ}
variable {x : EStateM Fault σ α} {f : α → EStateM Fault σ β} {a : α} {e : Fault}

/-- Two steps succeed exactly if the second does after the first. -/
theorem runBind_eq_ok {b : β} :
    (x >>= f) s = .ok b s' ↔ ∃ a s₁, x s = .ok a s₁ ∧ f a s₁ = .ok b s' := by
  show EStateM.bind x f s = _ ↔ _
  unfold EStateM.bind
  cases x s with
  | ok a s₁ =>
    refine ⟨fun h => ⟨a, s₁, rfl, h⟩, ?_⟩
    rintro ⟨_, _, heq, h⟩
    cases heq
    exact h
  | error e s₁ =>
    refine ⟨nofun, ?_⟩
    rintro ⟨_, _, heq, -⟩
    cases heq

theorem of_runBind {b : β} (h : (x >>= f) s = .ok b s') :
    ∃ a s₁, x s = .ok a s₁ ∧ f a s₁ = .ok b s' :=
  runBind_eq_ok.mp h

theorem runBind_of_ok (h : x s = .ok a s') : (x >>= f) s = f a s' := by
  show EStateM.bind x f s = _
  unfold EStateM.bind
  rw [h]

theorem runBind_of_error (h : x s = .error e s') : (x >>= f) s = .error e s' := by
  show EStateM.bind x f s = _
  unfold EStateM.bind
  rw [h]

@[simp] theorem runPure_eq_ok {b : α} :
    (pure a : EStateM Fault σ α) s = .ok b s' ↔ b = a ∧ s' = s := by
  show EStateM.Result.ok a s = .ok b s' ↔ _
  rw [EStateM.Result.ok.injEq, eq_comm, @eq_comm _ s]

/-- Work that throws never succeeds. -/
@[simp] theorem runThrow_ne_ok : ¬(throw e : EStateM Fault σ α) s = .ok a s' := by
  intro h
  cases h

@[simp] theorem runRequire_eq_ok {holds : Bool} {fault : Fault} {u : Unit} :
    (require holds fault : EStateM Fault σ Unit) s = .ok u s' ↔ holds = true ∧ s' = s := by
  unfold require
  cases holds <;> simp

/-- A plain result is work that leaves the state as it is. -/
@[simp] theorem ofResult_eq_ok {x : Except Fault α} :
    (ofResult x : EStateM Fault σ α) s = .ok a s' ↔ x = .ok a ∧ s' = s := by
  cases x with
  | error e => simp [ofResult]
  | ok b => simp [ofResult, eq_comm]

end

deriving instance DecidableEq for Content, File, Tree, World

instance decidableEqResult {ε σ α : Type} [DecidableEq ε] [DecidableEq σ] [DecidableEq α] :
    DecidableEq (EStateM.Result ε σ α)
  | .ok a s, .ok b t => decidable_of_iff (a = b ∧ s = t) (by simp)
  | .error e s, .error f t => decidable_of_iff (e = f ∧ s = t) (by simp)
  | .ok _ _, .error _ _ => isFalse nofun
  | .error _ _, .ok _ _ => isFalse nofun

/-! ## What work does to the tree -/

namespace Session

variable {ρ α β : Type} {P E : Tree ρ → Prop} {Q : α → Tree ρ → Prop} {R : β → Tree ρ → Prop}
variable {work x : Session ρ α} {w w₁ : World ρ} {a : α} {f : α → Session ρ β} {l : List α}
  {content : Content ρ} {t : Tree ρ} {path : String} {tasks : List (Session ρ α)}
  {S : Session ρ α → α → Prop}

/-- From a tree with `P`, work that succeeds comes to a result and a tree with `Q`, and work that
fails leaves a tree with `E`. -/
def Ensures (P : Tree ρ → Prop) (work : Session ρ α) (Q : α → Tree ρ → Prop) (E : Tree ρ → Prop) :
    Prop :=
  ∀ w, P w.tree →
    match work w with
    | .ok a w' => Q a w'.tree
    | .error _ w' => E w'.tree

/-- What is ensured holds of a run that succeeds. -/
theorem Ensures.of_ok (h : Ensures P work Q E) {w' : World ρ} (hw : P w.tree)
    (hwork : work w = .ok a w') : Q a w'.tree := by
  have := h w hw
  rwa [hwork] at this

/-- The world that work leaves, whether it succeeds or fails. -/
def after (work : Session ρ α) (w : World ρ) : World ρ :=
  match work w with
  | .ok _ w' => w'
  | .error _ w' => w'

theorem after_bind_of_ok (h : x w = .ok a w₁) : after (x >>= f) w = after (f a) w₁ := by
  unfold after
  rw [runBind_of_ok h]

theorem after_bind_of_error {e : Fault} (h : x w = .error e w₁) : after (x >>= f) w = w₁ := by
  unfold after
  rw [runBind_of_error h]

/-- The result of work, if it succeeds. -/
def result? (work : Session ρ α) (w : World ρ) : Option α :=
  match work w with
  | .ok a _ => some a
  | .error _ _ => none

/-- Work with a result succeeds, in the state it leaves. -/
theorem eq_ok_of_result? (h : result? work w = some a) : work w = .ok a (after work w) := by
  unfold result? at h
  unfold after
  split at h
  · next a' _ heq =>
    rw [heq, Option.some.inj h]
  · cases h

/-- A condition that work keeps, failing or not, holds after it. -/
theorem Ensures.after (h : Ensures P work (fun _ => P) P) (hw : P w.tree) :
    P (after work w).tree := by
  have := h w hw
  unfold Session.after
  split at this <;> simp_all

/-- The rule of consequence. -/
theorem Ensures.imp (h : Ensures P work Q E) {P' E' : Tree ρ → Prop} {Q' : α → Tree ρ → Prop}
    (hP : ∀ t, P' t → P t) (hQ : ∀ a t, Q a t → Q' a t) (hE : ∀ t, E t → E' t) :
    Ensures P' work Q' E' := by
  intro w hw
  have := h w (hP _ hw)
  split at this
  · exact hQ _ _ this
  · exact hE _ this

theorem ensures_pure (h : ∀ t, P t → Q a t) : Ensures P (pure a) Q E :=
  fun _ hw => h _ hw

theorem ensures_throw {f : Fault} (h : ∀ t, P t → E t) : Ensures P (throw f) Q E :=
  fun _ hw => h _ hw

theorem ensures_ofResult {x : Except Fault α} (h : ∀ a t, x = .ok a → P t → Q a t)
    (hE : ∀ t, P t → E t) : Ensures P (ofResult x) Q E := by
  cases x with
  | error f => exact ensures_throw hE
  | ok a => exact ensures_pure fun t ht => h a t rfl ht

/-- What the first step ensures is what the second one may rely on. -/
theorem ensures_bind (hx : Ensures P x Q E) (hf : ∀ a, Ensures (Q a) (f a) R E) :
    Ensures P (x >>= f) R E := by
  intro w hw
  have hfirst := hx w hw
  show match EStateM.bind x f w with
    | .ok b w' => R b w'.tree
    | .error _ w' => E w'.tree
  unfold EStateM.bind
  cases hrun : x w with
  | error f w₁ =>
    rw [hrun] at hfirst
    exact hfirst
  | ok a w₁ =>
    rw [hrun] at hfirst
    exact hf a w₁ hfirst

/-! ## Work that leaves the tree alone -/

/-- Work that changes no file and no folder, whether it succeeds or fails. -/
def KeepsTree (work : Session ρ α) : Prop :=
  ∀ P : Tree ρ → Prop, Ensures P work (fun _ => P) P

theorem keepsTree_pure (a : α) : KeepsTree (pure a : Session ρ α) :=
  fun _ => ensures_pure fun _ => id

theorem keepsTree_throw (f : Fault) : KeepsTree (throw f : Session ρ α) :=
  fun _ => ensures_throw fun _ => id

theorem keepsTree_ofResult (x : Except Fault α) : KeepsTree (ofResult x : Session ρ α) :=
  fun _ => ensures_ofResult (fun _ _ _ => id) fun _ => id

theorem keepsTree_require (holds : Bool) (f : Fault) :
    KeepsTree (require holds f : Session ρ Unit) := by
  cases holds with
  | false => exact keepsTree_throw f
  | true => exact keepsTree_pure ()

/-- Steps that keep the tree keep it together. -/
theorem keepsTree_bind (hx : KeepsTree x) (hf : ∀ a, KeepsTree (f a)) : KeepsTree (x >>= f) :=
  fun P => ensures_bind (hx P) fun a => hf a P

theorem keepsTree_mapM (h : ∀ a, KeepsTree (f a)) : KeepsTree (l.mapM f) := by
  induction l with
  | nil => exact keepsTree_pure _
  | cons a rest ih =>
    rw [mapM_cons]
    exact keepsTree_bind (h a) fun _ => keepsTree_bind ih fun _ => keepsTree_pure _

theorem keepsTree_get : KeepsTree (get : Session ρ (World ρ)) := fun _ _ hw => hw

theorem keepsTree_say (line : String) : KeepsTree (say line : Session ρ Unit) := fun _ _ hw => hw

theorem keepsTree_locate (path : String) : KeepsTree (locate path : Session ρ (Spot ρ)) :=
  keepsTree_bind keepsTree_get fun _ => keepsTree_ofResult _

theorem keepsTree_file (path : String) : KeepsTree (file path : Session ρ (File ρ)) := by
  refine keepsTree_bind (keepsTree_locate path) fun spot => ?_
  cases spot with
  | folder => exact keepsTree_throw _
  | file => exact keepsTree_pure _
  | free => exact keepsTree_throw _

theorem keepsTree_readBytes (path : String) : KeepsTree (readBytes path : Session ρ Bytes) := by
  refine keepsTree_bind (keepsTree_file path) fun f => ?_
  split <;> exact keepsTree_pure _

/-- Reading writes nothing. -/
theorem keepsTree_readText (codec : Codec) (path : String) :
    KeepsTree (readText codec path : Session ρ String) :=
  keepsTree_bind (keepsTree_readBytes path) fun _ =>
    keepsTree_bind (keepsTree_bind (keepsTree_ofResult _) fun _ => keepsTree_pure _) fun _ =>
      keepsTree_bind (keepsTree_ofResult _) fun _ => keepsTree_pure _

theorem keepsTree_content? (path : String) :
    KeepsTree (content? path : Session ρ (Option (Content ρ))) := by
  refine keepsTree_bind (keepsTree_bind keepsTree_get fun w => ?_) fun spot => ?_
  · split
    · exact keepsTree_pure _
    · split
      · exact keepsTree_pure _
      · exact keepsTree_throw _
  · split
    · exact keepsTree_throw _
    · exact keepsTree_pure _
    · exact keepsTree_pure _

theorem keepsTree_record? (path : String) : KeepsTree (record? path : Session ρ (Option ρ)) := by
  refine keepsTree_bind (keepsTree_content? path) fun content => ?_
  split
  · exact keepsTree_pure _
  · exact keepsTree_throw _
  · exact keepsTree_pure _

theorem keepsTree_walk (root : String) :
    KeepsTree (walk root : Session ρ (List (String × List String))) := by
  refine keepsTree_bind (keepsTree_locate root) fun spot => ?_
  cases spot with
  | folder => exact keepsTree_bind keepsTree_get fun _ => keepsTree_pure _
  | file | free => exact keepsTree_throw _

/-! ## Reading -/

/-- There is a file with a content at a place. -/
def Holds (files : List (Place × File ρ)) (p : Place) (content : Content ρ) : Prop :=
  ∃ f, files.lookup p = some f ∧ f.content = content

theorem Holds.exists_mem {files : List (Place × File ρ)} {p : Place} (h : Holds files p content) :
    ∃ f, (p, f) ∈ files ∧ f.content = content := by
  obtain ⟨f, hf, hcontent⟩ := h
  obtain ⟨before, after, rfl, -⟩ := lookup_eq_some_iff.mp hf
  exact ⟨f, by simp, hcontent⟩

/-- What is found when a file is looked for that may be missing. -/
def Found (t : Tree ρ) (path : String) (content : Option (Content ρ)) : Prop :=
  (∃ p found, t.locate path = .ok (.ofFile? p found) ∧ content = found.map File.content) ∨
    ∃ f, t.locate path = .error f ∧ f.cause.kind = .noFile ∧ content = none

/-- A content that is found at a path stands at the place of the path. -/
theorem Found.holds (h : Found t path (some content)) :
    Holds t.files (Path.place path) content := by
  obtain ⟨p, found, hlocate, hcontent⟩ | ⟨f, -, -, hnone⟩ := h
  · cases found with
    | none => cases hcontent
    | some f =>
      cases hcontent
      exact ⟨f, (standsAt_of_locate hlocate).2, rfl⟩
  · cases hnone

theorem Found.fits {content : Option (Content ρ)} (hnonempty : path ≠ "")
    (h : Found t path content) :
    Path.Fits path := by
  refine Path.fits_of_locate (t := t) hnonempty fun f' hf' => ?_
  obtain ⟨p, found, hlocate, -⟩ | ⟨f, hlocate, hkind, -⟩ := h
  · rw [hlocate] at hf'
    cases hf'
  · rw [hlocate] at hf'
    cases hf'
    exact hkind

section

variable {w w' : World ρ} {path : String} {p : Place} {found : Option (File ρ)} {codec : Codec}

theorem locate_eq_ok {spot : Spot ρ} :
    (locate path : Session ρ (Spot ρ)) w = .ok spot w' ↔
      w.tree.locate path = .ok spot ∧ w' = w := by
  have hget : (get : Session ρ (World ρ)) w = .ok w w := rfl
  rw [locate, runBind_of_ok hget, ofResult_eq_ok]

theorem content?_eq (h : w.tree.locate path = .ok (.ofFile? p found)) :
    content? path w = .ok (found.map File.content) w := by
  refine runBind_eq_ok.mpr ⟨some (.ofFile? p found), w, ?_, ?_⟩
  · exact runBind_eq_ok.mpr ⟨w, w, rfl, by rw [h]; rfl⟩
  · cases found <;> rfl

/-- Looking for a content changes nothing and tells what stands there. -/
theorem found_of_content? {content : Option (Content ρ)} (h : content? path w = .ok content w') :
    w' = w ∧ Found w.tree path content := by
  obtain ⟨found, w₁, hfound, h⟩ := of_runBind h
  obtain ⟨w₀, w₀', hget, hfound⟩ := of_runBind hfound
  cases hget
  cases hlocate : w.tree.locate path with
  | error f =>
    rw [hlocate] at hfound
    dsimp only at hfound
    split at hfound
    · next hkind =>
      cases hfound
      cases h
      exact ⟨rfl, .inr ⟨f, hlocate, hkind, rfl⟩⟩
    · cases hfound
  | ok spot =>
    rw [hlocate] at hfound
    cases hfound
    cases spot with
    | folder => cases h
    | file p f =>
      cases h
      exact ⟨rfl, .inl ⟨p, some f, hlocate, rfl⟩⟩
    | free p =>
      cases h
      exact ⟨rfl, .inl ⟨p, none, hlocate, rfl⟩⟩

/-- A record can be looked for where no plain bytes stand. -/
theorem record?_eq (h : w.tree.locate path = .ok (.ofFile? p found))
    (hbytes : ∀ data, ¬Holds w.tree.files (Path.place path) (.bytes data)) :
    ∃ value, record? path w = .ok value w := by
  rw [record?, runBind_of_ok (content?_eq h)]
  cases found with
  | none => exact ⟨none, rfl⟩
  | some f =>
    rw [Option.map_some]
    cases hcontent : f.content with
    | record value => exact ⟨some value, rfl⟩
    | bytes data => exact absurd ⟨f, (standsAt_of_locate h).2, hcontent⟩ (hbytes data)

/-- Where a file is missing there is no record, and no fault either. -/
theorem record?_of_error {f : Fault} (h : w.tree.locate path = .error f)
    (hkind : f.cause.kind = .noFile) : record? path w = .ok none w := by
  have hget : (get : Session ρ (World ρ)) w = .ok w w := rfl
  have hlocate : locate? path w = .ok none w := by
    rw [locate?, runBind_of_ok hget, h]
    dsimp only
    rw [if_pos hkind]
    rfl
  have hcontent : content? path w = .ok none w := runBind_of_ok hlocate
  exact runBind_of_ok hcontent

theorem found_of_record? {value : Option ρ} (h : record? path w = .ok value w') :
    w' = w ∧ Found w.tree path (value.map .record) := by
  obtain ⟨content, w₁, hcontent, hvalue⟩ := of_runBind h
  obtain ⟨rfl, hfound⟩ := found_of_content? hcontent
  cases content with
  | none =>
    cases hvalue
    exact ⟨rfl, hfound⟩
  | some content =>
    cases content with
    | bytes => cases hvalue
    | record value =>
      cases hvalue
      exact ⟨rfl, hfound⟩

/-- The bytes of what a file holds. A record has none. -/
def Content.data : Content ρ → Bytes
  | .bytes data => data
  | .record _ => []

/-- A file is read exactly if its path leads to it. -/
theorem readBytes_eq_ok {data : Bytes} : readBytes path w = .ok data w' ↔
    w' = w ∧ ∃ p f, w.tree.locate path = .ok (.file p f) ∧ Content.data f.content = data := by
  constructor
  · intro h
    obtain ⟨f, w₁, hfile, hdata⟩ := of_runBind h
    obtain ⟨spot, w₂, hspot, hfile⟩ := of_runBind hfile
    obtain ⟨hlocate, rfl⟩ := locate_eq_ok.mp hspot
    cases spot with
    | folder | free => cases hfile
    | file p g =>
      cases hfile
      cases hcontent : f.content <;> rw [hcontent] at hdata <;> cases hdata <;>
        exact ⟨rfl, p, f, hlocate, by rw [hcontent]; rfl⟩
  · rintro ⟨rfl, p, f, hlocate, rfl⟩
    have hfile : file path w' = .ok f w' := runBind_of_ok (locate_eq_ok.mpr ⟨hlocate, rfl⟩)
    rw [readBytes, runBind_of_ok hfile]
    cases f.content <;> rfl

/-- A place holds bytes; what is kept as a record reads as none. -/
def ReadsAs (files : List (Place × File ρ)) (p : Place) (data : Bytes) : Prop :=
  Holds files p (.bytes data) ∨ data = [] ∧ ∃ value, Holds files p (.record value)

theorem readsAs_of_readBytes {data : Bytes} (h : readBytes path w = .ok data w') :
    w' = w ∧ ReadsAs w.tree.files (Path.place path) data := by
  obtain ⟨rfl, p, f, hlocate, rfl⟩ := readBytes_eq_ok.mp h
  have hlookup := (standsAt_of_locate hlocate).2
  cases hcontent : f.content with
  | bytes data => exact ⟨rfl, .inl ⟨f, hlookup, hcontent⟩⟩
  | record value => exact ⟨rfl, .inr ⟨rfl, value, f, hlookup, hcontent⟩⟩

theorem requireKnown_eq_ok {u : Unit} : requireKnown codec w = .ok u w' ↔
    (∃ bytes, codec.encode "" = .ok bytes) ∧ w' = w := by
  constructor
  · intro h
    obtain ⟨bytes, w₁, hencode, h₁⟩ := of_runBind h
    obtain ⟨hbytes, rfl⟩ := ofResult_eq_ok.mp hencode
    cases h₁
    exact ⟨⟨bytes, hbytes⟩, rfl⟩
  · rintro ⟨⟨bytes, hbytes⟩, rfl⟩
    exact runBind_eq_ok.mpr ⟨bytes, w', ofResult_eq_ok.mpr ⟨hbytes, rfl⟩, rfl⟩

/-- A text is read if its file is there and decodes; line ends become plain. -/
theorem readText_eq_ok {text : String} : readText codec path w = .ok text w' ↔
    w' = w ∧ (∃ bytes, codec.encode "" = .ok bytes) ∧ ∃ p f decoded,
      w.tree.locate path = .ok (.file p f) ∧ codec.decode (Content.data f.content) = .ok decoded ∧
      text = String.ofList (Text.plainLines decoded.toList) := by
  constructor
  · intro h
    obtain ⟨data, w₁, hdata, h₁⟩ := of_runBind h
    obtain ⟨_, w₂, hrequire, h₂⟩ := of_runBind h₁
    obtain ⟨decoded, w₃, hdecode, h₃⟩ := of_runBind h₂
    cases h₃
    obtain ⟨hdecoded, rfl⟩ := ofResult_eq_ok.mp hdecode
    obtain ⟨hknown, rfl⟩ := requireKnown_eq_ok.mp hrequire
    obtain ⟨rfl, p, f, hlocate, rfl⟩ := readBytes_eq_ok.mp hdata
    exact ⟨rfl, hknown, p, f, decoded, hlocate, hdecoded, rfl⟩
  · rintro ⟨rfl, hknown, p, f, decoded, hlocate, hdecoded, rfl⟩
    refine runBind_eq_ok.mpr ⟨_, w', readBytes_eq_ok.mpr ⟨rfl, p, f, hlocate, rfl⟩, ?_⟩
    refine runBind_eq_ok.mpr ⟨(), w', requireKnown_eq_ok.mpr ⟨hknown, rfl⟩, ?_⟩
    exact runBind_eq_ok.mpr ⟨decoded, w', ofResult_eq_ok.mpr ⟨hdecoded, rfl⟩, rfl⟩

end

/-- A reading step ensures what its result says about the tree. -/
theorem KeepsTree.ensures (h : KeepsTree work)
    (hQ : ∀ w a w', work w = .ok a w' → w' = w ∧ Q a w.tree) :
    Ensures P work (fun a t => P t ∧ Q a t) P := by
  intro w hw
  have hkept := h P w hw
  cases hrun : work w with
  | error f w' =>
    rw [hrun] at hkept
    exact hkept
  | ok a w' =>
    obtain ⟨rfl, ha⟩ := hQ w a w' hrun
    exact ⟨hw, ha⟩

theorem ensures_locate (path : String) :
    Ensures P (locate path) (fun spot t => P t ∧ t.locate path = .ok spot) P :=
  (keepsTree_locate path).ensures fun _ _ _ h => (locate_eq_ok.mp h).symm

theorem ensures_content? (path : String) :
    Ensures P (content? path) (fun content t => P t ∧ Found t path content) P :=
  (keepsTree_content? path).ensures fun _ _ _ => found_of_content?

theorem ensures_record? (path : String) :
    Ensures P (record? path) (fun value t => P t ∧ Found t path (value.map .record)) P :=
  (keepsTree_record? path).ensures fun _ _ _ => found_of_record?

theorem ensures_readBytes (path : String) :
    Ensures P (readBytes path) (fun data t => P t ∧ ReadsAs t.files (Path.place path) data) P :=
  (keepsTree_readBytes path).ensures fun _ _ _ => readsAs_of_readBytes

/-! ## Writing -/

/-- The rule of writing: a file is put where its path leads, or nothing happens. -/
theorem ensures_write {Q : Unit → Tree ρ → Prop}
    (h : ∀ t p found time, P t → t.locate path = .ok (.ofFile? p found) →
      Q () (t.put p ⟨content, time⟩))
    (hE : ∀ t, P t → (∀ p found, t.locate path ≠ .ok (.ofFile? p found)) → E t) :
    Ensures P (write path content) Q E := by
  intro w hw
  have hget : (get : Session ρ (World ρ)) w = .ok w w := rfl
  have hstart : (locate path : Session ρ (Spot ρ)) w =
      (ofResult (w.tree.locate path) : Session ρ (Spot ρ)) w := runBind_of_ok hget
  cases hspot : w.tree.locate path with
  | error f =>
    rw [hspot] at hstart
    rw [write, runBind_of_error hstart]
    exact hE _ hw fun p found hok => by rw [hspot] at hok; cases hok
  | ok spot =>
    rw [hspot] at hstart
    rw [write, runBind_of_ok hstart]
    cases spot with
    | folder q => exact hE _ hw fun p found hok => by rw [hspot] at hok; cases found <;> cases hok
    | file p f => exact h _ p (some f) _ hw hspot
    | free p => exact h _ p none _ hw hspot

theorem ensures_forM {f : α → Session ρ PUnit} (h : ∀ a ∈ l, Ensures P (f a) (fun _ => P) P) :
    Ensures P (l.forM f) (fun _ => P) P := by
  induction l with
  | nil => exact keepsTree_pure _ P
  | cons a rest ih =>
    exact ensures_bind (h a mem_cons_self) fun _ =>
      ih (forall_mem_cons.mp h).2

theorem ensures_makeWay (path way : String)
    (h : ∀ t way p, P t → t.locate way = .ok (.free p) → P (t.addFolder p)) :
    Ensures P (makeWay path way) (fun _ => P) P := by
  refine ensures_bind (ensures_locate way) fun spot => ?_
  cases spot with
  | folder => exact ensures_pure fun t h => h.1
  | file => exact (keepsTree_require _ _ P).imp (fun _ h => h.1) (fun _ _ => id) fun _ => id
  | free p =>
    rintro w ⟨hw, hlocate⟩
    exact h w.tree way p hw hlocate

/-- The rule of making a folder with all folders on the way. -/
theorem ensures_makeFolder (path : String)
    (h : ∀ t way p, P t → t.locate way = .ok (.free p) → P (t.addFolder p)) :
    Ensures P (makeFolder path) (fun _ => P) P :=
  ensures_bind (keepsTree_require _ _ P) fun _ => ensures_forM fun way _ =>
    ensures_makeWay path way h

section

variable {w w' : World ρ} {path : String} {p : Place} {found : Option (File ρ)}
variable {u : Unit} {away : Place → Prop} {w₀ w₁ : World ρ}

theorem write_eq (h : w.tree.locate path = .ok (.ofFile? p found)) (content : Content ρ) :
    write path content w = .ok () { w with tree := w.tree.put p ⟨content, w.clock⟩ } := by
  refine runBind_eq_ok.mpr ⟨.ofFile? p found, w, ?_, ?_⟩
  · exact runBind_eq_ok.mpr ⟨w, w, rfl, by rw [h]; rfl⟩
  · cases found <;> rfl

/-- What is written had a free place or an old file to replace. -/
theorem hasRoom_of_write {content : Content ρ} (h : write path content w = .ok u w') :
    w.tree.HasRoom path := by
  obtain ⟨spot, w₁, hspot, h⟩ := of_runBind h
  obtain ⟨hlocate, rfl⟩ := locate_eq_ok.mp hspot
  cases spot with
  | folder => cases h
  | file p f =>
    cases (standsAt_of_locate hlocate).1
    exact ⟨some f, hlocate⟩
  | free p =>
    cases standsAt_of_locate hlocate
    exact ⟨none, hlocate⟩

/-- The world with bytes put at a place. -/
def filled (w : World ρ) (p : Place) (data : Bytes) : World ρ :=
  { w with tree := w.tree.put p ⟨.bytes data, w.clock⟩ }

section

variable (h : w.tree.locate path = .ok (.ofFile? p found)) (data : Bytes)
include h data

theorem locate_filled :
    (filled w p data).tree.locate path = .ok (.ofFile? p (some ⟨.bytes data, w.clock⟩)) :=
  locate_put h _

theorem writeBytes_eq : writeBytes path data w = .ok () (filled w p data) :=
  write_eq h _

end

/-- A text that is made while its file is open: the file is emptied first. -/
theorem writeMadeText_eq_ok {codec : Codec} {text : Except Fault Wording} :
    writeMadeText codec path text w = .ok u w' ↔ (∃ bytes, codec.encode "" = .ok bytes) ∧
      ∃ found bytes, w.tree.locate path = .ok (.ofFile? (Path.place path) found) ∧
        text >>= codec.encodeWording = .ok bytes ∧
        w' = filled (filled w (Path.place path) []) (Path.place path) bytes := by
  constructor
  · intro h
    obtain ⟨_, w₁, hempty, h₁⟩ := of_runBind h
    obtain ⟨_, w₂, hrequire, h₂⟩ := of_runBind h₁
    obtain ⟨bytes, w₃, hmake, hwrite⟩ := of_runBind h₂
    obtain ⟨hbytes, rfl⟩ := ofResult_eq_ok.mp hmake
    obtain ⟨hknown, rfl⟩ := requireKnown_eq_ok.mp hrequire
    obtain ⟨found, hlocate⟩ := hasRoom_of_write hempty
    rw [writeBytes_eq hlocate, EStateM.Result.ok.injEq] at hempty
    obtain ⟨-, rfl⟩ := hempty
    rw [writeBytes_eq (locate_filled hlocate []), EStateM.Result.ok.injEq] at hwrite
    exact ⟨hknown, found, bytes, hlocate, hbytes, hwrite.2.symm⟩
  · rintro ⟨hknown, found, bytes, hlocate, hbytes, rfl⟩
    refine runBind_eq_ok.mpr ⟨(), _, writeBytes_eq hlocate _, ?_⟩
    refine runBind_eq_ok.mpr ⟨(), _, requireKnown_eq_ok.mpr ⟨hknown, rfl⟩, ?_⟩
    refine runBind_eq_ok.mpr ⟨bytes, _, ofResult_eq_ok.mpr ⟨hbytes, rfl⟩, ?_⟩
    exact writeBytes_eq (locate_filled hlocate []) bytes

/-! ## Work in trees that differ in a few files -/

/-- What can be read with fewer files can be read with more. -/
theorem readBytes_of_thinned {data : Bytes} (h : Tree.Thinned away w.tree w₀.tree)
    (hread : readBytes path w₀ = .ok data w₁) : w₁ = w₀ ∧ readBytes path w = .ok data w := by
  obtain ⟨rfl, p, f, hlocate, rfl⟩ := readBytes_eq_ok.mp hread
  exact ⟨rfl, readBytes_eq_ok.mpr ⟨rfl, p, f, h.locate_file hlocate, rfl⟩⟩

theorem makeWay_of_thinned {way : String} (h : Tree.Thinned away w.tree w₀.tree)
    (hmake : makeWay path way w₀ = .ok u w₁) (haway : ∀ p, away p → w₁.tree.isFolder p = false) :
    ∃ w', makeWay path way w = .ok () w' ∧ Tree.Thinned away w'.tree w₁.tree := by
  obtain ⟨spot, w₂, hspot, hmake⟩ := of_runBind hmake
  obtain ⟨hlocate₀, rfl⟩ := locate_eq_ok.mp hspot
  have hlocate := locate_eq_ok.mpr ⟨locate_within h.folders.symm hlocate₀, rfl⟩
  rw [makeWay]
  cases spot with
  | folder q =>
    cases hmake
    rw [runBind_of_ok hlocate]
    exact ⟨w, rfl, h⟩
  | file q f =>
    obtain ⟨hway, rfl⟩ := runRequire_eq_ok.mp hmake
    rw [runBind_of_ok (locate_eq_ok.mpr ⟨h.locate_file hlocate₀, rfl⟩)]
    exact ⟨w, runRequire_eq_ok.mpr ⟨hway, rfl⟩, h⟩
  | free q =>
    cases hmake
    -- The new folder is at none of the places that differ.
    have hq : ¬away q := by
      intro hq
      have hfolder := haway q hq
      simp [isFolder_addFolder] at hfolder
    have hfree : (Spot.free q : Spot ρ).within w.tree = .free q := by
      have hspot : w₂.tree.locate _ = .ok (.ofFile? q none) := hlocate₀
      have hnone : w₂.tree.file? q = none := (isFolder_of_locate hspot).2.1
      rw [Spot.within, ← h.rest q hq, hnone]
      rfl
    rw [runBind_of_ok hlocate, hfree]
    exact ⟨_, rfl, h.addFolder q⟩

theorem isFolder_of_makeWays {ways : List String} (h : ways.forM (makeWay path) w = .ok u w')
    (hp : w'.tree.isFolder p = false) : w.tree.isFolder p = false := by
  by_contra hfolder
  have hstays : Ensures (fun t : Tree ρ => t.isFolder p = true) (ways.forM (makeWay path))
      (fun _ t => t.isFolder p = true) fun t => t.isFolder p = true :=
    ensures_forM fun way _ => ensures_makeWay path way fun t way q ht _ => by
      rw [isFolder_addFolder, ht, Bool.true_or]
  have hfolder' := hstays.of_ok (by simpa using hfolder) h
  simp [hp] at hfolder'

theorem isFolder_of_makeFolder (h : makeFolder path w = .ok u w')
    (hp : w'.tree.isFolder p = false) :
    w.tree.isFolder p = false := by
  obtain ⟨_, w₁, hrequire, hforM⟩ := of_runBind h
  obtain ⟨-, rfl⟩ := runRequire_eq_ok.mp hrequire
  exact isFolder_of_makeWays hforM hp

/-- A folder that can be made with fewer files can be made with more. -/
theorem makeFolder_of_thinned (h : Tree.Thinned away w.tree w₀.tree)
    (hmake : makeFolder path w₀ = .ok u w₁) (haway : ∀ p, away p → w₁.tree.isFolder p = false) :
    ∃ w', makeFolder path w = .ok () w' ∧ Tree.Thinned away w'.tree w₁.tree := by
  have hways (ways : List String) (w w₀ : World ρ) (h : Tree.Thinned away w.tree w₀.tree)
      (hmake : ways.forM (makeWay path) w₀ = .ok u w₁) :
      ∃ w', ways.forM (makeWay path) w = .ok () w' ∧ Tree.Thinned away w'.tree w₁.tree := by
    induction ways generalizing w w₀ with
    | nil =>
      cases hmake
      exact ⟨w, rfl, h⟩
    | cons way rest ih =>
      obtain ⟨_, w₂, hway, hrest⟩ := of_runBind hmake
      obtain ⟨w₃, hway', h₃⟩ := makeWay_of_thinned h hway fun p hp =>
        isFolder_of_makeWays hrest (haway p hp)
      obtain ⟨w', hrest', h'⟩ := ih w₃ w₂ h₃ hrest
      exact ⟨w', runBind_eq_ok.mpr ⟨_, w₃, hway', hrest'⟩, h'⟩
  obtain ⟨_, w₂, hrequire, hforM⟩ := of_runBind hmake
  obtain ⟨hpath, rfl⟩ := runRequire_eq_ok.mp hrequire
  obtain ⟨w', hmake', h'⟩ := hways _ w w₂ h hforM
  exact ⟨w', runBind_eq_ok.mpr ⟨(), w, runRequire_eq_ok.mpr ⟨hpath, rfl⟩, hmake'⟩, h'⟩

end

/-! ## Tasks -/

section

variable (h : ∀ task ∈ tasks, Ensures P task (fun a t => P t ∧ S task a) E)
include h

/-- Tasks one after another: each keeps the condition for the next. -/
theorem ensures_inTurn : Ensures P (inTurn tasks) (fun as t => P t ∧ Forall₂ S tasks as) E := by
  induction tasks with
  | nil => exact ensures_pure fun t ht => ⟨ht, .nil⟩
  | cons task rest ih =>
    refine ensures_bind (h task mem_cons_self) fun a => ?_
    rintro w ⟨hw, ha⟩
    have hrest := ih (forall_mem_cons.mp h).2
    have hall : Ensures P (inTurn rest >>= fun as => pure (a :: as))
        (fun as t => P t ∧ Forall₂ S (task :: rest) as) E :=
      ensures_bind hrest fun as => ensures_pure fun t ht => ⟨ht.1, .cons ha ht.2⟩
    exact hall w hw

theorem ensures_atOnce (hE : ∀ task ∈ tasks, Ensures E task (fun _ => E) E) :
    Ensures P (atOnce tasks) (fun as t => P t ∧ Forall₂ S tasks as) E := by
  induction tasks generalizing P S with
  | nil => exact ensures_pure fun t ht => ⟨ht, .nil⟩
  | cons task rest ih =>
    intro w hw
    have hrestE := (forall_mem_cons.mp hE).2
    have hrest := ih (forall_mem_cons.mp h).2 hrestE
    have hfirst := h task mem_cons_self w hw
    unfold atOnce
    cases htask : task w with
    | ok a w₁ =>
      rw [htask] at hfirst
      have hthen := hrest w₁ hfirst.1
      cases hothers : atOnce rest w₁ with
      | ok as w₂ =>
        rw [hothers] at hthen
        simp only [hothers]
        exact ⟨hthen.1, .cons hfirst.2 hthen.2⟩
      | error f w₂ =>
        rw [hothers] at hthen
        simp only [hothers]
        exact hthen
    | error f w₁ =>
      rw [htask] at hfirst
      -- after a failure the other tasks only keep what holds then
      have hthen := @ih E (fun _ _ => True) (by simpa using hrestE) hrestE w₁ hfirst
      cases hothers : atOnce rest w₁ <;> rw [hothers] at hthen <;> simp only [hothers]
      · exact hthen.1
      · exact hthen

end

/-- Tasks that run at once ensure no less than tasks in turn. -/
theorem ensures_runTasks (parallel : Bool)
    (h : ∀ task ∈ tasks, Ensures P task (fun a t => P t ∧ S task a) E)
    (hE : ∀ task ∈ tasks, Ensures E task (fun _ => E) E) :
    Ensures P (runTasks parallel tasks) (fun as t => P t ∧ Forall₂ S tasks as) E := by
  unfold runTasks
  split
  · intro w hw
    have hall := ensures_atOnce h hE w hw
    unfold silently
    cases hrun : atOnce tasks w <;> simpa [hrun] using hall
  · exact ensures_inTurn h

end Session

end NovelScript
