import NovelScript.Proofs.Bytes

/-!
# Readers and the bytes they take

A reader takes bytes for a result if it gives that result and moves past exactly these bytes,
whatever follows them. Readers in a row take their bytes one after another, so that what a writer
puts together is taken apart by the same steps.
-/

namespace NovelScript.Reader

open List

variable {α β γ : Type}
variable {bytes bytes' : Bytes} {n : Nat} {fault : Fault} {codec : Codec}
variable {r : Reader α} {k : α → Reader β} {a : α} {b : β}

/-- A reader gives a result for some bytes and stops behind them. -/
def Takes (reader : Reader α) (bytes : Bytes) (a : α) : Prop :=
  ∀ (c : Cursor) (rest : Bytes), c.rest = bytes ++ rest →
    reader c = .ok a { c with pos := c.pos + bytes.length, rest }

theorem takes_pure (a : α) : Takes (pure a : Reader α) [] a := by
  intro c rest h
  rw [nil_append] at h
  rw [← h]
  rfl

/-- Readers take one part after the other. -/
theorem takes_bind (hr : Takes r bytes a) (hk : Takes (k a) bytes' b) :
    Takes (r >>= k) (bytes ++ bytes') b := by
  intro c rest h
  rw [append_assoc] at h
  show EStateM.bind r k c = _
  rw [EStateM.bind, hr c _ h]
  show k a _ = _
  rw [hk _ rest rfl, length_append, Nat.add_assoc]

/-- A step may take nothing. -/
theorem takes_step (hr : Takes r [] a) (hk : Takes (k a) bytes b) : Takes (r >>= k) bytes b :=
  takes_bind hr hk

/-- The last step may take nothing. -/
theorem takes_last (hr : Takes r bytes a) (hk : Takes (k a) [] b) : Takes (r >>= k) bytes b := by
  have h := takes_bind hr hk
  rw [append_nil] at h
  exact h

theorem takes_map (f : α → β) (hr : Takes r bytes a) :
    Takes (r >>= fun x => pure (f x)) bytes (f a) :=
  takes_last hr (takes_pure (f a))

theorem takes_take (h : bytes.length = n) : Takes (take n) bytes bytes := by
  intro c rest hc
  simp only [take, hc, take_left' h, drop_left' h, h, if_true]

theorem takes_skip (h : bytes.length = n) : Takes (skip n) bytes () := by
  intro c rest hc
  simp only [skip, hc, drop_left' h, h]

theorem takes_ofExcept {x : Except Fault α} (h : x = .ok a) : Takes (ofExcept x) [] a := by
  intro c rest hc
  rw [nil_append] at hc
  rw [h, ← hc]
  rfl

theorem takes_require {holds : Bool} (h : holds = true) :
    Takes (require holds fault : Reader Unit) [] () := by
  rw [h]
  exact takes_pure ()

theorem takes_unsigned (h : bytes.length = n) : Takes (unsigned n) bytes bytes.toNat :=
  takes_map Bytes.toNat (takes_take h)

theorem takes_signed (h : bytes.length = n) : Takes (signed n) bytes bytes.toInt :=
  takes_map Bytes.toInt (takes_take h)

theorem takes_text {s : String} (h : bytes.length = n) (hs : codec.decode bytes = .ok s) :
    Takes (text codec n) bytes s :=
  takes_last (takes_take h) (takes_ofExcept hs)

/-- Items are taken one by one. -/
theorem takes_mapM {f : α → Reader β} {W : γ → Bytes → Prop} {Q : α → γ → β → Prop} {l : List α}
    {xs : List γ} {chunks : List Bytes}
    (h : Forall₂ (fun a x => ∀ chunk, W x chunk → ∃ r, Takes (f a) chunk r ∧ Q a x r) l xs)
    (hw : Forall₂ W xs chunks) :
    ∃ rs, Takes (l.mapM f) chunks.flatten rs ∧ Forall₂ (fun q r => Q q.1 q.2 r) (l.zip xs) rs := by
  induction h generalizing chunks with
  | nil =>
    cases hw
    exact ⟨[], takes_pure [], Forall₂.nil⟩
  | cons hhead _ ih =>
    cases hw with
    | cons hchunk hchunks =>
      obtain ⟨r, hr, hq⟩ := hhead _ hchunk
      obtain ⟨rs, hrs, hqs⟩ := ih hchunks
      refine ⟨r :: rs, ?_, Forall₂.cons hq hqs⟩
      rw [mapM_cons]
      exact takes_bind hr (takes_map _ hrs)

/-! ## Failing -/

/-- A reader fails on some bytes, whatever follows them. -/
def FailsOn (reader : Reader α) (bytes : Bytes) (fault : Fault) : Prop :=
  ∀ (c : Cursor) (rest : Bytes), c.rest = bytes ++ rest → ∃ c', reader c = .error fault c'

theorem failsOn_bind (hr : FailsOn r bytes fault) : FailsOn (r >>= k) bytes fault := by
  intro c rest hc
  obtain ⟨c', hfail⟩ := hr c rest hc
  refine ⟨c', ?_⟩
  show EStateM.bind r k c = _
  rw [EStateM.bind, hfail]

/-- A later part may fail. -/
theorem failsOn_after (hr : Takes r bytes a) (hk : FailsOn (k a) bytes' fault) :
    FailsOn (r >>= k) (bytes ++ bytes') fault := by
  intro c rest hc
  rw [append_assoc] at hc
  obtain ⟨c', hfail⟩ := hk { c with pos := c.pos + bytes.length, rest := bytes' ++ rest } rest rfl
  refine ⟨c', ?_⟩
  show EStateM.bind r k c = _
  rw [EStateM.bind, hr c _ hc]
  exact hfail

/-- Bytes that are no text fail. -/
theorem failsOn_text (h : bytes.length = n) (hf : codec.decode bytes = .error fault) :
    FailsOn (text codec n) bytes fault := by
  have hlast : FailsOn (ofExcept (codec.decode bytes)) [] fault := by
    intro c rest _
    rw [hf]
    exact ⟨c, rfl⟩
  have hfail := failsOn_after (k := fun b => ofExcept (codec.decode b)) (takes_take h) hlast
  rw [append_nil] at hfail
  exact hfail

/-! ## Running -/

/-- A reader that takes all bytes succeeds. -/
theorem runOn_of_takes (h : Takes r bytes a) : r.runOn bytes = .ok a := by
  unfold runOn
  rw [h (Cursor.start bytes) [] (append_nil _).symm]

end NovelScript.Reader
