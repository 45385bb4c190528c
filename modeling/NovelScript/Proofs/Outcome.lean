import Mathlib.Algebra.GroupWithZero.Nat
import Mathlib.Algebra.Ring.Int.Defs
import Mathlib.Data.List.Forall2
import NovelScript.Reader
import NovelScript.Version

/-!
# Outcomes of steps

Every part of the library is a chain of steps that may fail. The lemmas here take such a chain
apart: it succeeds exactly if each of its steps does, each with the result that the next one goes on
with. There is one family for plain results, one for computations with a state, and one for readers.

Powers and sums of numbers have the instances of Mathlib in everything that builds on this module.
-/

namespace NovelScript

open List

variable {α β σ : Type}
variable {x : Except Fault α} {f : α → Except Fault β} {b : β} {holds : Bool} {fault : Fault}
  {a : α} {l xs : List α} {r : β × σ} {γ : Type} {R : α → β → Prop} {ys : List β} {s s' : σ}
  {S : β → γ → Prop} {zs : List γ}

/-! ## Plain results -/

/-- A step succeeds if both of its parts do. -/
theorem bind_eq_ok : (x >>= f) = .ok b ↔ ∃ a, x = .ok a ∧ f a = .ok b := by
  cases x with
  | error e | ok a => simp [bind, Except.bind]

theorem of_bind (h : (x >>= f) = .ok b) : ∃ a, x = .ok a ∧ f a = .ok b := bind_eq_ok.mp h

@[simp] theorem ok_bind (a : α) (f : α → Except Fault β) : (Except.ok a >>= f) = f a := rfl

@[simp] theorem error_bind (e : Fault) (f : α → Except Fault β) :
    ((Except.error e : Except Fault α) >>= f) = .error e := rfl

@[simp] theorem pure_eq_ok (a : α) : (pure a : Except Fault α) = .ok a := rfl

@[simp] theorem require_eq_ok {u : Unit} :
    (require holds fault : Except Fault Unit) = .ok u ↔ holds = true := by
  unfold require
  cases holds <;> simp

@[simp] theorem orFault_eq_ok {v : Option α} : orFault v fault = .ok a ↔ v = some a := by
  cases v <;> simp [orFault]

theorem noting_eq_ok {note : String} : noting note x = .ok a ↔ x = .ok a := by
  cases x <;> simp [noting]

/-- A result comes from a result. -/
theorem exists_ok_of_map {f : α → β} (h : (x.map f).toOption = some b) :
    ∃ a, x = .ok a ∧ f a = b := by
  cases x with
  | error => cases h
  | ok a => exact ⟨a, rfl, Option.some.inj h⟩

theorem requireVersion_eq_ok {version : Int} (h : 200 ≤ version ∧ version < 600) :
    (requireVersion version : Except Fault Unit) = .ok () := by
  simp [requireVersion, isSupportedVersion, h.1, h.2]

/-- A list of steps succeeds exactly if each of them does. -/
theorem mapM_eq_ok {r : List β} : l.mapM f = .ok r ↔ Forall₂ (fun a b => f a = .ok b) l r := by
  induction l generalizing r with
  | nil => simp [eq_comm]
  | cons a l ih =>
    rw [mapM_cons, bind_eq_ok]
    constructor
    · rintro ⟨b, hb, h⟩
      obtain ⟨bs, hbs, h⟩ := of_bind h
      cases h
      exact Forall₂.cons hb (ih.mp hbs)
    · intro h
      cases h with
      | cons hb hbs => exact ⟨_, hb, bind_eq_ok.mpr ⟨_, ih.mpr hbs, rfl⟩⟩

/-- A step that never fails maps a list. -/
theorem mapM_ok {g : α → β} (h : ∀ a ∈ l, f a = .ok (g a)) : l.mapM f = .ok (l.map g) := by
  rw [mapM_eq_ok, forall₂_map_right_iff, forall₂_same]
  exact h

/-- Two relations along one list hold together. -/
theorem forall₂_zip (hr : Forall₂ R xs ys) (hs : Forall₂ S ys zs) :
    Forall₂ (fun x (yz : β × γ) => R x yz.1 ∧ S yz.1 yz.2) xs (ys.zip zs) := by
  induction hr generalizing zs with
  | nil => exact Forall₂.nil
  | cons hhead _ ih =>
    cases hs with
    | cons hhead' htail => exact Forall₂.cons ⟨hhead, hhead'⟩ (ih htail)

/-- Lists that are related to a third are related. -/
theorem forall₂_comp (hr : Forall₂ R xs ys)
    (hs : Forall₂ S ys zs) : Forall₂ (fun x z => ∃ y, R x y ∧ S y z) xs zs := by
  induction hr generalizing zs with
  | nil =>
    cases hs
    exact Forall₂.nil
  | cons hhead _ ih =>
    cases hs with
    | cons hhead' htail => exact Forall₂.cons ⟨_, hhead, hhead'⟩ (ih htail)

/-- An item has one that it is related to. -/
theorem exists_of_mem_forall₂_right (h : Forall₂ R xs ys) {y : β} (hy : y ∈ ys) :
    ∃ x ∈ xs, R x y := by
  induction h with
  | nil => cases hy
  | cons hhead _ ih =>
    rcases mem_cons.mp hy with rfl | hy
    · exact ⟨_, mem_cons_self, hhead⟩
    · obtain ⟨x, hx, hr⟩ := ih hy
      exact ⟨x, mem_cons_of_mem _ hx, hr⟩

theorem exists_getElem?_of_forall₂ (h : Forall₂ R xs ys) {i : Nat} {x : α}
    (hx : xs[i]? = some x) : ∃ y, ys[i]? = some y ∧ R x y := by
  induction h generalizing i with
  | nil => cases hx
  | cons hxy _ ih =>
    cases i with
    | zero =>
      cases hx
      exact ⟨_, rfl, hxy⟩
    | succ i => exact ih hx

/-! ## Computations with a state -/

theorem stateBind_eq_ok {x : StateT σ (Except Fault) α} {f : α → StateT σ (Except Fault) β} :
    (x >>= f) s = .ok r ↔ ∃ a s', x s = .ok (a, s') ∧ f a s' = .ok r := by
  show (x s >>= fun p => f p.1 p.2) = .ok r ↔ _
  rw [bind_eq_ok]
  exact ⟨fun ⟨p, h⟩ => ⟨p.1, p.2, h⟩, fun ⟨a, s', h⟩ => ⟨(a, s'), h⟩⟩

theorem of_stateBind {x : StateT σ (Except Fault) α} {f : α → StateT σ (Except Fault) β}
    (h : (x >>= f) s = .ok r) : ∃ a s', x s = .ok (a, s') ∧ f a s' = .ok r :=
  stateBind_eq_ok.mp h

@[simp] theorem statePure_eq_ok {b : α} :
    (pure a : StateT σ (Except Fault) α) s = .ok (b, s') ↔ b = a ∧ s' = s := by
  show Except.ok (a, s) = .ok (b, s') ↔ _
  rw [Except.ok.injEq, Prod.mk.injEq, eq_comm, @eq_comm _ s]

@[simp] theorem stateThrow_ne_ok {e : Fault} {r : α × σ} :
    ¬(throw e : StateT σ (Except Fault) α) s = .ok r := by
  intro h
  cases h

theorem stateLift_eq_ok :
    (liftM x : StateT σ (Except Fault) α) s = .ok (a, s') ↔ x = .ok a ∧ s' = s := by
  show (x >>= fun a => Except.ok (a, s)) = .ok (a, s') ↔ _
  cases x with
  | error e => simp
  | ok b =>
    rw [ok_bind, Except.ok.injEq, Except.ok.injEq, Prod.mk.injEq, @eq_comm _ s]

theorem stateLift_bind {f : α → StateT σ (Except Fault) β} :
    ((liftM x : StateT σ (Except Fault) α) >>= f) s = .ok r ↔ ∃ a, x = .ok a ∧ f a s = .ok r := by
  rw [stateBind_eq_ok]
  constructor
  · rintro ⟨a, s', hlift, hf⟩
    obtain ⟨hx, rfl⟩ := stateLift_eq_ok.mp hlift
    exact ⟨a, hx, hf⟩
  · rintro ⟨a, h, hf⟩
    exact ⟨a, s, stateLift_eq_ok.mpr ⟨h, rfl⟩, hf⟩

theorem stateRequire_bind {f : Unit → StateT σ (Except Fault) β} :
    ((require holds fault : StateT σ (Except Fault) Unit) >>= f) s = .ok r ↔
      holds = true ∧ f () s = .ok r := by
  cases holds with
  | true => exact ⟨fun h => ⟨rfl, h⟩, fun h => h.2⟩
  | false =>
    constructor
    · intro h
      cases h
    · intro h
      exact absurd h.1 Bool.false_ne_true

/-- A step that keeps the state does so over a list. -/
theorem stateMapM_eq_ok {f : α → StateT σ (Except Fault) β} {r : List β}
    (hf : ∀ a b s s', f a s = .ok (b, s') → R a b ∧ s' = s) (h : l.mapM f s = .ok (r, s')) :
    Forall₂ R l r ∧ s' = s := by
  induction l generalizing r s with
  | nil =>
    obtain ⟨rfl, rfl⟩ := statePure_eq_ok.mp h
    exact ⟨.nil, rfl⟩
  | cons a l ih =>
    rw [mapM_cons] at h
    obtain ⟨b, s₁, hb, h⟩ := of_stateBind h
    obtain ⟨bs, s₂, hbs, h⟩ := of_stateBind h
    obtain ⟨rfl, rfl⟩ := statePure_eq_ok.mp h
    obtain ⟨hhead, rfl⟩ := hf _ _ _ _ hb
    obtain ⟨htail, rfl⟩ := ih hbs
    exact ⟨.cons hhead htail, rfl⟩

end NovelScript
