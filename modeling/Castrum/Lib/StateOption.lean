import Mathlib.Data.List.Forall2

/-!
# Castrum — invariants of stateful computations that may fail

A computation in `StateT σ Option` either fails or returns a value and a new state.
`Ensures I m Q` is partial correctness: from a state that satisfies the invariant `I`, a result of
`m` satisfies `Q` and the new state satisfies `I` again. Nothing is said of a computation that
fails.

* `Ensures.pure`, `Ensures.bind`, `Ensures.liftOption`, `Ensures.mapM` — one rule for each way to
  build a computation;
* `Ensures.imp` — weakening of what is ensured;
* `forall₂_of_mapM`, `Forall₂.forall_iff`, `Forall₂.exists_iff` — a run over a list relates its
  elements to the results, and what holds of related elements holds of related lists.
-/

namespace Castrum

/-- A monad with one way to fail. -/
class Failing (M : Type → Type) extends Monad M, Alternative M

instance : Failing Option where

/-- An optional value as a computation that leaves the state alone. -/
def liftOption {σ α : Type} {M : Type → Type} [Failing M] (o : Option α) : StateT σ M α := fun s =>
  match o with
  | none => failure
  | some a => Pure.pure (a, s)

/-- From a state in `I`, every result is in `Q` and every new state in `I`. -/
def Ensures {σ α : Type} (I : σ → Prop) (m : StateT σ Option α) (Q : α → Prop) : Prop :=
  ∀ s r, I s → m s = some r → Q r.1 ∧ I r.2

namespace Ensures

variable {σ α β : Type} {I : σ → Prop} {m : StateT σ Option α} {Q Q' : α → Prop}
  {f : α → StateT σ Option β} {R : β → Prop}

theorem imp (h : Ensures I m Q) (hQ : ∀ a, Q a → Q' a) : Ensures I m Q' := by
  intro s r hs hr
  obtain ⟨hq, hi⟩ := h s r hs hr
  exact ⟨hQ _ hq, hi⟩

theorem pure {a : α} (ha : Q a) : Ensures I (Pure.pure a) Q := by
  intro s r hs hr
  obtain rfl : (a, s) = r := Option.some.inj hr
  exact ⟨ha, hs⟩

theorem failure : Ensures I (Alternative.failure : StateT σ Option α) Q := by
  intro s r _ hr
  cases hr

theorem bind (h : Ensures I m Q) (hf : ∀ a, Q a → Ensures I (f a) R) :
    Ensures I (m >>= f) R := by
  intro s r hs hr
  change (m s).bind (fun p => f p.1 p.2) = some r at hr
  obtain ⟨p, hp, hr⟩ := Option.bind_eq_some_iff.mp hr
  obtain ⟨hq, hi⟩ := h s p hs hp
  exact hf p.1 hq p.2 r hi hr

theorem liftOption {o : Option α} (h : ∀ a, o = some a → Q a) :
    Ensures I (Castrum.liftOption o) Q := by
  intro s r hs hr
  cases o with
  | none => cases hr
  | some a =>
    obtain rfl : (a, s) = r := Option.some.inj hr
    exact ⟨h a rfl, hs⟩

/-- Results of a computation run over a list are related to its elements one by one. -/
theorem mapM {P : α → β → Prop} {xs : List α} (h : ∀ x ∈ xs, Ensures I (f x) (P x)) :
    Ensures I (xs.mapM f) (fun ys => List.Forall₂ P xs ys) := by
  induction xs with
  | nil =>
    rw [List.mapM_nil]
    exact pure .nil
  | cons x xs ih =>
    rw [List.mapM_cons]
    refine bind (h x (by simp)) fun y hy => ?_
    refine bind (ih fun z hz => h z (List.mem_cons_of_mem _ hz)) fun ys hys => ?_
    exact pure (.cons hy hys)

end Ensures

/-! ## Related lists -/

theorem forall₂_of_mapM {α β : Type} {f : α → Option β} {xs : List α} {ys : List β}
    (h : xs.mapM f = some ys) : List.Forall₂ (fun x y => f x = some y) xs ys := by
  induction xs generalizing ys with
  | nil =>
    obtain rfl := Option.some.inj h
    exact .nil
  | cons x xs ih =>
    rw [List.mapM_cons] at h
    obtain ⟨y, hy, h⟩ := Option.bind_eq_some_iff.mp h
    obtain ⟨zs, hzs, h⟩ := Option.bind_eq_some_iff.mp h
    obtain rfl := Option.some.inj h
    exact .cons hy (ih hzs)

section

variable {α β : Type} {R : α → β → Prop} {xs : List α} {ys : List β} {A : α → Prop} {B : β → Prop}

theorem Forall₂.forall_iff (h : List.Forall₂ R xs ys) (hR : ∀ x y, R x y → (A x ↔ B y)) :
    (∀ x ∈ xs, A x) ↔ ∀ y ∈ ys, B y := by
  induction h with
  | nil => simp
  | cons hxy _ ih => rw [List.forall_mem_cons, List.forall_mem_cons, hR _ _ hxy, ih]

theorem Forall₂.exists_iff (h : List.Forall₂ R xs ys) (hR : ∀ x y, R x y → (A x ↔ B y)) :
    (∃ x ∈ xs, A x) ↔ ∃ y ∈ ys, B y := by
  induction h with
  | nil => simp
  | cons hxy _ ih => rw [List.exists_mem_cons_iff, List.exists_mem_cons_iff, hR _ _ hxy, ih]

theorem Forall₂.getElem? (h : List.Forall₂ R xs ys) (i : Nat) : Option.Rel R xs[i]? ys[i]? := by
  induction h generalizing i with
  | nil => exact .none
  | cons hxy _ ih =>
    cases i with
    | zero => exact .some hxy
    | succ i => exact ih i

end

end Castrum
