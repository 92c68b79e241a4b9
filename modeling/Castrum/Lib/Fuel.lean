import Castrum.Lib.StateOption

/-!
# Castrum — computations that may run out of fuel

A recursion that is not structural is written over fuel. In `Option` the end of the fuel looks like a
failure; in `Fueled` it is told apart, and nothing recovers from it. `Settles I m m' Q` is total
correctness of one computation in both monads: from a state in `I`, the run `m` does not come to the
end of its fuel, `m'` ends as it does, and a result satisfies `Q` and leaves a state in `I`.

* `Settles.pure`, `Settles.failure`, `Settles.bind`, `Settles.liftOption`, `Settles.mapM` — one rule
  for each way to build a computation.
-/

namespace Castrum

/-- How a computation with fuel ends. -/
inductive Fueled (α : Type) where
  | done (a : α)
  | failed
  | outOfFuel

namespace Fueled

def bind {α β : Type} : Fueled α → (α → Fueled β) → Fueled β
  | done a, f => f a
  | failed, _ => failed
  | outOfFuel, _ => outOfFuel

def orElse {α : Type} : Fueled α → (Unit → Fueled α) → Fueled α
  | failed, y => y ()
  | x, _ => x

instance : Failing Fueled where
  pure := done
  bind := bind
  failure := failed
  orElse := orElse

instance : LawfulMonad Fueled :=
  LawfulMonad.mk' Fueled
    (fun x => by cases x <;> rfl)
    (fun _ _ => rfl)
    (fun x _ _ => by cases x <;> rfl)

/-- A computation that has ended. -/
def ended {α : Type} : Option α → Fueled α
  | some a => done a
  | none => failed

theorem ended_injective {α : Type} {o o' : Option α} (h : ended o = ended o') : o = o' := by
  cases o with
  | none =>
    cases o' with
    | none => rfl
    | some a' => cases h
  | some a =>
    cases o' with
    | none => cases h
    | some a' =>
      cases h
      rfl

theorem ended_bind {α β : Type} {f : α → Fueled β} {g : α → Option β} (o : Option α)
    (h : ∀ a ∈ o, f a = ended (g a)) : (ended o).bind f = ended (o.bind g) := by
  cases o with
  | none => rfl
  | some a => exact h a rfl

end Fueled

/-- From a state in `I` both computations end, in the same way, with a result in `Q` and a state in
`I` if with one at all. -/
def Settles {σ α : Type} (I : σ → Prop) (m : StateT σ Fueled α) (m' : StateT σ Option α)
    (Q : α → Prop) : Prop :=
  ∀ s, I s → m s = Fueled.ended (m' s) ∧ ∀ r ∈ m' s, Q r.1 ∧ I r.2

namespace Settles

variable {σ α β : Type} {I : σ → Prop} {m : StateT σ Fueled α} {m' : StateT σ Option α}
  {Q Q' : α → Prop} {f : α → StateT σ Fueled β} {f' : α → StateT σ Option β} {R : β → Prop}

theorem imp (h : Settles I m m' Q) (hQ : ∀ a, Q a → Q' a) : Settles I m m' Q' := by
  intro s hs
  obtain ⟨hend, hres⟩ := h s hs
  refine ⟨hend, fun r hr => ?_⟩
  obtain ⟨hq, hi⟩ := hres r hr
  exact ⟨hQ _ hq, hi⟩

theorem pure {a : α} (ha : Q a) : Settles I (Pure.pure a) (Pure.pure a) Q := by
  intro s hs
  refine ⟨rfl, fun r hr => ?_⟩
  obtain rfl : (a, s) = r := Option.some.inj hr
  exact ⟨ha, hs⟩

theorem failure : Settles I (Alternative.failure : StateT σ Fueled α) Alternative.failure Q := by
  intro s _
  exact ⟨rfl, fun r hr => nomatch hr⟩

theorem bind (h : Settles I m m' Q) (hf : ∀ a, Q a → Settles I (f a) (f' a) R) :
    Settles I (m >>= f) (m' >>= f') R := by
  intro s hs
  obtain ⟨hend, hres⟩ := h s hs
  constructor
  · show (m s).bind (fun p => f p.1 p.2) = Fueled.ended ((m' s).bind fun p => f' p.1 p.2)
    rw [hend]
    refine Fueled.ended_bind _ fun p hp => ?_
    obtain ⟨hq, hi⟩ := hres p hp
    exact (hf p.1 hq p.2 hi).1
  · intro r hr
    obtain ⟨p, hp, hr⟩ := Option.bind_eq_some_iff.mp hr
    obtain ⟨hq, hi⟩ := hres p hp
    exact (hf p.1 hq p.2 hi).2 r hr

theorem liftOption {o : Option α} (h : ∀ a, o = some a → Q a) :
    Settles I (Castrum.liftOption o) (Castrum.liftOption o) Q := by
  cases o with
  | none => exact failure
  | some a => exact pure (h a rfl)

/-- An option in front, of which nothing is needed. -/
theorem option_bind {o : Option α} (hf : ∀ a, Settles I (f a) (f' a) R) :
    Settles I (Castrum.liftOption o >>= f) (Castrum.liftOption o >>= f') R :=
  (liftOption (Q := fun _ => True) fun _ _ => trivial).bind fun a _ => hf a

/-- A computation run over a list establishes its part for each element. -/
theorem mapM {γ : Type} {g : γ → StateT σ Fueled β} {g' : γ → StateT σ Option β} {P : γ → Prop}
    {xs : List γ} (h : ∀ x ∈ xs, Settles I (g x) (g' x) fun _ => P x) :
    Settles I (xs.mapM g) (xs.mapM g') fun _ => ∀ x ∈ xs, P x := by
  induction xs with
  | nil =>
    rw [List.mapM_nil, List.mapM_nil]
    exact pure (List.forall_mem_nil _)
  | cons x xs ih =>
    rw [List.mapM_cons, List.mapM_cons]
    refine bind (h x (List.mem_cons_self ..)) fun _ hx => ?_
    refine bind (ih fun z hz => h z (List.mem_cons_of_mem _ hz)) fun _ hxs => ?_
    exact pure (List.forall_mem_cons.mpr ⟨hx, hxs⟩)

end Settles

end Castrum
