import Castrum.Lib.Scan
import Mathlib.Tactic

/-!
# Castrum — runs of a transition function

A component with many parties is a partial step function `step : σ → α → Option σ`: the action
says which party moves and how, `none` that the move is not enabled. A `Run` is a finite sequence
of enabled moves, each of which meets a side condition `cond` on the state it starts from.

* `Run.invariant` — what holds initially and is kept by every step holds at the end of every run;
* `guard_eq_some` — what an enabled move under a guard says;
* `Run.of_exec` — a concrete list of actions gives a run;
* `Run.of_prefixes` — and one that meets `cond` where each of its moves does, given what came before.
-/

namespace Castrum

section

variable {σ α : Type} (step : σ → α → Option σ) (cond : σ → α → Prop)

/-- The states reached from `s` by enabled moves that meet `cond`. -/
inductive Run (s : σ) : σ → Prop where
  | refl : Run s s
  | tail {t u : σ} {a : α} : Run s t → cond t a → step t a = some u → Run s u

variable {step cond}

/-- **The invariant rule.** The step hypothesis is asked for only where the side condition of the
run holds. -/
theorem Run.invariant {P : σ → Prop} {s t : σ} (hrun : Run step cond s t) (hinit : P s)
    (hstep : ∀ t a u, P t → cond t a → step t a = some u → P u) : P t := by
  induction hrun with
  | refl => exact hinit
  | tail _ hc hs ih => exact hstep _ _ _ ih hc hs

/-- A move under a guard: the guard holds, and the state is the one it gives. -/
theorem guard_eq_some {c : Prop} [Decidable c] {s t : σ} (h : (if c then some s else none) = some t) :
    c ∧ s = t := by
  obtain ⟨hc, h⟩ := Option.ite_none_right_eq_some.mp h
  exact ⟨hc, Option.some.inj h⟩

/-- Perform a list of actions in order. -/
def exec (step : σ → α → Option σ) : σ → List α → Option σ
  | s, [] => some s
  | s, a :: as => (step s a).bind (exec step · as)

theorem Run.append_exec {s t u : σ} (hrun : Run step (fun _ _ => True) s t) (as : List α)
    (h : exec step t as = some u) : Run step (fun _ _ => True) s u := by
  induction as generalizing t with
  | nil =>
    rw [show exec step t [] = some t from rfl] at h
    exact Option.some.inj h ▸ hrun
  | cons a as ih =>
    rw [exec] at h
    obtain ⟨t', ht', h⟩ := Option.bind_eq_some_iff.mp h
    exact ih (hrun.tail trivial ht') h

/-- A list of actions that performs is an unconditional run. -/
theorem Run.of_exec {s u : σ} (as : List α) (h : exec step s as = some u) :
    Run step (fun _ _ => True) s u :=
  Run.append_exec .refl as h

theorem exec_append (s : σ) (as bs : List α) :
    exec step s (as ++ bs) = (exec step s as).bind (exec step · bs) := by
  induction as generalizing s with
  | nil => rfl
  | cons a as ih =>
    rw [List.cons_append, exec, exec, Option.bind_assoc]
    congr 1
    funext t
    exact ih t

/-- A list of actions that performs, cut before its last one. -/
theorem exec_concat {s u : σ} {as : List α} {a : α} (h : exec step s (as ++ [a]) = some u) :
    ∃ t, exec step s as = some t ∧ step t a = some u := by
  rw [exec_append] at h
  obtain ⟨t, ht, h⟩ := Option.bind_eq_some_iff.mp h
  obtain ⟨u', hu', h⟩ := Option.bind_eq_some_iff.mp h
  exact ⟨t, ht, hu'.trans h⟩

/-- A list of actions that performs, each of which meets `cond` in the state it starts from. -/
theorem Run.of_prefixes {s u : σ} {as : List α} (h : exec step s as = some u)
    (hcond : ∀ bs a t, bs ++ [a] <+: as → exec step s bs = some t → cond t a) : Run step cond s u := by
  induction as using List.reverseRecOn generalizing u with
  | nil => exact Option.some.inj h ▸ .refl
  | append_singleton as a ih =>
    obtain ⟨t, ht, hstep⟩ := exec_concat h
    have hrun : Run step cond s t := by
      apply ih ht
      intro bs b t' hbs
      exact hcond bs b t' (hbs.trans (List.prefix_append as [a]))
    exact hrun.tail (hcond as a t List.prefix_rfl ht) hstep

end

end Castrum
