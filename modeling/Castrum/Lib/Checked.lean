import Castrum.Lib.Output

/-!
# Castrum — reading a slice at computed positions

A scanner that keeps an index looks at what its slice holds from there on, and cuts ranges out of
it. A range that does not fit is a panic. `Safe P x` says that `x` does not panic and that what it
returns has the property `P`; it goes through a computation step by step.

* `Safe.bind` — the rule for a sequence of steps;
* `OkUnless.bind` — the rule for steps that panic for one reason only;
* `safe_sliceOf` / `sliceOf_of_drop` — a range in bounds, and what it holds;
* `drop_of_drop` — what is behind something that was read.
-/

namespace Castrum

/-! ## Computations without a panic

Panics are told apart from errors. A computation is safe if it does not panic, whatever it returns.
-/

section

variable {ε α β : Type} {P : α → Prop} {Q : β → Prop}

/-- It does not panic, and what it returns has the property. -/
def Safe (P : α → Prop) : Except (Failure ε) α → Prop
  | .ok a => P a
  | .error (.fail _) => True
  | .error .panic => False

theorem Safe.ok {a : α} (h : P a) : Safe P (.ok a : Except (Failure ε) α) := h

theorem Safe.fail (e : ε) : Safe P (.error (.fail e)) := trivial

theorem Safe.ne_panic {x : Except (Failure ε) α} (h : Safe P x) : x ≠ .error .panic := by
  rintro rfl
  exact h

theorem Safe.imp {P' : α → Prop} {x : Except (Failure ε) α} (h : Safe P x)
    (himp : ∀ a, P a → P' a) : Safe P' x := by
  cases x with
  | ok a => exact himp a h
  | error e =>
    cases e with
    | fail e => trivial
    | panic => exact h.elim

/-- **A sequence of steps is safe** if the first is, and the next one on all it can return. -/
theorem Safe.bind {x : Except (Failure ε) α} {f : α → Except (Failure ε) β} (hx : Safe P x)
    (hf : ∀ a, P a → Safe Q (f a)) : Safe Q (x >>= f) := by
  cases x with
  | ok a => exact hf a hx
  | error e =>
    cases e with
    | fail e => trivial
    | panic => exact hx.elim

theorem Safe.orFail {x : Option α} {e : ε} (h : ∀ a, x = some a → P a) :
    Safe P (orFail (Failure.fail e) x) := by
  cases x with
  | none => trivial
  | some a => exact h a rfl

/-- It returns this value, or it panics, and then for this reason. -/
def OkUnless (bad : Prop) (a : α) (x : Except (Failure ε) α) : Prop :=
  x = .ok a ∨ (x = .error .panic ∧ bad)

variable {bad : Prop}

theorem OkUnless.ok (a : α) : OkUnless bad a (.ok a : Except (Failure ε) α) := .inl rfl

theorem OkUnless.imp {bad' : Prop} {a : α} {x : Except (Failure ε) α} (h : OkUnless bad a x)
    (himp : bad → bad') : OkUnless bad' a x :=
  h.imp_right fun hx => ⟨hx.1, himp hx.2⟩

theorem OkUnless.bind {x : Except (Failure ε) α} {f : α → Except (Failure ε) β} {a : α} {b : β}
    (hx : OkUnless bad a x) (hf : OkUnless bad b (f a)) : OkUnless bad b (x >>= f) := by
  obtain rfl | ⟨rfl, hbad⟩ := hx
  · exact hf
  · exact .inr ⟨rfl, hbad⟩

end

/-! ## Checked arithmetic -/

section

variable {ε : Type} {x : Int} {bad : Prop}

/-- The result of an operation on `i64`: overflow is a panic. -/
def i64 (x : Int) : Except (Failure ε) Int :=
  if -2 ^ 63 ≤ x ∧ x < 2 ^ 63 then .ok x else .error .panic

theorem i64_of_mem (h : -2 ^ 63 ≤ x ∧ x < 2 ^ 63) : (i64 x : Except (Failure ε) Int) = .ok x :=
  if_pos h

theorem i64_of_not_mem (h : ¬ (-2 ^ 63 ≤ x ∧ x < 2 ^ 63)) :
    (i64 x : Except (Failure ε) Int) = .error .panic := if_neg h

theorem i64_eq_ok_iff {v : Int} :
    (i64 x : Except (Failure ε) Int) = .ok v ↔ x = v ∧ -2 ^ 63 ≤ x ∧ x < 2 ^ 63 := by
  by_cases hx : -2 ^ 63 ≤ x ∧ x < 2 ^ 63
  · rw [i64_of_mem hx, Except.ok.injEq, and_iff_left hx]
  · rw [i64_of_not_mem hx]
    exact iff_of_false nofun fun h => hx h.2

theorem okUnless_i64 (h : ¬ (-2 ^ 63 ≤ x ∧ x < 2 ^ 63) → bad) :
    OkUnless bad x (i64 x : Except (Failure ε) Int) := by
  by_cases hx : -2 ^ 63 ≤ x ∧ x < 2 ^ 63
  · exact .inl (i64_of_mem hx)
  · exact .inr ⟨i64_of_not_mem hx, h hx⟩

/-- The result of an operation on `usize`: overflow is a panic. -/
def usize (n : Nat) : Except (Failure ε) Nat := if n < 2 ^ 64 then .ok n else .error .panic

theorem usize_of_lt {n : Nat} (h : n < 2 ^ 64) : (usize n : Except (Failure ε) Nat) = .ok n := if_pos h

end

/-! ## What is behind a position -/

section

variable {α : Type} {l s t : List α} {b : α} {i j : Nat}

theorem getElem?_of_drop (h : l.drop i = b :: t) : l[i]? = some b := by
  rw [← Nat.add_zero i, ← List.getElem?_drop, h]
  rfl

theorem lt_length_of_drop (h : l.drop i = b :: t) : i < l.length :=
  (List.getElem?_eq_some_iff.mp (getElem?_of_drop h)).1

theorem getElem_of_drop (h : l.drop i = b :: t) (hi : i < l.length) : l[i] = b :=
  (List.getElem?_eq_some_iff.mp (getElem?_of_drop h)).2

theorem drop_of_drop (h : l.drop i = s ++ t) : l.drop (i + s.length) = t := by
  rw [← List.drop_drop, h, List.drop_left]

theorem drop_succ_of_drop (h : l.drop i = b :: t) : l.drop (i + 1) = t :=
  drop_of_drop (s := [b]) h

theorem drop_take_of_drop (h : l.drop i = s ++ t) : (l.take (i + s.length)).drop i = s := by
  rw [List.drop_take, h, Nat.add_sub_cancel_left, List.take_left]

/-- `&l[i..j]`. -/
def sliceOf {ε : Type} (l : List α) (i j : Nat) : Except (Failure ε) (List α) :=
  if i ≤ j ∧ j ≤ l.length then .ok ((l.take j).drop i) else .error .panic

theorem safe_sliceOf {ε : Type} (hij : i ≤ j) (hj : j ≤ l.length) :
    Safe (fun _ => True) (sliceOf l i j : Except (Failure ε) (List α)) := by
  rw [sliceOf, if_pos ⟨hij, hj⟩]
  exact Safe.ok trivial

theorem sliceOf_of_drop {ε : Type} (hi : i ≤ l.length) (h : l.drop i = s ++ t) :
    (sliceOf l i (i + s.length) : Except (Failure ε) (List α)) = .ok s := by
  have hlen := congrArg List.length h
  rw [List.length_drop, List.length_append] at hlen
  rw [sliceOf, if_pos ⟨by omega, by omega⟩, drop_take_of_drop h]

end

end Castrum
