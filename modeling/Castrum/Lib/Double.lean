import Mathlib.Order.Lattice

/-!
# Castrum — doubles over an ordered set of values

The comparisons of floating-point numbers, for any totally ordered set of finite values. The two zeros
are told apart but compare as equal, and a NaN compares with nothing.

* `Double.lt_iff` / `Double.le_iff` — on finite numbers the comparisons are those of their values;
* `Double.le_max` — the larger of two numbers is not less than either.
-/

namespace Castrum

/-- A double. The positive zero is `finite 0`; the NaNs are one. -/
inductive Double (F : Type) where
  | finite (x : F)
  | negZero
  | posInf
  | negInf
  | nan
  deriving DecidableEq

namespace Double

variable {F : Type} [LinearOrder F] [Zero F] {a b : Double F}

/-- `is_finite`. -/
def isFinite : Double F → Bool
  | .finite _ | .negZero => true
  | _ => false

/-- The value of a finite number. -/
def value : Double F → F
  | .finite x => x
  | _ => 0

/-- `a < b`. -/
def lt : Double F → Double F → Bool
  | .nan, _ | _, .nan => false
  | _, .negInf => false
  | .negInf, _ => true
  | .posInf, _ => false
  | _, .posInf => true
  | a, b => a.value < b.value

/-- `a <= b`. -/
def le : Double F → Double F → Bool
  | .nan, _ | _, .nan => false
  | .negInf, _ => true
  | _, .negInf => false
  | _, .posInf => true
  | .posInf, _ => false
  | a, b => a.value ≤ b.value

/-- The larger one, and a NaN if one of them is. -/
def max (a b : Double F) : Double F :=
  if a = .nan ∨ b = .nan then .nan
  else if a.lt b = true ∨ (a = .negZero ∧ b = .finite 0) then b
  else a

/-- The smaller one, and a NaN if one of them is. -/
def min (a b : Double F) : Double F :=
  if a = .nan ∨ b = .nan then .nan
  else if b.lt a = true ∨ (b = .negZero ∧ a = .finite 0) then b
  else a

omit [LinearOrder F] [Zero F] in
theorem eq_of_isFinite (h : a.isFinite = true) : a = .negZero ∨ ∃ x, a = .finite x := by
  cases a with
  | finite x => exact .inr ⟨x, rfl⟩
  | negZero => exact .inl rfl
  | posInf | negInf | nan => cases h

theorem lt_iff (ha : a.isFinite = true) (hb : b.isFinite = true) :
    a.lt b = true ↔ a.value < b.value := by
  rcases eq_of_isFinite ha with rfl | ⟨x, rfl⟩ <;> rcases eq_of_isFinite hb with rfl | ⟨y, rfl⟩ <;>
    exact decide_eq_true_iff

theorem le_iff (ha : a.isFinite = true) (hb : b.isFinite = true) :
    a.le b = true ↔ a.value ≤ b.value := by
  rcases eq_of_isFinite ha with rfl | ⟨x, rfl⟩ <;> rcases eq_of_isFinite hb with rfl | ⟨y, rfl⟩ <;>
    exact decide_eq_true_iff

/-- What is not greater than a number is not greater than a larger one. -/
theorem le_finite_of_le {x y : F} (h : a.le (.finite x) = true) (hxy : x ≤ y) :
    a.le (.finite y) = true := by
  cases a with
  | finite z => exact decide_eq_true (le_trans (of_decide_eq_true h) hxy)
  | negZero => exact decide_eq_true (le_trans (of_decide_eq_true h) hxy)
  | negInf => rfl
  | posInf | nan => cases h

/-- What a number is not greater than, a smaller one is not greater than either. -/
theorem finite_le_of_le {x y : F} (h : (finite y).le a = true) (hxy : x ≤ y) :
    (finite x).le a = true := by
  cases a with
  | finite z => exact decide_eq_true (le_trans hxy (of_decide_eq_true h))
  | negZero => exact decide_eq_true (le_trans hxy (of_decide_eq_true h))
  | posInf => rfl
  | negInf | nan => cases h

theorem le_of_le_of_le {c : Double F} (hab : a.le b = true) (hbc : b.le c = true) :
    a.le c = true := by
  cases b with
  | finite y | negZero =>
    cases a <;> cases c <;>
      first
      | rfl
      | exact decide_eq_true (le_trans (of_decide_eq_true hab) (of_decide_eq_true hbc))
      | (cases hab; done)
      | cases hbc
  | posInf =>
    cases c with
    | posInf => cases a <;> first | rfl | cases hab
    | finite | negZero | negInf | nan => cases hbc
  | negInf =>
    cases a with
    | negInf => cases c <;> first | rfl | cases hbc
    | finite | negZero | posInf | nan => cases hab
  | nan => cases a <;> cases hab

theorem le_refl (h : a ≠ .nan) : a.le a = true := by
  cases a with
  | finite x => exact decide_eq_true le_rfl
  | negZero => exact decide_eq_true le_rfl
  | posInf | negInf => rfl
  | nan => exact absurd rfl h

theorem le_of_lt (h : a.lt b = true) : a.le b = true := by
  cases a <;> cases b <;>
    first | rfl | exact decide_eq_true (lt_iff_le_not_ge.mp (of_decide_eq_true h)).1 | cases h

theorem le_of_not_lt (ha : a ≠ .nan) (hb : b ≠ .nan) (h : ¬ a.lt b = true) : b.le a = true := by
  cases a <;> cases b <;>
    first
    | exact absurd rfl ha
    | exact absurd rfl hb
    | exact absurd rfl h
    | rfl
    | exact decide_eq_true (not_lt.mp fun hlt => h (decide_eq_true hlt))

theorem le_max (ha : a ≠ .nan) (hb : b ≠ .nan) :
    a.le (a.max b) = true ∧ b.le (a.max b) = true := by
  rw [max, if_neg (not_or.mpr ⟨ha, hb⟩)]
  split
  · next h =>
    refine ⟨?_, le_refl hb⟩
    rcases h with h | ⟨rfl, rfl⟩
    · exact le_of_lt h
    · exact decide_eq_true le_rfl
  · next h => exact ⟨le_refl ha, le_of_not_lt ha hb fun hlt => h (.inl hlt)⟩

theorem max_ne_nan (ha : a ≠ .nan) (hb : b ≠ .nan) : a.max b ≠ .nan := by
  rw [max, if_neg (not_or.mpr ⟨ha, hb⟩)]
  split
  · exact hb
  · exact ha

theorem of_max_ne_nan (h : a.max b ≠ .nan) : a ≠ .nan ∧ b ≠ .nan :=
  ⟨fun ha => h (if_pos (.inl ha)), fun hb => h (if_pos (.inr hb))⟩

theorem min_le (h : a.min b ≠ .nan) : (a.min b).le a = true ∧ (a.min b).le b = true := by
  have ha : a ≠ .nan := fun ha => h (if_pos (.inl ha))
  have hb : b ≠ .nan := fun hb => h (if_pos (.inr hb))
  rw [min, if_neg (not_or.mpr ⟨ha, hb⟩)]
  split
  · next h =>
    refine ⟨?_, le_refl hb⟩
    rcases h with h | ⟨rfl, rfl⟩
    · exact le_of_lt h
    · exact decide_eq_true le_rfl
  · next h => exact ⟨le_refl ha, le_of_not_lt hb ha fun hlt => h (.inl hlt)⟩

end Double

end Castrum
