import Mathlib.Tactic

/-!
# Castrum — the Gregorian calendar

The calendar is carried on in both directions. Days are counted from the first of January 1970.

* `yearStart_succ` — a year has 365 days, or 366;
* `dayNumber_mem_year` — the days of a year lie between its start and the next one's.
-/

namespace Castrum.Calendar

def IsLeap (y : Int) : Prop := y % 4 = 0 ∧ (y % 100 ≠ 0 ∨ y % 400 = 0)

instance (y : Int) : Decidable (IsLeap y) := by unfold IsLeap; infer_instance

/-- The days before the first of January of a year: so many leap years lie between. -/
def yearStart (y : Int) : Int :=
  365 * (y - 1970) + ((y - 1) / 4 - 492) - ((y - 1) / 100 - 19) + ((y - 1) / 400 - 4)

def daysInMonth (y : Int) (m : Nat) : Nat :=
  if m = 2 then if IsLeap y then 29 else 28
  else if m = 4 ∨ m = 6 ∨ m = 9 ∨ m = 11 then 30
  else 31

/-- The days of a year before one of its months. -/
def monthStart (y : Int) (m : Nat) : Nat := ((List.range (m - 1)).map fun i => daysInMonth y (i + 1)).sum

/-- The number of a day. -/
def dayNumber (y : Int) (m d : Nat) : Int := yearStart y + monthStart y m + (d - 1)

structure IsDate (y : Int) (m d : Nat) : Prop where
  month : 1 ≤ m ∧ m ≤ 12
  day : 1 ≤ d ∧ d ≤ daysInMonth y m

/-- The day of the week, from Monday on: the first of January 1970 was a Thursday. -/
def weekday (day : Int) : Nat := ((day + 3) % 7).toNat

theorem yearStart_succ (y : Int) : yearStart (y + 1) = yearStart y + if IsLeap y then 366 else 365 := by
  unfold yearStart
  split
  · next h =>
    unfold IsLeap at h
    omega
  · next h =>
    unfold IsLeap at h
    omega

/-- The months before, in days, as if February had thirty, less what it has not. -/
theorem monthStart_eq (y : Int) {m : Nat} (hm : 1 ≤ m ∧ m ≤ 12) :
    monthStart y m = (367 * m - 362) / 12 - if m ≤ 2 then 0 else if IsLeap y then 1 else 2 := by
  obtain ⟨hlow, hhigh⟩ := hm
  unfold monthStart daysInMonth
  by_cases hleap : IsLeap y
  · interval_cases m <;> simp [hleap, List.range_succ]
  · interval_cases m <;> simp [hleap, List.range_succ]

theorem monthStart_le (y : Int) {m : Nat} (hm : 1 ≤ m ∧ m ≤ 12) :
    monthStart y m ≤ 335 ∧ (m < 12 → monthStart y m ≤ 305) ∧ (m = 12 → 334 ≤ monthStart y m) ∧
      (m = 1 → monthStart y m = 0) ∧ (1 < m → 31 ≤ monthStart y m) := by
  rw [monthStart_eq y hm]
  split
  · omega
  · split <;> omega

theorem yearStart_strictMono : StrictMono yearStart := by
  refine strictMono_int_of_lt_succ ?_
  intro y
  rw [yearStart_succ]
  split <;> omega

/-- **The days of a year.** -/
theorem dayNumber_mem_year {y : Int} {m d : Nat} (h : IsDate y m d) :
    yearStart y ≤ dayNumber y m d ∧ dayNumber y m d < yearStart (y + 1) := by
  obtain ⟨⟨hlow, hhigh⟩, hd, hlast⟩ := h
  rw [dayNumber, monthStart_eq y ⟨hlow, hhigh⟩, yearStart_succ]
  unfold daysInMonth at hlast
  by_cases hleap : IsLeap y
  · simp only [if_pos hleap] at hlast ⊢
    interval_cases m <;> simp at hlast ⊢ <;> omega
  · simp only [if_neg hleap] at hlast ⊢
    interval_cases m <;> simp at hlast ⊢ <;> omega

end Castrum.Calendar
