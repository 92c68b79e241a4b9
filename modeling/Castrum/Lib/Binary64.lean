import Mathlib.Data.Int.Log
import Mathlib.Data.Rat.Floor
import Mathlib.Tactic

/-!
# Castrum — rounding to a double

A finite double is the rational it denotes, and an operation on doubles is the exact one followed by
rounding: to 53 bits, to the nearest, ties to even, and no finer than the smallest subnormal. Overflow to
an infinity is left out.

* `roundEven_le` / `le_roundEven` — rounding to an integer does not cross an integer;
* `roundF64_le_int` / `le_roundF64_int` — rounding to a double does not cross an integer of at most 53 bits;
* `lt_roundF64_sub_iff` — the difference of a double and a small integer is on the same side of a
  natural number as the exact one.
-/

namespace Castrum

variable {x q : ℚ} {n m : ℤ}

/-! ## Integers -/

/-- The nearest integer, ties to even. -/
def roundEven (x : ℚ) : ℤ :=
  if x - ⌊x⌋ < 1 / 2 then ⌊x⌋
  else if 1 / 2 < x - ⌊x⌋ then ⌊x⌋ + 1
  else if ⌊x⌋ % 2 = 0 then ⌊x⌋
  else ⌊x⌋ + 1

theorem roundEven_cases (x : ℚ) :
    roundEven x = ⌊x⌋ ∨ (roundEven x = ⌊x⌋ + 1 ∧ (⌊x⌋ : ℚ) < x) := by
  rw [roundEven]
  split
  · exact .inl rfl
  · next hlow =>
    have hlt : (⌊x⌋ : ℚ) < x := by linarith
    split
    · exact .inr ⟨rfl, hlt⟩
    · split
      · exact .inl rfl
      · exact .inr ⟨rfl, hlt⟩

theorem roundEven_le (h : x ≤ n) : roundEven x ≤ n := by
  rcases roundEven_cases x with heq | ⟨heq, hlt⟩
  · rw [heq]
    exact_mod_cast (Int.floor_le x).trans h
  · rw [heq]
    exact Int.add_one_le_iff.mpr (by exact_mod_cast hlt.trans_le h)

theorem le_roundEven (h : (n : ℚ) ≤ x) : n ≤ roundEven x := by
  have hfloor : n ≤ ⌊x⌋ := Int.le_floor.mpr h
  rcases roundEven_cases x with heq | ⟨heq, -⟩
  · exact heq ▸ hfloor
  · exact heq ▸ hfloor.trans (Int.le_add_one le_rfl)

/-! ## Doubles -/

/-- The exponent of the last of the 53 bits. -/
def ulpExp (q : ℚ) : ℤ := max (Int.log 2 |q| - 52) (-1074)

/-- The nearest double, ties to even. -/
def roundF64 (q : ℚ) : ℚ := roundEven (q / 2 ^ ulpExp q) * 2 ^ ulpExp q

theorem roundF64_le (h : q ≤ m * 2 ^ ulpExp q) : roundF64 q ≤ m * 2 ^ ulpExp q := by
  have hpos : (0 : ℚ) < 2 ^ ulpExp q := by positivity
  have hround := roundEven_le ((div_le_iff₀ hpos).mpr h)
  exact mul_le_mul_of_nonneg_right (by exact_mod_cast hround) hpos.le

theorem le_roundF64 (h : m * 2 ^ ulpExp q ≤ q) : m * 2 ^ ulpExp q ≤ roundF64 q := by
  have hpos : (0 : ℚ) < 2 ^ ulpExp q := by positivity
  have hround := le_roundEven ((le_div_iff₀ hpos).mpr h)
  exact mul_le_mul_of_nonneg_right (by exact_mod_cast hround) hpos.le

theorem roundF64_of_eq (h : q = m * 2 ^ ulpExp q) : roundF64 q = q :=
  le_antisymm ((roundF64_le h.le).trans h.ge) (h.le.trans (le_roundF64 h.ge))

/-- Multiples of a power of two are multiples of the smaller ones. -/
theorem exists_mul_zpow {a b : ℤ} (hab : b ≤ a) (m : ℤ) : ∃ k : ℤ, (m : ℚ) * 2 ^ a = k * 2 ^ b := by
  obtain ⟨d, rfl⟩ := Int.le.dest hab
  refine ⟨m * 2 ^ d, ?_⟩
  rw [zpow_add₀ two_ne_zero, zpow_natCast]
  push_cast
  ring

theorem zpow_ulpExp_le (h : 0 < ulpExp q) : (2 : ℚ) ^ 52 * 2 ^ ulpExp q ≤ |q| := by
  have hexp : ulpExp q = Int.log 2 |q| - 52 := by
    rw [ulpExp] at h ⊢
    omega
  have hne : |q| ≠ 0 := fun h0 => by
    rw [hexp, h0, Int.log_zero_right] at h
    omega
  have hlog := Int.zpow_log_le_self (b := 2) (by norm_num) (lt_of_le_of_ne (abs_nonneg q) hne.symm)
  have hpow : (2 : ℚ) ^ 52 * 2 ^ (Int.log 2 |q| - 52) = 2 ^ Int.log 2 |q| := by
    rw [← zpow_natCast, ← zpow_add₀ two_ne_zero]
    congr 1
    push_cast
    ring
  rw [hexp, hpow]
  exact_mod_cast hlog

theorem two_pow_53_le (h : 0 < ulpExp q) : (2 : ℚ) ^ 53 ≤ 2 ^ 52 * 2 ^ ulpExp q := by
  have htwo : (2 : ℚ) ^ (1 : ℤ) ≤ 2 ^ ulpExp q := zpow_le_zpow_right₀ (by norm_num) (by omega)
  rw [zpow_one] at htwo
  calc (2 : ℚ) ^ 53 = 2 ^ 52 * 2 := by norm_num
    _ ≤ 2 ^ 52 * 2 ^ ulpExp q := by gcongr

/-- **Rounding does not cross an integer** of at most 53 bits. Where the last bit is above the point, the
number is out of their range, and so is the power of two in front of it. -/
theorem roundF64_le_int (hn : -2 ^ 53 ≤ n) (hn' : n < 2 ^ 53) (h : q ≤ n) : roundF64 q ≤ n := by
  by_cases hexp : 0 < ulpExp q
  · have hbig := zpow_ulpExp_le hexp
    have hfar := two_pow_53_le hexp
    have hlow : (-2 ^ 53 : ℚ) ≤ n := by exact_mod_cast hn
    have hhigh : (n : ℚ) < 2 ^ 53 := by exact_mod_cast hn'
    have hneg : q ≤ ((-2 ^ 52 : ℤ) : ℚ) * 2 ^ ulpExp q := by
      rcases abs_cases q with ⟨habs, -⟩ | ⟨habs, -⟩
      · linarith
      · push_cast
        linarith
    have hround := roundF64_le hneg
    push_cast at hround
    linarith
  · obtain ⟨k, hk⟩ := exists_mul_zpow (not_lt.mp hexp) n
    rw [zpow_zero, mul_one] at hk
    rw [hk] at h ⊢
    exact roundF64_le h

theorem le_roundF64_int (hn : -2 ^ 53 < n) (hn' : n ≤ 2 ^ 53) (h : (n : ℚ) ≤ q) :
    n ≤ roundF64 q := by
  by_cases hexp : 0 < ulpExp q
  · have hbig := zpow_ulpExp_le hexp
    have hfar := two_pow_53_le hexp
    have hlow : (-2 ^ 53 : ℚ) < n := by exact_mod_cast hn
    have hhigh : (n : ℚ) ≤ 2 ^ 53 := by exact_mod_cast hn'
    have hpos : ((2 ^ 52 : ℤ) : ℚ) * 2 ^ ulpExp q ≤ q := by
      push_cast
      rcases abs_cases q with ⟨habs, -⟩ | ⟨habs, -⟩
      · linarith
      · linarith
    have hround := le_roundF64 hpos
    push_cast at hround
    linarith
  · obtain ⟨k, hk⟩ := exists_mul_zpow (not_lt.mp hexp) n
    rw [zpow_zero, mul_one] at hk
    rw [hk] at h ⊢
    exact le_roundF64 h

/-- A smaller positive number has a last bit that is no larger. -/
theorem ulpExp_mono {p : ℚ} (hp : 0 < p) (h : p ≤ q) : ulpExp p ≤ ulpExp q := by
  have hlog := Int.log_mono_right (b := 2) (abs_pos.mpr hp.ne')
    ((abs_of_pos hp).le.trans (h.trans (le_abs_self q)))
  rw [ulpExp, ulpExp]
  omega

/-- **The difference of a double and a small integer** is on the same side of a natural number as the
exact one: below `2 ^ 53` there is no rounding, since it has no finer bits than the double. -/
theorem lt_roundF64_sub_iff {k : ℕ} (hq : roundF64 q = q) (hn : 0 ≤ n) (hn' : n < 2 ^ 53) :
    (n : ℚ) < roundF64 (q - k) ↔ (n : ℚ) < q - k := by
  constructor
  · intro h
    by_contra hle
    exact absurd (roundF64_le_int (by omega) hn' (not_lt.mp hle)) (not_le.mpr h)
  · intro h
    by_cases hbig : (2 : ℚ) ^ 53 ≤ q - k
    · have hround : (((2 : ℤ) ^ 53 : ℤ) : ℚ) ≤ roundF64 (q - k) :=
        le_roundF64_int (by norm_num) le_rfl (by exact_mod_cast hbig)
      have hhigh : (n : ℚ) < 2 ^ 53 := by exact_mod_cast hn'
      push_cast at hround
      linarith
    · have hn0 : (0 : ℚ) ≤ n := by exact_mod_cast hn
      have hk0 : (0 : ℚ) ≤ k := by positivity
      have hpos : 0 < q - k := by linarith
      have hexp : ulpExp (q - k) ≤ ulpExp q := ulpExp_mono hpos (by linarith)
      have hexp0 : ulpExp (q - k) ≤ 0 := by
        by_contra hcon
        have hfar := two_pow_53_le (not_le.mp hcon)
        have hle := zpow_ulpExp_le (not_le.mp hcon)
        rw [abs_of_pos hpos] at hle
        linarith
      -- both are multiples of the last bit of the difference, which is then not rounded
      obtain ⟨a, ha⟩ := exists_mul_zpow hexp (roundEven (q / 2 ^ ulpExp q))
      obtain ⟨b, hb⟩ := exists_mul_zpow hexp0 k
      rw [zpow_zero, mul_one] at hb
      have hqa : q = a * 2 ^ ulpExp (q - k) := hq.symm.trans ha
      have hdiff : q - k = ((a - b : ℤ) : ℚ) * 2 ^ ulpExp (q - k) := by
        push_cast at hb ⊢
        rw [sub_mul, ← hqa, ← hb]
      rw [roundF64_of_eq hdiff]
      exact h

end Castrum
