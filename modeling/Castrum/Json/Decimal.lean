import Castrum.Json.Grammar
import Castrum.Util.Bytes

/-!
# Castrum — decimal numbers as text

What `to_string` writes and `parse` reads, for `usize` and `i64`. A parser takes a sign and any
number of leading zeros, a writer leaves them out.

* `readDigits_decimal` — the digits of a number read as the number;
* `parseI64_i64Text` — the same with a sign, over all of `i64`.
-/

namespace Castrum

open Ascii

/-- Decimal digits of a number; an array index in a pointer. -/
def decimal (i : Nat) : Bytes := (Nat.toDigits 10 i).map fun c => UInt8.ofNat c.toNat

/-- `i64::to_string`. -/
def i64Text (x : Int64) : Bytes :=
  if x.toInt < 0 then minus :: decimal x.toInt.natAbs else decimal x.toInt.natAbs

/-- The number that some digits spell. -/
def readDigits (digits : Bytes) : Nat := digits.foldl (fun n b => 10 * n + (b.toNat - 48)) 0

/-- The sign of a number text, and what is behind it. -/
def signOf : Bytes → Bool × Bytes
  | minus :: s => (true, s)
  | plus :: s => (false, s)
  | s => (false, s)

/-- `str::parse::<i64>`. -/
def parseI64 (s : Bytes) : Option Int64 :=
  let (negative, digits) := signOf s
  if digits = [] ∨ digits.all isDigit = false then none
  else
    let x : Int := if negative then -(readDigits digits : Int) else readDigits digits
    if -2 ^ 63 ≤ x ∧ x < 2 ^ 63 then some (Int64.ofInt x) else none

/-! ## Digits -/

theorem digit_of_mem_toDigits {c : Char} {i : Nat} (h : c ∈ Nat.toDigits 10 i) :
    48 ≤ c.toNat ∧ c.toNat ≤ 57 := by
  have := Nat.isDigit_of_mem_toDigits (by decide) (by decide) h
  rw [Char.isDigit, Bool.and_eq_true, decide_eq_true_eq, decide_eq_true_eq] at this
  exact this

theorem isDigit_of_mem_decimal {i : Nat} {b : UInt8} (h : b ∈ decimal i) : isDigit b = true := by
  obtain ⟨c, hc, rfl⟩ := List.mem_map.mp h
  have hd := digit_of_mem_toDigits hc
  have hb : (UInt8.ofNat c.toNat).toNat = c.toNat := by
    rw [UInt8.toNat_ofNat', Nat.mod_eq_of_lt (by omega)]
  rw [isDigit, Bool.and_eq_true, decide_eq_true_eq, decide_eq_true_eq, UInt8.le_iff_toNat_le,
    UInt8.le_iff_toNat_le, hb]
  exact hd

theorem decimal_ne_nil (i : Nat) : decimal i ≠ [] :=
  fun h => Nat.toDigits_ne_nil (List.map_eq_nil_iff.mp h)

theorem slash_not_mem_decimal (i : Nat) : (47 : UInt8) ∉ decimal i :=
  fun h => absurd (isDigit_of_mem_decimal h) (by decide)

/-- **The digits of a number read as the number.** -/
theorem readDigits_decimal (i : Nat) : readDigits (decimal i) = i := by
  have hfold : ∀ (cs : List Char) (n : Nat), (∀ c ∈ cs, 48 ≤ c.toNat ∧ c.toNat ≤ 57) →
      (cs.map fun c => UInt8.ofNat c.toNat).foldl (fun n b => 10 * n + (b.toNat - 48)) n =
        Nat.ofDigitChars 10 cs n := by
    intro cs
    induction cs with
    | nil => exact fun n _ => Nat.ofDigitChars_nil.symm
    | cons c cs ih =>
      intro n hcs
      have hc := hcs c List.mem_cons_self
      have hb : (UInt8.ofNat c.toNat).toNat = c.toNat := by
        rw [UInt8.toNat_ofNat', Nat.mod_eq_of_lt (by omega)]
      rw [List.map_cons, List.foldl_cons, hb, ih _ fun x hx => hcs x (List.mem_cons_of_mem _ hx),
        Nat.ofDigitChars_cons]
      rfl
  unfold readDigits decimal
  rw [hfold _ _ fun c hc => digit_of_mem_toDigits hc,
    Nat.ofDigitChars_toDigits (by decide) (by decide)]

theorem decimal_injective {i j : Nat} (h : decimal i = decimal j) : i = j := by
  rw [← readDigits_decimal i, h, readDigits_decimal]

/-! ## Signed numbers -/

theorem signOf_minus (s : Bytes) : signOf (minus :: s) = (true, s) := rfl

theorem signOf_decimal (i : Nat) : signOf (decimal i) = (false, decimal i) := by
  have hdigit : ∀ b ∈ decimal i, isDigit b = true := fun b hb => isDigit_of_mem_decimal hb
  unfold signOf
  split
  · next s heq =>
    rw [heq] at hdigit
    exact absurd (hdigit minus List.mem_cons_self) (by decide)
  · next s heq =>
    rw [heq] at hdigit
    exact absurd (hdigit plus List.mem_cons_self) (by decide)
  · rfl

theorem digits_or_minus_of_mem_i64Text {x : Int64} {b : UInt8} (h : b ∈ i64Text x) :
    isDigit b = true ∨ b = minus := by
  unfold i64Text at h
  split at h
  · exact (List.mem_cons.mp h).symm.imp_left isDigit_of_mem_decimal
  · exact .inl (isDigit_of_mem_decimal h)

/-- **Every `i64` is read back from its text.** -/
theorem parseI64_i64Text (x : Int64) : parseI64 (i64Text x) = some x := by
  have hdigits : ¬ (decimal x.toInt.natAbs = [] ∨ (decimal x.toInt.natAbs).all isDigit = false) := by
    rw [not_or, Bool.not_eq_false, List.all_eq_true]
    exact ⟨decimal_ne_nil _, fun b hb => isDigit_of_mem_decimal hb⟩
  have hrange : -2 ^ 63 ≤ x.toInt ∧ x.toInt < 2 ^ 63 := ⟨x.le_toInt, x.toInt_lt⟩
  have hofInt : Int64.ofInt x.toInt = x := Int64.ofInt_toInt x
  by_cases hneg : x.toInt < 0
  · have hvalue : -(x.toInt.natAbs : Int) = x.toInt := by omega
    rw [i64Text, if_pos hneg, parseI64, signOf_minus]
    simp only [if_neg hdigits, readDigits_decimal, if_true, hvalue, if_pos hrange, hofInt]
  · have hvalue : (x.toInt.natAbs : Int) = x.toInt := by omega
    rw [i64Text, if_neg hneg, parseI64, signOf_decimal]
    simp only [if_neg hdigits, readDigits_decimal, Bool.false_eq_true, if_false, hvalue,
      if_pos hrange, hofInt]

end Castrum
