import Mathlib.Data.List.Basic
import Mathlib.Tactic

/-!
# Castrum — properties of the front of a list

A Boolean property that holds of an element only if it holds of all before it. On a list sorted by some
key these are the properties `key < v`.

* `takeWhile_eq_filter` / `dropWhile_eq_filter` — the front is everything that has the property;
* `length_takeWhile_le_iff` — and its length the index of the first element that does not have it.
-/

namespace Castrum

section

variable {α : Type} {p : α → Bool} {l : List α}

/-- Where the first element does not have the property, none has. -/
theorem all_not_of_head {a : α} (h : (a :: l).Pairwise fun x y => p y = true → p x = true)
    (ha : p a = false) : ∀ x ∈ a :: l, p x = false := by
  intro x hx
  rcases List.mem_cons.mp hx with rfl | hx
  · exact ha
  · rw [← Bool.not_eq_true]
    intro htrue
    have hhead := (List.pairwise_cons.mp h).1 x hx htrue
    rw [ha] at hhead
    cases hhead

theorem takeWhile_eq_filter (h : l.Pairwise fun x y => p y = true → p x = true) :
    l.takeWhile p = l.filter p := by
  induction l with
  | nil => rfl
  | cons a l ih =>
    cases ha : p a with
    | true =>
      rw [List.takeWhile_cons_of_pos ha, List.filter_cons_of_pos ha,
        ih (List.pairwise_cons.mp h).2]
    | false =>
      have hall := all_not_of_head h ha
      rw [List.takeWhile_cons_of_neg (Bool.not_eq_true _ ▸ ha)]
      symm
      rw [List.filter_eq_nil_iff]
      intro x hx
      rw [hall x hx]
      exact Bool.false_ne_true

theorem dropWhile_eq_filter (h : l.Pairwise fun x y => p y = true → p x = true) :
    l.dropWhile p = l.filter (!p ·) := by
  induction l with
  | nil => rfl
  | cons a l ih =>
    cases ha : p a with
    | true =>
      rw [List.dropWhile_cons_of_pos ha, List.filter_cons, ha, Bool.not_true,
        if_neg Bool.false_ne_true, ih (List.pairwise_cons.mp h).2]
    | false =>
      have hall := all_not_of_head h ha
      rw [List.dropWhile_cons_of_neg (Bool.not_eq_true _ ▸ ha)]
      symm
      rw [List.filter_eq_self]
      intro x hx
      rw [hall x hx]
      rfl

theorem length_takeWhile_le_iff (h : l.Pairwise fun x y => p y = true → p x = true) {i : Nat}
    (hi : i < l.length) : (l.takeWhile p).length ≤ i ↔ p l[i] = false := by
  induction l generalizing i with
  | nil => exact absurd hi (Nat.not_lt_zero i)
  | cons a l ih =>
    cases ha : p a with
    | true =>
      rw [List.takeWhile_cons_of_pos ha, List.length_cons]
      cases i with
      | zero => exact iff_of_false (Nat.not_succ_le_zero _) (by rw [List.getElem_cons_zero, ha]; nofun)
      | succ i =>
        rw [Nat.succ_le_succ_iff, List.getElem_cons_succ]
        exact ih (List.pairwise_cons.mp h).2 _
    | false =>
      rw [List.takeWhile_cons_of_neg (Bool.not_eq_true _ ▸ ha)]
      exact iff_of_true (Nat.zero_le _) (all_not_of_head h ha _ (List.getElem_mem hi))

end

end Castrum
