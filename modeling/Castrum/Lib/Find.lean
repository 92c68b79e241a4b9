import Castrum.Lib.Checked

/-!
# Castrum — the first occurrence of a sublist

`memmem needle s` is the index of the first place in `s` at which `needle` stands.

* `memmem_eq_some_iff` / `memmem_eq_none_iff` — what it finds, and when it finds nothing;
* `memmem_append` — a needle whose first element does not come again in it cannot overlap itself,
  so behind a text without it the search stops where one is put.
-/

namespace Castrum

section

variable {α : Type} [DecidableEq α] {needle s p q : List α} {x c : α} {k : Nat}

/-- Index of the first occurrence of `needle`. -/
def memmem (needle : List α) : List α → Option Nat
  | [] => if needle = [] then some 0 else none
  | x :: s => if needle.isPrefixOf (x :: s) then some 0 else (memmem needle s).map (· + 1)

theorem memmem_eq_zero (h : needle <+: s) : memmem needle s = some 0 := by
  cases s with
  | nil => rw [List.prefix_nil.mp h, memmem, if_pos rfl]
  | cons x s => rw [memmem, if_pos (List.isPrefixOf_iff_prefix.mpr h)]

theorem memmem_cons (h : ¬ needle <+: x :: s) :
    memmem needle (x :: s) = (memmem needle s).map (· + 1) := by
  rw [memmem, if_neg fun hp => h (List.isPrefixOf_iff_prefix.mp hp)]

/-- **What is found is the first one.** -/
theorem memmem_eq_some_iff : memmem needle s = some k ↔
    needle <+: s.drop k ∧ (∀ j < k, ¬ needle <+: s.drop j) ∧ k ≤ s.length := by
  induction s generalizing k with
  | nil =>
    rw [memmem]
    split
    · next h =>
      subst h
      constructor
      · intro hk
        cases hk
        exact ⟨List.nil_prefix, fun j hj => absurd hj (Nat.not_lt_zero j), Nat.le_refl _⟩
      · intro hk
        rw [Nat.le_zero.mp hk.2.2]
    · next h =>
      refine iff_of_false nofun fun hk => h ?_
      rw [List.drop_nil] at hk
      exact List.prefix_nil.mp hk.1
  | cons x s ih =>
    -- Either the needle is here, or it is found behind this byte.
    by_cases hx : needle <+: x :: s
    · rw [memmem_eq_zero hx, Option.some.injEq]
      constructor
      · rintro rfl
        exact ⟨hx, fun j hj => absurd hj (Nat.not_lt_zero j), Nat.zero_le _⟩
      · rintro ⟨-, hfirst, -⟩
        by_contra hne
        exact hfirst 0 (Nat.pos_of_ne_zero (Ne.symm hne)) hx
    · rw [memmem_cons hx, Option.map_eq_some_iff]
      constructor
      · rintro ⟨j, hj, rfl⟩
        obtain ⟨hat, hfirst, hle⟩ := ih.mp hj
        refine ⟨hat, ?_, Nat.succ_le_succ hle⟩
        intro i hi
        cases i with
        | zero => exact hx
        | succ i => exact hfirst i (by omega)
      · rintro ⟨hat, hfirst, hle⟩
        cases k with
        | zero => exact absurd hat hx
        | succ k =>
          refine ⟨k, ih.mpr ⟨hat, ?_, Nat.le_of_succ_le_succ hle⟩, rfl⟩
          exact fun j hj => hfirst (j + 1) (Nat.succ_lt_succ hj)

/-- Positions without the needle are stepped over. -/
theorem memmem_drop {n : Nat} (h : ∀ j < n, ¬ needle <+: s.drop j) (hn : n ≤ s.length) :
    memmem needle s = (memmem needle (s.drop n)).map (n + ·) := by
  induction n generalizing s with
  | zero => simp only [List.drop_zero, Nat.zero_add, Option.map_id']
  | succ n ih =>
    cases s with
    | nil => exact absurd hn (Nat.not_succ_le_zero n)
    | cons x s =>
      rw [memmem_cons (h 0 (Nat.succ_pos n)), ih (fun j hj => h (j + 1) (Nat.succ_lt_succ hj))
        (Nat.le_of_succ_le_succ hn), Option.map_map, List.drop_succ_cons]
      congr 1
      funext k
      show n + k + 1 = n + 1 + k
      omega

omit [DecidableEq α] in
theorem isInfix_iff_drop : needle <:+: s ↔ ∃ k, needle <+: s.drop k := by
  constructor
  · rintro ⟨p, q, rfl⟩
    refine ⟨p.length, q, ?_⟩
    rw [List.append_assoc, List.drop_left]
  · rintro ⟨k, h⟩
    exact h.isInfix.trans (List.drop_suffix k s).isInfix

/-- **Nothing is found when there is none.** -/
theorem memmem_eq_none_iff : memmem needle s = none ↔ ¬ needle <:+: s := by
  induction s with
  | nil =>
    rw [memmem]
    split
    · next h => exact iff_of_false nofun fun hn => hn (h ▸ List.nil_infix)
    · next h => exact iff_of_true rfl fun hn => h (List.infix_nil.mp hn)
  | cons x s ih =>
    by_cases hx : needle <+: x :: s
    · rw [memmem_eq_zero hx]
      exact iff_of_false nofun fun hn => hn hx.isInfix
    · rw [memmem_cons hx, Option.map_eq_none_iff, ih, List.infix_cons_iff, not_or,
        and_iff_right hx]

/-- The text in front of what is found is without it. -/
theorem not_isInfix_take (h : memmem needle s = some k) (hne : needle ≠ []) :
    ¬ needle <:+: s.take k := by
  obtain ⟨-, hfirst, -⟩ := memmem_eq_some_iff.mp h
  intro hin
  obtain ⟨j, hj⟩ := isInfix_iff_drop.mp hin
  have hlt : j < k := by
    have hlen := hj.length_le
    have hpos := List.length_pos_of_ne_nil hne
    rw [List.length_drop, List.length_take] at hlen
    omega
  apply hfirst j hlt
  rw [List.drop_take] at hj
  exact hj.trans (List.take_prefix _ _)

/-- **A needle that cannot overlap itself** is found behind a text without it. -/
theorem memmem_append (hc : c ∉ needle) (hp : ¬ c :: needle <:+: p) (q : List α) :
    memmem (c :: needle) (p ++ (c :: needle ++ q)) = some p.length := by
  refine memmem_eq_some_iff.mpr ⟨?_, ?_, by rw [List.length_append]; omega⟩
  · rw [List.drop_left]
    exact List.prefix_append _ _
  · intro j hj hat
    rw [List.drop_append_of_le_length (Nat.le_of_lt hj)] at hat
    by_cases hfit : (c :: needle).length ≤ (p.drop j).length
    · -- the whole needle lies in `p`
      apply hp
      have hin : c :: needle <+: p.drop j :=
        List.prefix_of_prefix_length_le hat (List.prefix_append _ _) hfit
      exact isInfix_iff_drop.mpr ⟨j, hin⟩
    · -- it would hold the first element of the one behind `p`
      obtain ⟨rest, hrest⟩ := hat
      apply hc
      have hget := congrArg (fun l => l[(p.drop j).length]?) hrest
      have hpos : 0 < (p.drop j).length := by
        rw [List.length_drop]
        omega
      rw [List.getElem?_append_right (Nat.le_refl _), Nat.sub_self,
        List.getElem?_append_left (by omega)] at hget
      obtain ⟨i, hi⟩ : ∃ i, (p.drop j).length = i + 1 := ⟨_, (Nat.succ_pred_eq_of_pos hpos).symm⟩
      rw [hi, List.getElem?_cons_succ] at hget
      exact List.mem_of_getElem? hget
end

end Castrum
