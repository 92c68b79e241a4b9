import Castrum.Lib.Scan
import Mathlib.Data.List.Basic
import Mathlib.Tactic

/-!
# Castrum — cutting a list at a delimiter

* `cutAt_eq_some_iff` / `cutAt_eq_none_iff` — cutting at the first delimiter;
* `findIdx?_eq_some_cut` — cutting at the first element with a property;
* `mem_of_mem_splitOn` / `mem_of_mem_intercalate` — what the pieces between the delimiters hold;
* `splitInduction` — a property of every text, piece by piece;
* `pieces_append` / `pieces_of_not_mem` — the pieces where a delimiter at the end opens no further one.
-/

namespace Castrum

section

variable {α : Type} [DecidableEq α] {c : α} {s p q : List α}

/-- What is before and behind the first `c`. -/
def cutAt (c : α) : List α → Option (List α × List α)
  | [] => none
  | x :: xs => if x = c then some ([], xs) else (cutAt c xs).map fun r => (x :: r.1, r.2)

theorem cutAt_append (hp : c ∉ p) (q : List α) : cutAt c (p ++ c :: q) = some (p, q) := by
  induction p with
  | nil => exact if_pos rfl
  | cons x p ih =>
    rw [List.mem_cons, not_or] at hp
    rw [List.cons_append, cutAt, if_neg (Ne.symm hp.1), ih hp.2]
    rfl

theorem cutAt_eq_none_iff : cutAt c s = none ↔ c ∉ s := by
  induction s with
  | nil => exact iff_of_true rfl List.not_mem_nil
  | cons x s ih =>
    rw [cutAt, List.mem_cons, not_or, ← ih]
    split
    · next h => exact iff_of_false nofun fun hn => hn.1 h.symm
    · next h => rw [Option.map_eq_none_iff, and_iff_right (Ne.symm h)]

theorem cutAt_eq_some_iff : cutAt c s = some (p, q) ↔ c ∉ p ∧ s = p ++ c :: q := by
  refine ⟨?_, fun h => h.2 ▸ cutAt_append h.1 q⟩
  induction s generalizing p with
  | nil => exact nofun
  | cons x s ih =>
    intro h
    rw [cutAt] at h
    split at h
    · next hx =>
      obtain ⟨rfl, rfl⟩ := Prod.mk.inj (Option.some.inj h)
      exact ⟨List.not_mem_nil, by rw [hx]; rfl⟩
    · next hx =>
      obtain ⟨⟨p', q'⟩, hcut, heq⟩ := Option.map_eq_some_iff.mp h
      obtain ⟨rfl, rfl⟩ := Prod.mk.inj heq
      obtain ⟨hnot, rfl⟩ := ih hcut
      exact ⟨List.not_mem_cons_of_ne_of_not_mem (Ne.symm hx) hnot, rfl⟩

omit [DecidableEq α] in
/-- A delimiter in front of each piece but the first. -/
theorem intercalate_cons_eq (first : List α) (rest : List (List α)) :
    [c].intercalate (first :: rest) = first ++ rest.flatMap (c :: ·) := by
  induction rest generalizing first with
  | nil => simp
  | cons second rest ih =>
    rw [List.intercalate_cons_cons, ih, List.flatMap_cons]
    simp

omit [DecidableEq α] in
theorem mem_intercalate_of_mem {segs : List (List α)} {seg : List α} (hseg : seg ∈ segs) {a : α}
    (ha : a ∈ seg) : a ∈ [c].intercalate segs := by
  induction segs with
  | nil => nomatch hseg
  | cons first rest ih =>
    cases rest with
    | nil => rwa [List.intercalate_singleton, ← List.mem_singleton.mp hseg]
    | cons second rest =>
      rw [List.intercalate_cons_cons]
      obtain rfl | hseg := List.mem_cons.mp hseg
      · exact List.mem_append_left _ (List.mem_append_left _ ha)
      · exact List.mem_append_right _ (ih hseg)

omit [DecidableEq α] in
theorem mem_of_mem_intercalate {segs : List (List α)} {a : α} (h : a ∈ [c].intercalate segs) :
    a = c ∨ ∃ seg ∈ segs, a ∈ seg := by
  induction segs with
  | nil => nomatch h
  | cons first rest ih =>
    cases rest with
    | nil =>
      rw [List.intercalate_singleton] at h
      exact .inr ⟨first, List.mem_cons_self, h⟩
    | cons second rest =>
      rw [List.intercalate_cons_cons, List.mem_append, List.mem_append, List.mem_singleton] at h
      obtain (h | h) | h := h
      · exact .inr ⟨first, List.mem_cons_self, h⟩
      · exact .inl h
      · exact (ih h).imp_right fun ⟨seg, hseg, ha⟩ => ⟨seg, List.mem_cons_of_mem _ hseg, ha⟩

theorem mem_of_mem_splitOn {seg : List α} (hseg : seg ∈ s.splitOn c) {a : α} (ha : a ∈ seg) :
    a ∈ s := by
  have hjoin : [c].intercalate (s.splitOn c) = s := List.intercalate_splitOn c
  have hmem := mem_intercalate_of_mem (c := c) hseg ha
  rwa [hjoin] at hmem

omit [DecidableEq α] in
theorem length_flatten_le_intercalate (segs : List (List α)) :
    segs.flatten.length ≤ ([c].intercalate segs).length := by
  induction segs with
  | nil => exact Nat.le_refl _
  | cons first rest ih =>
    cases rest with
    | nil =>
      rw [List.intercalate_singleton, List.flatten_cons, List.flatten_nil, List.append_nil]
    | cons second rest =>
      rw [List.intercalate_cons_cons, List.flatten_cons, List.length_append, List.length_append,
        List.length_append]
      omega

theorem length_flatten_splitOn_le (s : List α) : (s.splitOn c).flatten.length ≤ s.length := by
  have h := length_flatten_le_intercalate (c := c) (s.splitOn c)
  rwa [List.intercalate_splitOn] at h

/-- **Piece by piece**: a property of the texts without a separator that a piece in front keeps is
one of every text. -/
theorem splitInduction (c : α) {P : List α → Prop} (last : ∀ p, c ∉ p → P p)
    (piece : ∀ p q, c ∉ p → P q → P (p ++ c :: q)) (s : List α) : P s := by
  induction hlen : s.length using Nat.strong_induction_on generalizing s with
  | _ n ih =>
    cases hcut : cutAt c s with
    | none => exact last s (cutAt_eq_none_iff.mp hcut)
    | some cut =>
      obtain ⟨p, q⟩ := cut
      obtain ⟨hp, rfl⟩ := cutAt_eq_some_iff.mp hcut
      apply piece p q hp
      apply ih q.length _ q rfl
      rw [← hlen, List.length_append, List.length_cons]
      omega

/-- The pieces hold no separator. -/
theorem not_mem_of_mem_splitOn {seg : List α} (hseg : seg ∈ s.splitOn c) : c ∉ seg := by
  induction s using splitInduction c with
  | last p hp =>
    rw [List.splitOn_eq_singleton hp, List.mem_singleton] at hseg
    rwa [hseg]
  | piece p q hp ih =>
    rw [List.splitOn_append_cons_self_of_not_mem hp] at hseg
    rcases List.mem_cons.mp hseg with rfl | hseg
    · exact hp
    · exact ih hseg

/-! ## A delimiter behind the last piece -/

/-- The text without the `c` at its end, if there is one. -/
def withoutFinal (c : α) (s : List α) : List α := if s.getLast? = some c then s.dropLast else s

/-- The pieces between the `c`s; one at the end opens no further piece. -/
def pieces (c : α) (s : List α) : List (List α) := if s = [] then [] else (withoutFinal c s).splitOn c

theorem withoutFinal_append (h : q ≠ []) : withoutFinal c (p ++ q) = p ++ withoutFinal c q := by
  rw [withoutFinal, withoutFinal, List.getLast?_append_of_ne_nil p h]
  split
  · rw [List.dropLast_append_of_ne_nil h]
  · rfl

theorem withoutFinal_append_tail (c : α) (s : List α) :
    s = withoutFinal c s ++ if s.getLast? = some c then [c] else [] := by
  unfold withoutFinal
  split
  · next h => rw [List.dropLast_append_getLast? _ h]
  · rw [List.append_nil]

theorem pieces_nil : pieces c [] = [] := if_pos rfl

theorem pieces_append : pieces c (p ++ c :: q) = p.splitOn c ++ pieces c q := by
  have hne : p ++ c :: q ≠ [] := List.append_ne_nil_of_right_ne_nil p (List.cons_ne_nil c q)
  rw [pieces, if_neg hne]
  by_cases hq : q = []
  · rw [hq, pieces_nil, List.append_nil, withoutFinal, if_pos List.getLast?_concat,
      List.dropLast_concat]
  · rw [pieces, if_neg hq, show p ++ c :: q = (p ++ [c]) ++ q by simp, withoutFinal_append hq,
      List.append_assoc, List.singleton_append, List.splitOn_append_cons_self]

theorem pieces_of_not_mem (hne : p ≠ []) (hnot : c ∉ p) : pieces c p = [p] := by
  have hlast : p.getLast? ≠ some c := fun h => hnot (List.mem_of_getLast? h)
  rw [pieces, if_neg hne, withoutFinal, if_neg hlast, List.splitOn_eq_singleton hnot]

/-- One piece more than there are delimiters. -/
theorem length_splitOn (s : List α) : (s.splitOn c).length = s.count c + 1 := by
  induction s using splitInduction c with
  | last p hp => rw [List.splitOn_eq_singleton hp, List.count_eq_zero_of_not_mem hp]; rfl
  | piece p q hp ih =>
    rw [List.splitOn_append_cons_self_of_not_mem hp, List.length_cons, ih, List.count_append,
      List.count_eq_zero_of_not_mem hp, List.count_cons_self, Nat.zero_add]

theorem pieces_ne_nil (h : s ≠ []) : pieces c s ≠ [] := by
  rw [pieces, if_neg h]
  exact List.splitOn_ne_nil _ _

theorem length_behind_lt (h : cutAt c s = some (p, q)) : q.length < s.length := by
  rw [(cutAt_eq_some_iff.mp h).2, List.length_append, List.length_cons]
  omega

omit [DecidableEq α] in
/-- Cutting at the first element with a property, by its index. -/
theorem findIdx?_eq_some_cut {p : α → Bool} {k : Nat} (h : s.findIdx? p = some k) :
    ∃ c, p c = true ∧ (∀ x ∈ s.take k, p x = false) ∧ s = s.take k ++ c :: s.drop (k + 1) ∧
      k < s.length := by
  obtain ⟨hlt, hc, hbefore⟩ := List.findIdx?_eq_some_iff_getElem.mp h
  refine ⟨s[k], hc, ?_, ?_, hlt⟩
  · intro x hx
    obtain ⟨j, hj, rfl⟩ := List.mem_take_iff_getElem.mp hx
    simpa using hbefore j (by omega)
  · rw [List.getElem_cons_drop, List.take_append_drop]

end

end Castrum
