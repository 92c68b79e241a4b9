import Mathlib.Algebra.BigOperators.Group.List.Basic
import Mathlib.Algebra.Order.BigOperators.Group.List
import Mathlib.Algebra.Order.Ring.Defs
import Mathlib.Tactic.Linarith

/-!
# Castrum — sums that saturate

Addition that is clamped to `[lo, hi]` after every step is not associative: how a sum is bracketed
shows where it touches a bound and turns back. A bracketing is a tree over the summands; there may be
empty leaves, which stand for `0`.

* `Bracketing.exists_eval_eq` — some bracketing gives the exact sum, clamped once;
* `Bracketing.graft` — bracketings in the place of the leaves of another one;
* `Steady` — clamping the sums of any consecutive runs first leaves the clamped total as it is;
* `Bracketing.eval_eq_iff_steady` — exactly then all bracketings give the same.
-/

namespace Castrum

/-! ## Clamping -/

section

variable {α : Type} [LinearOrder α] {lo hi : α}

def clamp (lo hi x : α) : α := max lo (min hi x)

theorem clamp_of_mem {x : α} (hlo : lo ≤ x) (hhi : x ≤ hi) : clamp lo hi x = x := by
  rw [clamp, min_eq_right hhi, max_eq_right hlo]

theorem clamp_of_ge {x : α} (h : lo ≤ hi) (hx : hi ≤ x) : clamp lo hi x = hi := by
  rw [clamp, min_eq_left hx, max_eq_right h]

theorem clamp_of_le {x : α} (h : lo ≤ hi) (hx : x ≤ lo) : clamp lo hi x = lo := by
  rw [clamp, min_eq_right (hx.trans h), max_eq_left hx]

theorem clamp_mem (h : lo ≤ hi) (x : α) : lo ≤ clamp lo hi x ∧ clamp lo hi x ≤ hi :=
  ⟨le_max_left _ _, max_le h (min_le_left _ _)⟩

/-- What is clamped to a value between the bounds was that value. -/
theorem eq_of_clamp_eq {x y : α} (h : clamp lo hi x = y) (hlo : lo < y) (hhi : y < hi) : x = y := by
  have hle := (hlo.trans hhi).le
  rcases le_total x lo with hbelow | habove
  · rw [clamp_of_le hle hbelow] at h
    exact absurd h hlo.ne
  rcases le_total x hi with hbelow | habove'
  · rwa [clamp_of_mem habove hbelow] at h
  · rw [clamp_of_ge hle habove'] at h
    exact absurd h hhi.ne'

end

section

variable {α : Type} [CommRing α] [LinearOrder α] [IsStrictOrderedRing α] {lo hi : α}

theorem clamp_neg (h : lo ≤ hi) (x : α) : clamp (-hi) (-lo) (-x) = -clamp lo hi x := by
  rcases le_total x lo with hle | hle
  · rw [clamp_of_le h hle, clamp_of_ge (neg_le_neg h) (neg_le_neg hle)]
  rcases le_total x hi with hge | hge
  · rw [clamp_of_mem hle hge, clamp_of_mem (neg_le_neg hge) (neg_le_neg hle)]
  · rw [clamp_of_ge h hge, clamp_of_le (neg_le_neg h) (neg_le_neg hge)]

/-- Between two summands that are not negative nothing is lost by clamping one of them first. -/
theorem clamp_add_clamp (h : lo ≤ 0) {x s : α} (hx : 0 ≤ x) (hs : 0 ≤ s) :
    clamp lo hi (x + clamp lo hi s) = clamp lo hi (x + s) := by
  rcases le_total s hi with hle | hge
  · rw [clamp_of_mem (h.trans hs) hle]
  · rcases le_total lo hi with hbounds | hbounds
    · rw [clamp_of_ge hbounds hge, clamp_of_ge hbounds (by linarith),
        clamp_of_ge hbounds (by linarith)]
    · have hall : ∀ y, clamp lo hi y = lo := fun y => max_eq_left ((min_le_left _ _).trans hbounds)
      rw [hall, hall]

/-! ## Bracketings

A parallel sum adds the leaves of a tree and clamps at each node; every split of the work is such a
tree. -/

inductive Bracketing (α : Type) where
  | empty
  | leaf (x : α)
  | node (l r : Bracketing α)
  deriving Repr

namespace Bracketing

def elems : Bracketing α → List α
  | empty => []
  | leaf x => [x]
  | node l r => l.elems ++ r.elems

/-- The saturating sum, bracketed like this. -/
def eval (lo hi : α) : Bracketing α → α
  | empty => 0
  | leaf x => x
  | node l r => clamp lo hi (l.eval lo hi + r.eval lo hi)

def neg : Bracketing α → Bracketing α
  | empty => empty
  | leaf x => leaf (-x)
  | node l r => node l.neg r.neg

omit [LinearOrder α] [IsStrictOrderedRing α] in
theorem elems_neg (t : Bracketing α) : t.neg.elems = t.elems.map (-·) := by
  induction t with
  | empty => rfl
  | leaf x => rfl
  | node l r ihl ihr => rw [neg, elems, elems, ihl, ihr, List.map_append]

theorem eval_neg (h : lo ≤ hi) (t : Bracketing α) : t.neg.eval (-hi) (-lo) = -t.eval lo hi := by
  induction t with
  | empty => exact neg_zero.symm
  | leaf x => rfl
  | node l r ihl ihr => rw [neg, eval, eval, ihl, ihr, ← neg_add, clamp_neg h]

omit [IsStrictOrderedRing α] in
/-- **Bracketings in the place of leaves**: their summands follow one another, and what is made of
their values stays as it is. -/
theorem graft {ts : List (Bracketing α)} {t : Bracketing α}
    (h : t.elems = ts.map (eval lo hi)) :
    ∃ t' : Bracketing α, t'.elems = ts.flatMap elems ∧ t'.eval lo hi = t.eval lo hi := by
  induction t generalizing ts with
  | empty =>
    obtain rfl : ts = [] := List.map_eq_nil_iff.mp h.symm
    exact ⟨empty, rfl, rfl⟩
  | leaf x =>
    obtain ⟨u, rfl, rfl⟩ := List.map_eq_singleton_iff.mp h.symm
    exact ⟨u, by rw [List.flatMap_singleton], rfl⟩
  | node l r ihl ihr =>
    obtain ⟨ts₁, ts₂, rfl, h₁, h₂⟩ := List.map_eq_append_iff.mp h.symm
    obtain ⟨l', hl, hleval⟩ := ihl h₁.symm
    obtain ⟨r', hr, hreval⟩ := ihr h₂.symm
    refine ⟨node l' r', ?_, ?_⟩
    · rw [elems, hl, hr, List.flatMap_append]
    · rw [eval, hleval, hreval, eval]

/-! ## The exact sum -/

theorem exists_eval_eq_of_nonneg (h : lo ≤ 0) {xs : List α} (hpos : ∀ x ∈ xs, 0 ≤ x)
    (hhi : 0 ≤ hi) : ∃ t : Bracketing α, t.elems = xs ∧ t.eval lo hi = clamp lo hi xs.sum := by
  induction xs with
  | nil => exact ⟨empty, rfl, (clamp_of_mem h hhi).symm⟩
  | cons x xs ih =>
    obtain ⟨hx, hxs⟩ := List.forall_mem_cons.mp hpos
    obtain ⟨t, helems, heval⟩ := ih hxs
    refine ⟨node (leaf x) t, ?_, ?_⟩
    · rw [elems, helems]
      rfl
    · rw [eval, heval, List.sum_cons]
      exact clamp_add_clamp h hx (List.sum_nonneg hxs)

theorem exists_eval_eq_of_nonpos (h : lo ≤ 0) {xs : List α} (hneg : ∀ x ∈ xs, x ≤ 0)
    (hhi : 0 ≤ hi) : ∃ t : Bracketing α, t.elems = xs ∧ t.eval lo hi = clamp lo hi xs.sum := by
  have hpos : ∀ x ∈ xs.map (-·), 0 ≤ x := by
    intro x hx
    obtain ⟨y, hy, rfl⟩ := List.mem_map.mp hx
    exact neg_nonneg.mpr (hneg y hy)
  obtain ⟨t, helems, heval⟩ := exists_eval_eq_of_nonneg (neg_nonpos.mpr hhi) hpos (neg_nonneg.mpr h)
  refine ⟨t.neg, ?_, ?_⟩
  · rw [elems_neg, helems, List.map_map]
    simp
  · have hbounds : -hi ≤ -lo := neg_le_neg (h.trans hhi)
    have hback := eval_neg hbounds t
    rw [neg_neg, neg_neg, heval, ← List.sum_neg, clamp_neg (h.trans hhi), neg_neg] at hback
    exact hback

omit [IsStrictOrderedRing α] in
/-- A list has one sign, or two neighbours of opposite signs. -/
theorem sameSign_or_pair (xs : List α) :
    (∀ x ∈ xs, 0 ≤ x) ∨ (∀ x ∈ xs, x ≤ 0) ∨
      ∃ p a b q, xs = p ++ a :: b :: q ∧ ((0 ≤ a ∧ b ≤ 0) ∨ (a ≤ 0 ∧ 0 ≤ b)) := by
  induction xs with
  | nil => exact .inl nofun
  | cons x xs ih =>
    cases xs with
    | nil =>
      rcases le_total 0 x with hx | hx
      · exact .inl (by simpa using hx)
      · exact .inr (.inl (by simpa using hx))
    | cons y ys =>
      rcases ih with hpos | hneg | ⟨p, a, b, q, heq, hpair⟩
      · rcases le_total 0 x with hx | hx
        · exact .inl (List.forall_mem_cons.mpr ⟨hx, hpos⟩)
        · exact .inr (.inr ⟨[], x, y, ys, rfl, .inr ⟨hx, hpos y List.mem_cons_self⟩⟩)
      · rcases le_total 0 x with hx | hx
        · exact .inr (.inr ⟨[], x, y, ys, rfl, .inl ⟨hx, hneg y List.mem_cons_self⟩⟩)
        · exact .inr (.inl (List.forall_mem_cons.mpr ⟨hx, hneg⟩))
      · exact .inr (.inr ⟨x :: p, a, b, q, by rw [heq]; rfl, hpair⟩)

omit [IsStrictOrderedRing α] in
/-- In the place of a summand there may be two, if adding them saturates nothing. -/
theorem exists_split {p q : List α} {a b : α} (hsum : lo ≤ a + b ∧ a + b ≤ hi) {t : Bracketing α}
    (h : t.elems = p ++ (a + b) :: q) :
    ∃ t' : Bracketing α, t'.elems = p ++ a :: b :: q ∧ t'.eval lo hi = t.eval lo hi := by
  have hvalues : ∀ ys : List α, (ys.map leaf).map (eval lo hi) = ys := by
    intro ys
    rw [List.map_map]
    exact List.map_id ys
  have helems : ∀ ys : List α, (ys.map leaf).flatMap elems = ys := by
    intro ys
    rw [List.flatMap_map]
    exact List.flatMap_singleton' ys
  have hpair : t.elems =
      (p.map leaf ++ node (leaf a) (leaf b) :: q.map leaf).map (eval lo hi) := by
    rw [h, List.map_append, List.map_cons, hvalues, hvalues]
    show _ = p ++ clamp lo hi (a + b) :: q
    rw [clamp_of_mem hsum.1 hsum.2]
  obtain ⟨t', ht', heval⟩ := graft hpair
  refine ⟨t', ?_, heval⟩
  rw [ht', List.flatMap_append, List.flatMap_cons, helems, helems]
  rfl

/-- **Some bracketing is exact**: neighbours of opposite signs are added first, which never touches
a bound, until all summands have the same sign. Induction on their number. -/
theorem exists_eval_eq (hlo : lo ≤ 0) (hhi : 0 ≤ hi) {xs : List α}
    (h : ∀ x ∈ xs, lo ≤ x ∧ x ≤ hi) :
    ∃ t : Bracketing α, t.elems = xs ∧ t.eval lo hi = clamp lo hi xs.sum := by
  induction hn : xs.length generalizing xs with
  | zero =>
    obtain rfl := List.eq_nil_of_length_eq_zero hn
    exact ⟨empty, rfl, (clamp_of_mem hlo hhi).symm⟩
  | succ n ih =>
    rcases sameSign_or_pair xs with hpos | hneg | ⟨p, a, b, q, rfl, hpair⟩
    · exact exists_eval_eq_of_nonneg hlo hpos hhi
    · exact exists_eval_eq_of_nonpos hlo hneg hhi
    · have ha := h a (by simp)
      have hb := h b (by simp)
      have hsum : lo ≤ a + b ∧ a + b ≤ hi := by
        rcases hpair with ⟨hapos, hbneg⟩ | ⟨haneg, hbpos⟩
        · exact ⟨by linarith, by linarith⟩
        · exact ⟨by linarith, by linarith⟩
      have hmem : ∀ x ∈ p ++ (a + b) :: q, lo ≤ x ∧ x ≤ hi := by
        intro x hx
        rcases List.mem_append.mp hx with hx | hx
        · exact h x (by simp [hx])
        rcases List.mem_cons.mp hx with rfl | hx
        · exact hsum
        · exact h x (by simp [hx])
      have hlen : (p ++ (a + b) :: q).length = n := by
        simp only [List.length_append, List.length_cons] at hn ⊢
        omega
      -- the pair is one summand for the shorter list, and is bracketed in place of it
      obtain ⟨t, helems, heval⟩ := ih hmem hlen
      obtain ⟨t', helems', heval'⟩ := exists_split hsum helems
      refine ⟨t', helems', ?_⟩
      rw [heval', heval]
      congr 1
      simp only [List.sum_append, List.sum_cons]
      rw [add_assoc a b]

/-! ## All bracketings

All trees give the same result exactly where clamping the sums of consecutive runs never matters. -/

omit [IsStrictOrderedRing α] in
theorem eval_mem (hlo : lo ≤ 0) (hhi : 0 ≤ hi) {t : Bracketing α}
    (h : ∀ x ∈ t.elems, lo ≤ x ∧ x ≤ hi) : lo ≤ t.eval lo hi ∧ t.eval lo hi ≤ hi := by
  cases t with
  | empty => exact ⟨hlo, hhi⟩
  | leaf x => exact h x (List.mem_singleton.mpr rfl)
  | node l r => exact clamp_mem (hlo.trans hhi) _

end Bracketing

/-- Clamping the sums of some consecutive runs before they are added, and the total at the end, gives
the clamped total. -/
def Steady (lo hi : α) (xs : List α) : Prop :=
  ∀ runs : List (List α), runs.flatten = xs →
    clamp lo hi (runs.map fun run => clamp lo hi run.sum).sum = clamp lo hi xs.sum

namespace Steady

theorem neg (hle : lo ≤ hi) {xs : List α} (h : Steady lo hi xs) :
    Steady (-hi) (-lo) (xs.map (-·)) := by
  intro runs hruns
  have hback : (runs.map (List.map (-·))).flatten = xs := by
    rw [← List.map_flatten, hruns, List.map_map]
    simp
  have hsum : ∀ run : List α, clamp (-hi) (-lo) run.sum = -clamp lo hi (run.map (-·)).sum := by
    intro run
    rw [← List.sum_neg, ← clamp_neg hle, neg_neg]
  have htotal : (runs.map fun run => clamp (-hi) (-lo) run.sum).sum =
      -((runs.map (List.map (-·))).map fun run => clamp lo hi run.sum).sum := by
    simp only [hsum, List.map_map, List.sum_neg]
    rfl
  rw [htotal, clamp_neg hle, h _ hback, ← clamp_neg hle, List.sum_neg]

/-- Where the total stays between the bounds, so does every consecutive run. -/
theorem run_eq {p run q : List α} (h : Steady lo hi (p ++ run ++ q))
    (hmem : ∀ x ∈ p ++ run ++ q, lo ≤ x ∧ x ≤ hi) (hlo : lo < (p ++ run ++ q).sum)
    (hhi : (p ++ run ++ q).sum < hi) : clamp lo hi run.sum = run.sum := by
  have hsingles : ∀ ys : List α, (∀ y ∈ ys, lo ≤ y ∧ y ≤ hi) →
      ((ys.map fun y => [y]).map fun run => clamp lo hi run.sum) = ys := by
    intro ys hys
    rw [List.map_map]
    conv_rhs => rw [← List.map_id ys]
    apply List.map_congr_left
    intro y hy
    show clamp lo hi [y].sum = y
    rw [List.sum_singleton, clamp_of_mem (hys y hy).1 (hys y hy).2]
  have hflat : ∀ ys : List α, (ys.map fun y => [y]).flatten = ys := by
    intro ys
    rw [← List.flatMap_def]
    exact List.flatMap_singleton' ys
  have hruns := h ((p.map fun x => [x]) ++ run :: q.map fun x => [x]) (by
    rw [List.flatten_append, List.flatten_cons, hflat, hflat, List.append_assoc])
  rw [List.map_append, List.map_cons, hsingles p fun x hx => hmem x (by simp [hx]),
    hsingles q fun x hx => hmem x (by simp [hx]), clamp_of_mem hlo.le hhi.le, List.sum_append,
    List.sum_cons] at hruns
  have hinner : p.sum + (clamp lo hi run.sum + q.sum) = (p ++ run ++ q).sum :=
    eq_of_clamp_eq hruns hlo hhi
  rw [List.sum_append, List.sum_append] at hinner
  linarith

end Steady

namespace Bracketing

/-- The sum that saturates at the upper bound only. -/
def evalUp (hi : α) : Bracketing α → α
  | empty => 0
  | leaf x => x
  | node l r => min hi (l.evalUp hi + r.evalUp hi)

theorem evalUp_le_eval (t : Bracketing α) : t.evalUp hi ≤ t.eval lo hi := by
  induction t with
  | empty => exact le_refl _
  | leaf x => exact le_refl _
  | node l r ihl ihr =>
    exact (min_le_min_left hi (add_le_add ihl ihr)).trans (le_max_right _ _)

/-- What saturates at the upper bound are some consecutive runs, and nothing else. -/
theorem exists_runs_evalUp (hle : lo ≤ hi) {t : Bracketing α}
    (h : ∀ x ∈ t.elems, lo ≤ x ∧ x ≤ hi) :
    t.evalUp hi ≤ t.elems.sum ∧ ∃ runs : List (List α), runs.flatten = t.elems ∧
      (runs.map fun run => clamp lo hi run.sum).sum = t.evalUp hi := by
  induction t with
  | empty => exact ⟨le_refl _, [], rfl, rfl⟩
  | leaf x =>
    have hx := h x (List.mem_singleton.mpr rfl)
    refine ⟨(List.sum_singleton).ge, [[x]], rfl, ?_⟩
    rw [List.map_singleton, List.sum_singleton, List.sum_singleton, clamp_of_mem hx.1 hx.2]
    rfl
  | node l r ihl ihr =>
    obtain ⟨hlsum, lruns, hlflat, hl⟩ := ihl fun x hx => h x (List.mem_append_left _ hx)
    obtain ⟨hrsum, rruns, hrflat, hr⟩ := ihr fun x hx => h x (List.mem_append_right _ hx)
    have hsum : l.evalUp hi + r.evalUp hi ≤ (node l r).elems.sum := by
      rw [elems, List.sum_append]
      exact add_le_add hlsum hrsum
    refine ⟨(min_le_right _ _).trans hsum, ?_⟩
    rcases le_total (l.evalUp hi + r.evalUp hi) hi with hfits | hover
    · refine ⟨lruns ++ rruns, ?_, ?_⟩
      · rw [List.flatten_append, hlflat, hrflat]
        rfl
      · rw [List.map_append, List.sum_append, hl, hr, evalUp, min_eq_right hfits]
    · refine ⟨[(node l r).elems], ?_, ?_⟩
      · exact List.append_nil _
      · rw [List.map_singleton, List.sum_singleton, clamp_of_ge hle (hover.trans hsum), evalUp,
          min_eq_left hover]

/-- A total beyond the upper bound is reached by every bracketing. -/
theorem eval_eq_of_ge (hlo : lo ≤ 0) (hhi : 0 ≤ hi) (hlt : lo < hi) {t : Bracketing α}
    (hmem : ∀ x ∈ t.elems, lo ≤ x ∧ x ≤ hi) (h : Steady lo hi t.elems) (hge : hi ≤ t.elems.sum) :
    t.eval lo hi = hi := by
  obtain ⟨-, runs, hflat, hruns⟩ := exists_runs_evalUp hlt.le hmem
  have hclamp := h runs hflat
  rw [hruns, clamp_of_ge hlt.le hge] at hclamp
  have hup : hi ≤ t.evalUp hi := by
    by_contra hless
    rw [not_le] at hless
    rw [clamp, min_eq_right hless.le] at hclamp
    exact absurd hclamp (max_lt hlt hless).ne
  exact le_antisymm (eval_mem hlo hhi hmem).2 (hup.trans (evalUp_le_eval t))

/-- Where the total stays between the bounds, no run leaves them, and no addition saturates. -/
theorem eval_eq_sum {u : Bracketing α} {p q : List α} (h : Steady lo hi (p ++ u.elems ++ q))
    (hmem : ∀ x ∈ p ++ u.elems ++ q, lo ≤ x ∧ x ≤ hi) (habove : lo < (p ++ u.elems ++ q).sum)
    (hbelow : (p ++ u.elems ++ q).sum < hi) : u.eval lo hi = u.elems.sum := by
  induction u generalizing p q with
  | empty => rfl
  | leaf x => exact List.sum_singleton.symm
  | node l r ihl ihr =>
    have hleft : p ++ (node l r).elems ++ q = p ++ l.elems ++ (r.elems ++ q) := by
      simp only [elems, List.append_assoc]
    have hright : p ++ (node l r).elems ++ q = p ++ l.elems ++ r.elems ++ q := by
      simp only [elems, List.append_assoc]
    have hl := ihl (hleft ▸ h) (hleft ▸ hmem) (hleft ▸ habove) (hleft ▸ hbelow)
    have hr := ihr (hright ▸ h) (hright ▸ hmem) (hright ▸ habove) (hright ▸ hbelow)
    rw [eval, hl, hr, ← List.sum_append]
    exact h.run_eq hmem habove hbelow

/-- **Every bracketing of steady summands** gives their clamped total. -/
theorem eval_eq_of_steady (hlo : lo ≤ 0) (hhi : 0 ≤ hi) (hlt : lo < hi) {t : Bracketing α}
    (hmem : ∀ x ∈ t.elems, lo ≤ x ∧ x ≤ hi) (h : Steady lo hi t.elems) :
    t.eval lo hi = clamp lo hi t.elems.sum := by
  rcases le_or_gt hi t.elems.sum with hge | hbelow
  · rw [eval_eq_of_ge hlo hhi hlt hmem h hge, clamp_of_ge hlt.le hge]
  rcases le_or_gt t.elems.sum lo with hle | habove
  · -- the same for the negated summands
    have hmem' : ∀ x ∈ t.neg.elems, -hi ≤ x ∧ x ≤ -lo := by
      intro x hx
      rw [elems_neg] at hx
      obtain ⟨y, hy, rfl⟩ := List.mem_map.mp hx
      exact ⟨neg_le_neg (hmem y hy).2, neg_le_neg (hmem y hy).1⟩
    have hsteady : Steady (-hi) (-lo) t.neg.elems := by
      rw [elems_neg]
      exact h.neg hlt.le
    have hneg := eval_eq_of_ge (neg_nonpos.mpr hhi) (neg_nonneg.mpr hlo) (neg_lt_neg hlt) hmem'
      hsteady (by rw [elems_neg, ← List.sum_neg]; exact neg_le_neg hle)
    rw [eval_neg hlt.le, neg_inj] at hneg
    rw [hneg, clamp_of_le hlt.le hle]
  · rw [← List.append_nil t.elems] at h hmem habove hbelow
    rw [eval_eq_sum (p := []) h hmem habove hbelow, ← List.append_nil t.elems,
      clamp_of_mem habove.le hbelow.le]

/-- **When the bracketing does not matter**: exactly if the summands are steady. -/
theorem eval_eq_iff_steady (hlo : lo ≤ 0) (hhi : 0 ≤ hi) (hlt : lo < hi) {t₀ : Bracketing α}
    (hmem : ∀ x ∈ t₀.elems, lo ≤ x ∧ x ≤ hi) :
    (∀ t : Bracketing α, t.elems = t₀.elems → t.eval lo hi = t₀.eval lo hi) ↔
      Steady lo hi t₀.elems := by
  constructor
  · intro hall runs hflat
    -- an exact bracketing of each run, and an exact one of their values
    have hexact : ∀ run ∈ runs, ∃ u : Bracketing α,
        u.elems = run ∧ u.eval lo hi = clamp lo hi run.sum := by
      intro run hrun
      apply exists_eval_eq hlo hhi
      intro x hx
      exact hmem x (hflat ▸ List.mem_flatten_of_mem hrun hx)
    have : Nonempty (Bracketing α) := ⟨empty⟩
    choose! bracket hbracket using hexact
    have helems : (runs.map bracket).map elems = runs := by
      rw [List.map_map]
      conv_rhs => rw [← List.map_id runs]
      exact List.map_congr_left fun run hrun => (hbracket run hrun).1
    have hevals : (runs.map bracket).map (eval lo hi) =
        runs.map fun run => clamp lo hi run.sum := by
      rw [List.map_map]
      exact List.map_congr_left fun run hrun => (hbracket run hrun).2
    have hvalues : ∀ x ∈ (runs.map bracket).map (eval lo hi), lo ≤ x ∧ x ≤ hi := by
      intro x hx
      rw [hevals] at hx
      obtain ⟨run, -, rfl⟩ := List.mem_map.mp hx
      exact clamp_mem hlt.le _
    obtain ⟨t, ht, heval⟩ := exists_eval_eq hlo hhi hvalues
    obtain ⟨t', ht', heval'⟩ := graft ht
    obtain ⟨exact₀, hexact, htotal⟩ := exists_eval_eq hlo hhi hmem
    have hflat' : t'.elems = t₀.elems := by
      rw [ht', List.flatMap_def, helems, hflat]
    rw [← hevals, ← heval, ← heval', hall t' hflat', ← hall exact₀ hexact, htotal]
  · intro hsteady t ht
    rw [eval_eq_of_steady hlo hhi hlt (ht ▸ hmem) (ht ▸ hsteady),
      eval_eq_of_steady hlo hhi hlt hmem hsteady, ht]

end Bracketing

end

end Castrum
