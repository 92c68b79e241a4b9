import Mathlib.Data.List.Basic
import Mathlib.Tactic

/-!
# Castrum — places in a tree

A tree whose nodes have children under labels of type `σ`, read and replaced one label at a time. A
place is the list of labels that leads to it. Two trees are alike when every place shows the same in
both, so that the order in which a node keeps its children does not matter.

* `Nav.subtree_set_append` / `Nav.subtree_set_of_disjoint` — what a replaced subtree changes, and what not;
* `Nav.set_append` — a replacement deep down is one further up;
* `Nav.Alike.set` — replacing by something alike.
-/

namespace Castrum

/-- Trees of type `α` with labels in `σ`; `shape` is what a node shows apart from its children. -/
structure Nav (α σ τ : Type) where
  child : α → σ → Option α
  put : α → σ → α → α
  shape : α → τ
  child_put : ∀ {a c : α} {s : σ} (c' : α), child a s = some c → child (put a s c') s = some c'
  child_put_ne : ∀ {a : α} {s t : σ} (c' : α), t ≠ s → child (put a s c') t = child a t
  shape_put : ∀ {a c : α} {s : σ} (c' : α), child a s = some c → shape (put a s c') = shape a

namespace Nav

variable {α σ τ : Type} (N : Nav α σ τ)

/-- The subtree at a place. -/
def subtree : α → List σ → Option α
  | a, [] => some a
  | a, s :: p => (N.child a s).bind (subtree · p)

/-- Replace the subtree at a place. -/
def set : α → List σ → α → α
  | _, [], x => x
  | a, s :: p, x =>
    match N.child a s with
    | some c => N.put a s (set c p x)
    | none => a

/-- Every place shows the same. -/
def Alike (a b : α) : Prop := ∀ p, (N.subtree a p).map N.shape = (N.subtree b p).map N.shape

variable {N} {a b c x y : α} {s : σ} {p q : List σ}

theorem subtree_append : N.subtree a (p ++ q) = (N.subtree a p).bind (N.subtree · q) := by
  induction p generalizing a with
  | nil => rfl
  | cons s p ih =>
    rw [List.cons_append, subtree, subtree, Option.bind_assoc]
    exact Option.bind_congr fun c _ => ih

theorem subtree_concat : N.subtree a (p ++ [s]) = (N.subtree a p).bind (N.child · s) := by
  rw [subtree_append]
  apply Option.bind_congr
  intro c _
  rw [subtree]
  exact Option.bind_fun_some _

/-- What is there after a replacement … -/
theorem subtree_set_append (h : N.subtree a p = some c) (x : α) (q : List σ) :
    N.subtree (N.set a p x) (p ++ q) = N.subtree x q := by
  induction p generalizing a with
  | nil => rfl
  | cons s p ih =>
    obtain ⟨d, hd, hc⟩ := Option.bind_eq_some_iff.mp h
    rw [set, hd]
    dsimp only
    rw [List.cons_append, subtree, N.child_put _ hd, Option.bind_some]
    exact ih hc

theorem subtree_set (h : N.subtree a p = some c) (x : α) : N.subtree (N.set a p x) p = some x := by
  have := subtree_set_append h x []
  rwa [List.append_nil] at this

/-- … and what is not touched: **places of which neither leads to the other.** -/
theorem subtree_set_of_disjoint (h : N.subtree a p = some c) (x : α) (hpq : ¬ p <+: q) (hqp : ¬ q <+: p) :
    N.subtree (N.set a p x) q = N.subtree a q := by
  induction p generalizing a q with
  | nil => exact absurd List.nil_prefix hpq
  | cons s p ih =>
    obtain ⟨d, hd, hc⟩ := Option.bind_eq_some_iff.mp h
    cases q with
    | nil => exact absurd List.nil_prefix hqp
    | cons t q =>
      rw [set, hd]
      dsimp only
      rw [subtree, subtree]
      by_cases hts : t = s
      · subst hts
        rw [List.cons_prefix_cons, and_iff_right rfl] at hpq hqp
        rw [N.child_put _ hd, hd, Option.bind_some, Option.bind_some]
        exact ih hc hpq hqp
      · rw [N.child_put_ne _ hts]

/-- A replacement deep down is one further up. -/
theorem set_append (h : N.subtree a p = some c) (q : List σ) (x : α) :
    N.set a (p ++ q) x = N.set a p (N.set c q x) := by
  induction p generalizing a with
  | nil =>
    obtain rfl := Option.some.inj h
    rfl
  | cons s p ih =>
    obtain ⟨d, hd, hc⟩ := Option.bind_eq_some_iff.mp h
    rw [List.cons_append, set, set, hd]
    dsimp only
    rw [ih hc]

theorem Alike.refl (a : α) : N.Alike a a := fun _ => rfl

theorem Alike.symm (h : N.Alike a b) : N.Alike b a := fun p => (h p).symm

theorem Alike.trans (hab : N.Alike a b) (hbc : N.Alike b c) : N.Alike a c :=
  fun p => (hab p).trans (hbc p)

/-- Two nodes that show the same and have alike children under every label. -/
theorem Alike.of_children (hshape : N.shape a = N.shape b)
    (hchild : ∀ s q, ((N.child a s).bind (N.subtree · q)).map N.shape =
      ((N.child b s).bind (N.subtree · q)).map N.shape) : N.Alike a b := by
  intro p
  cases p with
  | nil =>
    rw [subtree, subtree, Option.map_some, Option.map_some, hshape]
  | cons s p => exact hchild s p

/-- Alike trees put at the same place. -/
theorem Alike.set (hxy : N.Alike x y) (h : N.subtree a p = some c) :
    N.Alike (N.set a p x) (N.set a p y) := by
  induction p generalizing a with
  | nil => exact hxy
  | cons s p ih =>
    obtain ⟨d, hd, hc⟩ := Option.bind_eq_some_iff.mp h
    rw [Nav.set, Nav.set, hd]
    apply Alike.of_children
    · rw [N.shape_put _ hd, N.shape_put _ hd]
    · intro t q
      by_cases hts : t = s
      · subst hts
        rw [N.child_put _ hd, N.child_put _ hd]
        exact ih hc q
      · rw [N.child_put_ne _ hts, N.child_put_ne _ hts]

/-- Something alike put where it came from. -/
theorem Alike.set_self (h : N.subtree a p = some c) (hx : N.Alike x c) : N.Alike (N.set a p x) a := by
  induction p generalizing a with
  | nil =>
    obtain rfl := Option.some.inj h
    exact hx
  | cons s p ih =>
    obtain ⟨d, hd, hc⟩ := Option.bind_eq_some_iff.mp h
    rw [Nav.set, hd]
    apply Alike.of_children
    · exact N.shape_put _ hd
    · intro t q
      by_cases hts : t = s
      · subst hts
        rw [N.child_put _ hd, hd]
        exact ih hc q
      · rw [N.child_put_ne _ hts]

/-- Of two replacements at one place the second counts. -/
theorem Alike.set_set (h : N.subtree a p = some c) (x y : α) :
    N.Alike (N.set (N.set a p x) p y) (N.set a p y) := by
  induction p generalizing a with
  | nil => exact Alike.refl y
  | cons s p ih =>
    obtain ⟨d, hd, hc⟩ := Option.bind_eq_some_iff.mp h
    have houter : N.set a (s :: p) x = N.put a s (N.set d p x) := by
      rw [Nav.set, hd]
    rw [houter, Nav.set, Nav.set, N.child_put _ hd, hd]
    apply Alike.of_children
    · rw [N.shape_put _ (N.child_put _ hd), N.shape_put _ hd, N.shape_put _ hd]
    · intro t q
      by_cases hts : t = s
      · subst hts
        rw [N.child_put _ (N.child_put _ hd), N.child_put _ hd]
        exact ih hc q
      · rw [N.child_put_ne _ hts, N.child_put_ne _ hts, N.child_put_ne _ hts]

end Nav

end Castrum
