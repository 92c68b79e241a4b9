import Castrum.Shared.Response

/-!
# Castrum — recycled handles (`PooledBufferHandle.release`, `src/shared/buffer-pool.ts`)

A released handle object is re-pointed at another buffer by a later `acquire`, and its `released`
flag is cleared: the flag that makes a second `release` a no-op belongs to whoever holds the
object now. Any number of users acquire, and each may call `release` on its handle as often and as
late as it likes.

* `NoAlias` — no buffer is held by two live checkouts, and none of theirs is on the free list;
* `Fresh` — a repeated `release` finds no newer checkout of its handle object;
* `handles_never_alias` — no buffer is aliased while every call is fresh, and the first call that
  is not breaks it at once.
-/

namespace Castrum.PooledBody

/-- The calls of a pool's users: `acquire`, `release` of a handle it returned, `shrink`. -/
def Action.IsCall : Action → Prop
  | .acquire _ | .release _ | .shrink => True
  | _ => False

/-- Live checkouts hold different buffers, and none of these is free. -/
structure NoAlias (s : Sys) : Prop where
  not_free : ∀ i h, (s.party i).live = some h →
    (s.handle h).buffer.id ∉ s.pool.free.map Buf.id
  exclusive : ∀ i j h h', (s.party i).live = some h → (s.party j).live = some h' →
    (s.handle h).buffer.id = (s.handle h').buffer.id → i = j

/-- A `release` after the first finds its handle object not checked out again. -/
def Fresh (s : Sys) : Action → Prop
  | .release i => ∀ h, s.party i = .returned h → ∀ j, (s.party j).live ≠ some h
  | _ => True

theorem Inv.noAlias {s : Sys} (hinv : Inv s) : NoAlias s where
  not_free := fun i h hi => (hinv.live_buffer i h hi).2
  exclusive := hinv.live_inj

/-! ## Every handle that is out has a holder -/

/-- A handle object whose flag is clear is some checkout's. -/
def Held (s : Sys) : Prop :=
  ∀ h, (s.handle h).released = false → ∃ j, (s.party j).live = some h

theorem Sys.release_of_released {o : PoolOptions} {s : Sys} {h : Nat}
    (hrel : (s.handle h).released = true) : s.release o h = s := by
  rw [Sys.release, if_pos hrel]

/-- A fresh repeated `release` does nothing. -/
theorem Held.release_returned {o : PoolOptions} {s : Sys} (hheld : Held s) {i h : Nat}
    (hi : s.party i = .returned h) (hfresh : Fresh s (.release i)) : s.release o h = s := by
  apply Sys.release_of_released
  cases hflag : (s.handle h).released with
  | true => rfl
  | false =>
    obtain ⟨j, hj⟩ := hheld h hflag
    exact absurd hj (hfresh h hi j)

theorem Held.acquired {s s' : Sys} (hheld : Held s) (hnum : Numbered s) {h : Nat}
    (hacq : Acquired s h s') :
    Held { s'.setParty s.nextParty (.holder h) with nextParty := s.nextParty + 1 } := by
  intro h' hflag
  change (s'.handle h').released = false at hflag
  by_cases hne : h' = h
  · refine ⟨s.nextParty, ?_⟩
    show (Function.update s'.party s.nextParty (.holder h) s.nextParty).live = some h'
    rw [Function.update_self, hne]
    rfl
  · rw [hacq.keep h' hne] at hflag
    obtain ⟨j, hj⟩ := hheld h' hflag
    -- the new checkout's index was not in use
    have hjn : j ≠ s.nextParty := by
      intro heq
      rw [heq, hnum _ (le_refl _)] at hj
      exact absurd hj (by simp [Party.live])
    refine ⟨j, ?_⟩
    show (Function.update s'.party s.nextParty (.holder h) j).live = some h'
    rw [Function.update_of_ne hjn, hacq.party]
    exact hj

theorem Held.released {s s' : Sys} (hheld : Held s) {i h : Nat} (hi : s.party i = .holder h)
    (hrel : Released s h s') : Held (s'.setParty i (.returned h)) := by
  intro h' hflag
  change (s'.handle h').released = false at hflag
  rw [hrel.handle] at hflag
  have hne : h' ≠ h := by
    intro heq
    rw [heq, Function.update_self] at hflag
    exact absurd hflag (by simp)
  rw [Function.update_of_ne hne] at hflag
  obtain ⟨j, hj⟩ := hheld h' hflag
  have hji : j ≠ i := by
    intro heq
    rw [heq, hi, Party.live, Option.some.injEq] at hj
    exact hne hj.symm
  refine ⟨j, ?_⟩
  show (Function.update s'.party i (.returned h) j).live = some h'
  rw [Function.update_of_ne hji, hrel.party]
  exact hj

/-! ## Steps and runs -/

/-- What every reached state satisfies. -/
structure Owned (s : Sys) : Prop where
  inv : Inv s
  numbered : Numbered s
  held : Held s

theorem Owned.init (o : PoolOptions) (prefill : Nat) (prefillBytes : Option Nat) :
    Owned (Sys.init o prefill prefillBytes) where
  inv := Inv.init o prefill prefillBytes
  numbered := fun _ _ => rfl
  held := fun h hflag => absurd hflag (by simp [Sys.init])

/-- **One fresh call keeps ownership.** -/
theorem Owned.step {o : PoolOptions} {s s' : Sys} {a : Action} (hown : Owned s) (hcall : a.IsCall)
    (hfresh : Fresh s a) (hstep : s.step o a = some s') : Owned s' := by
  obtain ⟨hinv, hnum, hheld⟩ := hown
  have hnum' := hnum.step hstep
  cases a with
  | acquire minSize =>
    refine ⟨hinv.step hnum (a := .acquire minSize) trivial hstep, hnum', ?_⟩
    simp only [Sys.step] at hstep
    split at hstep
    · next h t hacq =>
      cases hstep
      exact hheld.acquired hnum (hinv.acquire hacq)
    · cases hstep
      exact hheld
  | release i =>
    cases hi : s.party i with
    | holder h =>
      have hord : Orderly s (.release i) := ⟨h, hi⟩
      refine ⟨hinv.step hnum hord hstep, hnum', ?_⟩
      simp only [Sys.step, hi] at hstep
      cases hstep
      have hlive : (s.party i).live = some h := by rw [hi, Party.live]
      obtain ⟨hlt, hnew⟩ := hinv.live_buffer i h hlive
      exact hheld.released hi (Sys.release_spec o hinv.wf (hinv.live_out i h hlive).1 hlt hnew)
    | returned h =>
      -- a handle that went back already is not given back twice
      simp only [Sys.step, hi, hheld.release_returned hi hfresh, Option.some.injEq] at hstep
      exact hstep ▸ ⟨hinv, hnum, hheld⟩
    | absent => exact absurd hstep (by simp [Sys.step, hi])
    | response st => exact absurd hstep (by simp [Sys.step, hi])
  | shrink =>
    refine ⟨hinv.step hnum (a := .shrink) trivial hstep, hnum', ?_⟩
    cases hstep
    exact hheld
  | respond | pull | read | cancel | timer => exact hcall.elim

/-- A stale `release` of a handle that is out again frees the newer checkout's buffer. -/
theorem Owned.stale_release {o : PoolOptions} {s : Sys} (hown : Owned s) {j h : Nat}
    (hj : (s.party j).live = some h) : ¬ NoAlias (s.release o h) := by
  intro hno
  have hflag := (hown.inv.live_out j h hj).1
  have hparty := (Sys.release_party o s h).1
  refine hno.not_free j h (by rw [hparty]; exact hj) ?_
  rw [Sys.release, if_neg (by rw [hflag]; simp)]
  simp [Sys.returnHandle, Pool.releaseBuffer]

/-- **Fresh calls never alias a buffer**, and a call that is not fresh aliases one at once. -/
theorem handles_never_alias (o : PoolOptions) (prefill : Nat) (prefillBytes : Option Nat) (s : Sys)
    (hrun : Run (Sys.step o) (fun s a => a.IsCall ∧ Fresh s a)
      (Sys.init o prefill prefillBytes) s) :
    NoAlias s ∧
      ∀ a s', a.IsCall → s.step o a = some s' → (NoAlias s' ↔ Fresh s a) := by
  have hown : Owned s :=
    hrun.invariant (Owned.init o prefill prefillBytes)
      (fun t a u ht hcond hstep => ht.step hcond.1 hcond.2 hstep)
  refine ⟨hown.inv.noAlias, fun a s' hcall hstep => ⟨fun hno => ?_, fun hfresh =>
    (hown.step hcall hfresh hstep).inv.noAlias⟩⟩
  cases a with
  | release i =>
    intro h hi j hj
    simp only [Sys.step, hi, Option.some.injEq] at hstep
    rw [← hstep] at hno
    exact hown.stale_release hj hno
  | acquire | respond | pull | read | cancel | timer | shrink => trivial

/-- A second `release` within one checkout: the handle is not out again. -/
theorem handles_never_alias_twice :
    ∃ s : Sys, NoAlias s ∧ s.pool.free.length = 1 ∧ s.nextParty = 1 := by
  have hrun : Run (Sys.step ⟨8, 2, 0, none, by decide, by decide⟩)
      (fun s a => a.IsCall ∧ Fresh s a)
      (Sys.init ⟨8, 2, 0, none, by decide, by decide⟩ 0 none) _ :=
    .tail (.tail (.tail .refl ⟨trivial, trivial⟩ (a := .acquire 4) rfl)
      ⟨trivial, fun h hh => absurd hh (by simp [Sys.setParty, Sys.init])⟩ (a := .release 0) rfl)
      ⟨trivial, fun h _ j => by
        by_cases hj : j = 0
        · simp [hj, Sys.setParty, Party.live]
        · simp [Function.update_of_ne hj, Sys.setParty, Party.live, Sys.release, Sys.returnHandle,
            Sys.init]⟩ (a := .release 0) rfl
  exact ⟨_, (handles_never_alias _ _ _ _ hrun).1, rfl, rfl⟩

/-- The first user releases again after its handle went to the second: the second's buffer is
free, and the third user gets it too. -/
theorem handles_alias_stale_release :
    ¬ ∀ (o : PoolOptions) (prefill : Nat) (prefillBytes : Option Nat) (s : Sys),
      Run (Sys.step o) (fun _ a => a.IsCall) (Sys.init o prefill prefillBytes) s → NoAlias s := by
  intro h
  have hrun : Run (Sys.step ⟨8, 2, 0, none, by decide, by decide⟩) (fun _ a => a.IsCall)
      (Sys.init ⟨8, 2, 0, none, by decide, by decide⟩ 0 none) _ :=
    .tail (.tail (.tail (.tail (.tail .refl trivial (a := .acquire 4) rfl)
      trivial (a := .release 0) rfl) trivial (a := .acquire 4) rfl)
      trivial (a := .release 0) rfl) trivial (a := .acquire 4) rfl
  exact absurd ((h _ _ _ _ hrun).exclusive 1 2 0 0 rfl rfl rfl) (by decide)

end Castrum.PooledBody
