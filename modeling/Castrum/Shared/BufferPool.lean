import Mathlib.Tactic

/-!
# Castrum — the reusable byte-buffer pool (`src/shared/buffer-pool.ts`)

`acquire` hands out a `PooledBufferHandle`, `release` takes it back. Buffers wait in the free
list, handle objects in `freeHandles`: a released handle is re-pointed at another buffer by a
later `acquire`, so a handle object is not a checkout. Handles are therefore heap cells here and
a checkout is the index of its cell.

A `Uint8Array` is its identity and its length. `AdaptiveEstimate` enters as the function from the
sizes sampled so far to `Math.ceil(estimate)`.

* `Pool.take_spec` — a taken buffer comes out of the free list or is a fresh one, and the free
  list keeps only buffers it had;
* `Pool.releaseBuffer_spec` — a returned buffer joins a free list that only shrank.
-/

namespace Castrum

/-- A `Uint8Array`: its identity and its length. -/
structure Buf where
  id : Nat
  byteLength : Nat
  deriving DecidableEq, Repr

/-- The options a pool keeps; the constructor clamps the first two to at least `1`. -/
structure PoolOptions where
  initialSize : Nat
  maxBuffers : Nat
  maxInFlight : Nat
  ceilEstimate : Option (List Nat → Nat)
  initialSize_pos : 0 < initialSize
  maxBuffers_pos : 0 < maxBuffers

def PoolOptions.maxHandles (o : PoolOptions) : Nat := o.maxBuffers + max 1 o.maxInFlight

/-- The pool's fields; `created` also numbers the buffers, `samples` is what `estimate` has
learned from, newest first. -/
structure Pool where
  free : List Buf
  freeHandles : List Nat
  created : Nat
  inFlight : Int
  samples : List Nat

/-! ## The free list -/

/-- Remove index `i` by swap-with-last. -/
def swapRemove (l : List Buf) (i : Nat) : List Buf :=
  match l.getLast? with
  | none => []
  | some last => if i < l.length - 1 then l.dropLast.set i last else l.dropLast

/-- The first-fit scan of `take`, from index `i` on. -/
def firstFit (minSize : Nat) : List Buf → Nat → Option (Nat × Buf)
  | [], _ => none
  | b :: bs, i => if b.byteLength ≥ minSize then some (i, b) else firstFit minSize bs (i + 1)

/-- The scan for the largest free buffer: a later one wins only when strictly larger. -/
def largestFrom : List Buf → Nat → Option (Nat × Buf) → Option (Nat × Buf)
  | [], _, best => best
  | b :: bs, i, none => largestFrom bs (i + 1) (some (i, b))
  | b :: bs, i, some (j, m) =>
    if b.byteLength > m.byteLength then largestFrom bs (i + 1) (some (i, b))
    else largestFrom bs (i + 1) (some (j, m))

/-- The scan for the smallest retained buffer of `releaseBuffer`. -/
def smallestFrom : List Buf → Nat → Nat × Buf → Nat
  | [], _, best => best.1
  | b :: bs, i, (j, m) =>
    if b.byteLength < m.byteLength then smallestFrom bs (i + 1) (i, b)
    else smallestFrom bs (i + 1) (j, m)

def Pool.nextSize (o : PoolOptions) (p : Pool) (minSize : Nat) : Nat :=
  let floor := match o.ceilEstimate with
    | some est => max o.initialSize (est p.samples)
    | none => o.initialSize
  max floor minSize

/-- Take a buffer of at least `minSize` bytes out of circulation. -/
def Pool.take (o : PoolOptions) (p : Pool) (minSize : Nat) : Buf × Pool :=
  let p := { p with samples := if o.ceilEstimate.isSome then minSize :: p.samples else p.samples }
  match firstFit minSize p.free 0 with
  | some (i, b) => (b, { p with free := swapRemove p.free i })
  | none =>
    let target := p.nextSize o minSize
    match largestFrom p.free 0 none with
    | some (i, _) =>
      (⟨p.created, target⟩, { p with free := swapRemove p.free i, created := p.created + 1 })
    | none => (⟨p.created, target⟩, { p with created := p.created + 1 })

/-- Return a buffer to the free list, dropping the smallest retained one when the list is full. -/
def Pool.releaseBuffer (o : PoolOptions) (p : Pool) (b : Buf) : Pool :=
  let free :=
    if p.free.length ≥ o.maxBuffers then
      match p.free with
      | [] => swapRemove [] 0
      | m :: rest => swapRemove p.free (smallestFrom rest 1 (0, m))
    else p.free
  { p with free := free ++ [b] }

/-- Drop every retained free buffer. -/
def Pool.shrink (p : Pool) : Pool := { p with free := [] }

/-- How many buffers the constructor allocates beyond the first. -/
def prefillCount (o : PoolOptions) (prefill : Nat) (prefillBytes : Option Nat) : Nat :=
  let n := min prefill (o.maxBuffers - 1)
  match prefillBytes with
  | some bytes => min n (bytes / o.initialSize)
  | none => n

/-- A fresh pool: the initial buffer and the prefilled ones. -/
def Pool.new (o : PoolOptions) (prefill : Nat) (prefillBytes : Option Nat) : Pool where
  free := (List.range (prefillCount o prefill prefillBytes + 1)).map (fun i => ⟨i, o.initialSize⟩)
  freeHandles := []
  created := prefillCount o prefill prefillBytes + 1
  inFlight := 0
  samples := []

/-! ## What the free-list operations keep -/

/-- Removing an index keeps a sub-collection of the list, and the removed entry is gone from it
once. -/
theorem cons_swapRemove_perm {l : List Buf} {i : Nat} {b : Buf} (h : l[i]? = some b) :
    (b :: swapRemove l i).Perm l := by
  obtain ⟨hi, hb⟩ := List.getElem?_eq_some_iff.mp h
  have hne : l ≠ [] := by
    intro hnil
    rw [hnil] at hi
    exact absurd hi (by simp)
  have hsplit : l.dropLast ++ [l.getLast hne] = l := List.dropLast_append_getLast hne
  have hlen : l.dropLast.length = l.length - 1 := List.length_dropLast
  rw [swapRemove, List.getLast?_eq_some_getLast hne]
  simp only
  by_cases hlt : i < l.length - 1
  · rw [if_pos hlt]
    -- the hole is filled with the last entry: split the list around it
    have hi' : i < l.dropLast.length := by rw [hlen]; exact hlt
    have hbi : l.dropLast[i] = b := by rw [List.getElem_dropLast]; exact hb
    have hset : l.dropLast.set i (l.getLast hne) =
        l.dropLast.take i ++ l.getLast hne :: l.dropLast.drop (i + 1) := by
      rw [List.set_eq_take_append_cons_drop, if_pos hi']
    have horig : l.dropLast = l.dropLast.take i ++ b :: l.dropLast.drop (i + 1) := by
      rw [← hbi, List.getElem_cons_drop, List.take_append_drop]
    rw [hset]
    refine ((List.Perm.cons _ List.perm_middle).trans (List.Perm.swap _ _ _)).trans ?_
    refine (List.Perm.cons _ (List.perm_middle (a := b)).symm).trans ?_
    rw [← horig]
    conv_rhs => rw [← hsplit]
    exact (List.perm_append_singleton _ _).symm
  · rw [if_neg hlt]
    have hlast : b = l.getLast hne := by
      rw [List.getLast_eq_getElem, ← hb]
      congr 1
      omega
    rw [hlast]
    conv_rhs => rw [← hsplit]
    exact (List.perm_append_singleton _ _).symm

theorem firstFit_spec {minSize : Nat} {l : List Buf} {k i : Nat} {b : Buf}
    (h : firstFit minSize l k = some (i, b)) :
    k ≤ i ∧ l[i - k]? = some b ∧ minSize ≤ b.byteLength := by
  induction l generalizing k with
  | nil => exact absurd h (by simp [firstFit])
  | cons x xs ih =>
    rw [firstFit] at h
    split at h
    · next hfit =>
      cases h
      exact ⟨le_refl _, by simp, hfit⟩
    · obtain ⟨hk, hget, hfit⟩ := ih h
      refine ⟨by omega, ?_, hfit⟩
      rw [show i - k = (i - (k + 1)) + 1 by omega, List.getElem?_cons_succ]
      exact hget

theorem largestFrom_spec {l : List Buf} {k i : Nat} {b : Buf} {best : Option (Nat × Buf)}
    (h : largestFrom l k best = some (i, b)) :
    best = some (i, b) ∨ k ≤ i ∧ l[i - k]? = some b := by
  induction l generalizing k best with
  | nil => exact .inl (by rw [largestFrom] at h; exact h)
  | cons x xs ih =>
    -- the entry just passed is either kept as `best` or found later in the tail
    have step : ∀ best', largestFrom xs (k + 1) best' = some (i, b) →
        best' = some (i, b) ∨ k ≤ i ∧ (x :: xs)[i - k]? = some b := by
      intro best' h'
      rcases ih h' with hbest | ⟨hk, hget⟩
      · exact .inl hbest
      · refine .inr ⟨by omega, ?_⟩
        rw [show i - k = (i - (k + 1)) + 1 by omega, List.getElem?_cons_succ]
        exact hget
    have here : some (k, x) = some (i, b) → k ≤ i ∧ (x :: xs)[i - k]? = some b := by
      intro heq
      cases heq
      exact ⟨le_refl _, by simp⟩
    cases best with
    | none =>
      rw [largestFrom] at h
      exact .inr ((step _ h).elim here id)
    | some m =>
      obtain ⟨j, m⟩ := m
      rw [largestFrom] at h
      split at h
      · exact .inr ((step _ h).elim here id)
      · exact step _ h

theorem smallestFrom_lt {l : List Buf} {k n : Nat} {best : Nat × Buf} (hbest : best.1 < n)
    (hl : k + l.length ≤ n) : smallestFrom l k best < n := by
  induction l generalizing k best with
  | nil => rw [smallestFrom]; exact hbest
  | cons x xs ih =>
    obtain ⟨j, m⟩ := best
    rw [List.length_cons] at hl
    rw [smallestFrom]
    split
    · exact ih (show k < n by omega) (by omega)
    · exact ih hbest (by omega)

/-! ## The pool's own invariant -/

/-- Free buffers are pairwise distinct, and every identity was handed out by `created`. -/
structure Pool.Wf (p : Pool) : Prop where
  nodup : (p.free.map Buf.id).Nodup
  lt_created : ∀ b ∈ p.free, b.id < p.created

/-- What `take` promises about the buffer it hands out and the pool it leaves. -/
structure Pool.Taken (p : Pool) (b : Buf) (p' : Pool) : Prop where
  wf : p'.Wf
  not_mem : b.id ∉ p'.free.map Buf.id
  lt_created : b.id < p'.created
  created_le : p.created ≤ p'.created
  free_sub : ∀ x ∈ p'.free, x ∈ p.free
  source : b ∈ p.free ∨ p.created ≤ b.id
  freeHandles : p'.freeHandles = p.freeHandles
  inFlight : p'.inFlight = p.inFlight

/-- Dropping index `i` from the free list of a well-formed pool. -/
theorem Pool.Wf.swapRemove {p : Pool} (h : p.Wf) {i : Nat} {b : Buf} (hb : p.free[i]? = some b) :
    (b.id :: (Castrum.swapRemove p.free i).map Buf.id).Nodup ∧
      ∀ x ∈ Castrum.swapRemove p.free i, x ∈ p.free := by
  have hperm := cons_swapRemove_perm hb
  refine ⟨?_, fun x hx => hperm.subset (List.mem_cons_of_mem _ hx)⟩
  have hnodup := (hperm.map Buf.id).nodup_iff.mpr h.nodup
  rwa [List.map_cons] at hnodup

/-- **`take` hands out a buffer nobody else can reach through the pool.** -/
theorem Pool.take_spec {o : PoolOptions} {p : Pool} (h : p.Wf) (minSize : Nat) :
    p.Taken (p.take o minSize).1 (p.take o minSize).2 := by
  -- the two growing branches hand out identity `created`
  have fresh : ∀ free : List Buf, (free.map Buf.id).Nodup → (∀ x ∈ free, x ∈ p.free) →
      ∀ (size : Nat) (samples : List Nat), p.Taken ⟨p.created, size⟩
        { p with free := free, created := p.created + 1, samples := samples } := by
    intro free hnodup hsub size samples
    refine ⟨⟨hnodup, fun b hb => Nat.lt_succ_of_lt (h.lt_created b (hsub b hb))⟩, ?_,
      Nat.lt_succ_self _, Nat.le_succ _, hsub, .inr (le_refl _), rfl, rfl⟩
    intro hmem
    obtain ⟨x, hx, hid⟩ := List.mem_map.mp hmem
    have := h.lt_created x (hsub x hx)
    simp only at hid
    omega
  unfold Pool.take
  simp only
  split
  · next i b hfit =>
    obtain ⟨-, hget, -⟩ := firstFit_spec hfit
    rw [Nat.sub_zero] at hget
    obtain ⟨hnodup, hsub⟩ := h.swapRemove hget
    rw [List.nodup_cons] at hnodup
    have hmem : b ∈ p.free := List.mem_of_getElem? hget
    exact ⟨⟨hnodup.2, fun x hx => h.lt_created x (hsub x hx)⟩, hnodup.1, h.lt_created b hmem,
      le_refl _, hsub, .inl hmem, rfl, rfl⟩
  · split
    · next i b hlargest =>
      have hget : p.free[i]? = some b := by
        rcases largestFrom_spec hlargest with hnone | ⟨-, hget⟩
        · exact absurd hnone (by simp)
        · rwa [Nat.sub_zero] at hget
      obtain ⟨hnodup, hsub⟩ := h.swapRemove hget
      exact fresh _ (List.nodup_cons.mp hnodup).2 hsub _ _
    · exact fresh p.free h.nodup (fun x hx => hx) _ _

/-- **A returned buffer joins the free list**, which otherwise only loses entries. -/
theorem Pool.releaseBuffer_spec {o : PoolOptions} {p : Pool} (h : p.Wf) {b : Buf}
    (hnew : b.id ∉ p.free.map Buf.id) (hlt : b.id < p.created) :
    (p.releaseBuffer o b).Wf ∧ ∀ x ∈ (p.releaseBuffer o b).free, x ∈ p.free ∨ x = b := by
  -- whatever is kept of the old list, pushing `b` onto it is fine
  have push : ∀ free : List Buf, (free.map Buf.id).Nodup → (∀ x ∈ free, x ∈ p.free) →
      ({ p with free := free ++ [b] } : Pool).Wf ∧ ∀ x ∈ free ++ [b], x ∈ p.free ∨ x = b := by
    intro free hnodup hsub
    have hmem : ∀ x ∈ free ++ [b], x ∈ p.free ∨ x = b := by
      intro x hx
      rcases List.mem_append.mp hx with hx | hx
      · exact .inl (hsub x hx)
      · exact .inr (List.mem_singleton.mp hx)
    refine ⟨⟨?_, ?_⟩, hmem⟩
    · rw [List.map_append, List.map_singleton, List.nodup_append]
      refine ⟨hnodup, List.nodup_singleton _, ?_⟩
      intro a ha c hc hac
      rw [List.mem_singleton.mp hc] at hac
      obtain ⟨x, hx, hid⟩ := List.mem_map.mp ha
      exact hnew (List.mem_map.mpr ⟨x, hsub x hx, hid.trans hac⟩)
    · intro x hx
      rcases hmem x hx with hx | rfl
      · exact h.lt_created x hx
      · exact hlt
  unfold Pool.releaseBuffer
  simp only
  split
  · next hfull =>
    split
    · exact push _ (by simp [swapRemove]) (by simp [swapRemove])
    · next m rest hfree =>
      have hlt' : smallestFrom rest 1 (0, m) < p.free.length :=
        smallestFrom_lt (by rw [hfree]; simp) (by rw [hfree]; simp; omega)
      obtain ⟨hnodup, hsub⟩ := h.swapRemove (List.getElem?_eq_getElem hlt')
      exact push _ (List.nodup_cons.mp hnodup).2 hsub
  · exact push p.free h.nodup (fun x hx => hx)

theorem Pool.new_wf (o : PoolOptions) (prefill : Nat) (prefillBytes : Option Nat) :
    (Pool.new o prefill prefillBytes).Wf where
  nodup := by
    rw [Pool.new, List.map_map]
    exact List.nodup_range.map (fun i j hij => hij)
  lt_created := by
    intro b hb
    obtain ⟨i, hi, rfl⟩ := List.mem_map.mp hb
    exact List.mem_range.mp hi

end Castrum
