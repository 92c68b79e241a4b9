import Castrum.Lib.Binary64
import Castrum.Lib.Double
import Castrum.Shared.Response

/-!
# Castrum — the accounts of a buffer pool (`src/shared/buffer-pool.ts`)

The pool with any numbers as options and sizes, also fractions, infinities and a NaN, and with allocations
that fail. Users acquire, release each checkout once, and shrink.

* `BufferPool.new` — the constructor, which rounds and clamps the options;
* `Sys.step` — one call;
* `Served` — what `acquire` is to give;
* `Fits` — a call that the pool can serve;
* `accounts_of_run` — if a run has only such calls, the accounts are right.

`take` counts a buffer and drops the largest free one before it allocates, so a failed allocation changes the
pool.
-/

namespace Castrum

open PooledBody (Handle)

/-! ## Numbers -/

/-- A number of the language. -/
abbrev Num := Double ℚ

namespace Num

/-- A length. -/
def ofNat (n : Nat) : Num := .finite n

/-- `Math.floor`. -/
def floor : Num → Num
  | .finite x => .finite ⌊x⌋
  | x => x

/-- `Math.ceil`. -/
def ceil : Num → Num
  | .finite x => .finite ⌈x⌉
  | x => x

/-- `x + y`, which is exact on the small integers that are added here. -/
def plus : Num → Num → Num
  | .nan, _ | _, .nan => .nan
  | .posInf, .negInf | .negInf, .posInf => .nan
  | .posInf, _ | _, .posInf => .posInf
  | .negInf, _ | _, .negInf => .negInf
  | .negZero, .negZero => .negZero
  | x, y => .finite (x.value + y.value)

/-- `x / y` for a `y` that is positive or a NaN. -/
def dividedBy : Num → Num → Num
  | .nan, _ | _, .nan => .nan
  | .finite x, .finite y => .finite (roundF64 (x / y))
  | .posInf, .posInf | .negInf, .posInf => .nan
  | .finite _, _ => .finite 0
  | x, _ => x

/-- `Math.max(lo, Math.floor(x))`. -/
def atLeast (lo : Nat) (x : Num) : Num := (ofNat lo).max x.floor

/-- How often `for (let i = 0; i < x; i++)` goes around, `none` for a loop without an end. -/
def rounds : Num → Option Nat
  | .finite x => some ⌈x⌉.toNat
  | .posInf => none
  | _ => some 0

/-- `new Uint8Array(x)`: its length, where the engine allocates no more than `room` bytes now; `none` for a
`RangeError`. -/
def newLength (room : Nat) : Num → Option Nat
  | .nan | .negZero => some 0
  | .finite x =>
    let n := if x < 0 then ⌈x⌉ else ⌊x⌋
    if 0 ≤ n ∧ n.toNat ≤ room then some n.toNat else none
  | .posInf | .negInf => none

end Num

/-! ## The estimate -/

/-- `AdaptiveEstimate`, with an upper bound only if it is given one. -/
structure AdaptiveEstimate where
  min : Num
  max : Num
  value : Num
  deriving DecidableEq

/-- `sample`, where `blend v x` is `v * (1 - alpha) + x * alpha`. -/
def AdaptiveEstimate.sample (blend : Num → Num → Num) (e : AdaptiveEstimate) (x : Num) :
    AdaptiveEstimate :=
  let v := if e.value = .finite 0 ∨ e.value = .negZero then x else blend e.value x
  { e with value := if v.lt e.min then e.min else if e.max.lt v then e.max else v }

/-! ## The pool -/

structure BufferPoolOptions where
  initialSize : Option Num
  maxBuffers : Option Num
  maxInFlight : Option Num
  /-- `adaptive === true`. -/
  adaptive : Bool
  prefill : Option Num
  prefillBytes : Option Num

/-- The fields of a pool; `created` also numbers the buffers. -/
structure BufferPool where
  free : List Buf
  freeHandles : List Nat
  initialSize : Num
  maxBuffers : Num
  maxInFlight : Num
  maxHandles : Num
  estimate : Option AdaptiveEstimate
  created : Nat
  inFlight : Int
  deriving DecidableEq

namespace BufferPool

/-- The number of buffers that the constructor adds to the first one. -/
def prefillCount (o : BufferPoolOptions) (initialSize maxBuffers : Num) : Num :=
  (((o.prefill.getD (.finite 0)).atLeast 0).min (maxBuffers.plus (.finite (-1)))).min
    (match o.prefillBytes with
    | some bytes => (bytes.dividedBy initialSize).atLeast 0
    | none => .posInf)

/-- The constructor, `none` if it throws or does not come to an end. -/
def new (o : BufferPoolOptions) (room : Nat) : Option BufferPool := do
  let initialSize := (o.initialSize.getD (.finite 131072)).atLeast 1
  let maxBuffers := (o.maxBuffers.getD (.finite 16)).atLeast 1
  let maxInFlight := (o.maxInFlight.getD (.finite 0)).atLeast 0
  let length ← initialSize.newLength room
  let prefill ← (prefillCount o initialSize maxBuffers).rounds
  return {
    free := (List.range (prefill + 1)).map fun i => ⟨i, length⟩
    freeHandles := []
    initialSize, maxBuffers, maxInFlight
    maxHandles := maxBuffers.plus ((Num.ofNat 1).max maxInFlight)
    estimate := if o.adaptive then some ⟨(Num.ofNat 0).max initialSize, .posInf, .finite 0⟩ else none
    created := prefill + 1
    inFlight := 0 }

/-- `maxInFlight > 0 && inFlight >= maxInFlight`. -/
def exhausted (p : BufferPool) : Bool :=
  (Double.finite 0).lt p.maxInFlight && p.maxInFlight.le (.finite p.inFlight)

/-- `estimate?.sample(minSize)`. -/
def sample (blend : Num → Num → Num) (p : BufferPool) (minSize : Num) : BufferPool :=
  { p with estimate := p.estimate.map (·.sample blend minSize) }

def nextSize (p : BufferPool) (minSize : Num) : Num :=
  let floor := match p.estimate with
    | some e => p.initialSize.max e.value.ceil
    | none => p.initialSize
  floor.max minSize

/-- The first free buffer of at least `minSize` bytes, with its index. -/
def firstFit (p : BufferPool) (minSize : Num) : Option (Buf × Nat) :=
  p.free.zipIdx.find? fun e => minSize.le (Num.ofNat e.1.byteLength)

/-- `this.created++` and `new Uint8Array(target)`. -/
def allocate (room : Nat) (p : BufferPool) (target : Num) : Option Buf × BufferPool :=
  ((target.newLength room).map fun n => ⟨p.created, n⟩, { p with created := p.created + 1 })

/-- `take`: no buffer where the allocation throws. -/
def take (blend : Num → Num → Num) (room : Nat) (p : BufferPool) (minSize : Num) :
    Option Buf × BufferPool :=
  let p := p.sample blend minSize
  match p.firstFit minSize with
  | some (b, i) => (some b, { p with free := swapRemove p.free i })
  | none =>
    let target := p.nextSize minSize
    match largestFrom p.free 0 none with
    | some (i, _) => allocate room { p with free := swapRemove p.free i } target
    | none => allocate room p target

/-- `releaseBuffer`. -/
def releaseBuffer (p : BufferPool) (b : Buf) : BufferPool :=
  let free :=
    if p.maxBuffers.le (Num.ofNat p.free.length) then
      match p.free with
      | [] => []
      | m :: rest => swapRemove p.free (smallestFrom rest 1 (0, m))
    else p.free
  { p with free := free ++ [b] }

def shrink (p : BufferPool) : BufferPool := { p with free := [] }

/-! ## The pool and its users -/

/-- The pool, the handle objects, and the handles that are checked out and not released. -/
structure Sys where
  pool : BufferPool
  handle : Nat → Handle
  nextHandle : Nat
  out : List Nat

/-- What `acquire` asks `take` for. -/
def requested (minSize : Num) : Num := minSize.atLeast 0

/-- `acquire`: the handle, or `none` where it throws a `RangeError`. -/
def Sys.acquire (blend : Num → Num → Num) (room : Nat) (s : Sys) (minSize : Num) : Option Nat × Sys :=
  if s.pool.exhausted then (none, s)
  else
    match s.pool.take blend room (requested minSize) with
    | (none, p) => (none, { s with pool := p })
    | (some b, p) =>
      let p := { p with inFlight := p.inFlight + 1 }
      match p.freeHandles.getLast? with
      | some h =>
        (some h, { s with
          pool := { p with freeHandles := p.freeHandles.dropLast }
          handle := Function.update s.handle h ⟨b, false⟩ })
      | none =>
        (some s.nextHandle, { s with
          pool := p
          handle := Function.update s.handle s.nextHandle ⟨b, false⟩
          nextHandle := s.nextHandle + 1 })

/-- `returnHandle`. -/
def Sys.returnHandle (s : Sys) (h : Nat) : Sys :=
  let p := ({ s.pool with inFlight := s.pool.inFlight - 1 }).releaseBuffer (s.handle h).buffer
  { s with pool := { p with
      freeHandles := if (Num.ofNat p.freeHandles.length).lt p.maxHandles then p.freeHandles ++ [h]
        else p.freeHandles } }

/-- `PooledBufferHandle.release`. -/
def Sys.release (s : Sys) (h : Nat) : Sys :=
  if (s.handle h).released then s
  else { s with handle := Function.update s.handle h { s.handle h with released := true } }
    |>.returnHandle h

/-- The calls; the engine allocates up to `room` bytes at the time of an `acquire`. -/
inductive Action where
  | acquire (minSize : Num) (room : Nat)
  | release (h : Nat)
  | shrink

/-- One call; a checkout is released once. -/
def Sys.step (blend : Num → Num → Num) (s : Sys) : Action → Option Sys
  | .acquire minSize room =>
    match s.acquire blend room minSize with
    | (some h, s') => some { s' with out := h :: s'.out }
    | (none, s') => some s'
  | .release h => if h ∈ s.out then some { s.release h with out := s.out.erase h } else none
  | .shrink => some { s with pool := s.pool.shrink }

/-- A pool that no one has used. -/
def Sys.init (pool : BufferPool) : Sys := ⟨pool, fun _ => ⟨⟨0, 0⟩, true⟩, 0, []⟩

/-! ## The accounts

What the pool promises to its users: how many buffers it keeps, how many are out, and that no buffer
is in two places. -/

/-- The buffers that are free or checked out. -/
def Sys.buffers (s : Sys) : List Buf := s.pool.free ++ s.out.map fun h => (s.handle h).buffer

structure Accounts (s : Sys) : Prop where
  retained : (Num.ofNat s.pool.free.length).le s.pool.maxBuffers = true
  inFlight : s.pool.inFlight = s.out.length
  limit : (Double.finite 0).lt s.pool.maxInFlight = true →
    (Double.finite (s.pool.inFlight : ℚ)).le s.pool.maxInFlight = true
  nodup : (s.buffers.map Buf.id).Nodup

/-- What `acquire` gives: a buffer of at least the size, or a `RangeError` and the pool as it was. -/
def Served (blend : Num → Num → Num) (s : Sys) (minSize : Num) (room : Nat) : Prop :=
  match s.acquire blend room minSize with
  | (some h, s') => minSize.le (Num.ofNat (s'.handle h).buffer.byteLength) = true
  | (none, s') => s' = s

/-- Where the buffers go in one call. A new buffer takes the place of the largest free one, and a buffer
that comes back to a full list that of the smallest. -/
def Conserves (s : Sys) : Action → Sys → Prop
  | .acquire _ _, s' => s' = s ∨ ∃ h, s'.out = h :: s.out ∧
      (∀ h' ∈ s.out, s'.handle h' = s.handle h') ∧
      (((s'.handle h).buffer :: s'.pool.free).Perm s.pool.free ∨
        (∀ b ∈ s.buffers, b.id ≠ (s'.handle h).buffer.id) ∧
          ((s.pool.free = [] ∧ s'.pool.free = []) ∨
            ∃ largest, (largest :: s'.pool.free).Perm s.pool.free ∧
              ∀ b ∈ s.pool.free, b.byteLength ≤ largest.byteLength))
  | .release h, s' => (∀ h' ∈ s'.out, s'.handle h' = s.handle h') ∧ s.out.Perm (h :: s'.out) ∧
      ∃ kept, s'.pool.free = kept ++ [(s.handle h).buffer] ∧
        (kept = s.pool.free ∨
          s.pool.maxBuffers.le (Num.ofNat s.pool.free.length) = true ∧
            ∃ smallest, (smallest :: kept).Perm s.pool.free ∧
              ∀ b ∈ s.pool.free, smallest.byteLength ≤ b.byteLength)
  | .shrink, s' => s'.pool.free = [] ∧ s'.out = s.out ∧ s'.handle = s.handle

/-- A call that the pool can serve: a request that is refused, or one for a size that rounding does not make
smaller, with a free buffer of that size or with room for a new one. -/
def Fits (blend : Num → Num → Num) (s : Sys) : Action → Prop
  | .acquire minSize room => s.pool.exhausted = true ∨
      (minSize.le (requested minSize) = true ∧
        ((∃ b ∈ s.pool.free, (requested minSize).le (Num.ofNat b.byteLength) = true) ∨
          ((s.pool.sample blend (requested minSize)).nextSize (requested minSize)).le
            (Num.ofNat room) = true))
  | _ => True

/-! ## Whole numbers -/

/-- A count, an infinite one or a NaN. -/
def Whole (x : Num) : Prop := x = .nan ∨ x = .posInf ∨ ∃ n : Nat, x = Num.ofNat n

theorem atLeast_whole (lo : Nat) (x : Num) : Whole (x.atLeast lo) := by
  unfold Num.atLeast
  cases x with
  | finite x =>
    show Whole ((Num.ofNat lo).max (.finite ⌊x⌋))
    unfold Double.max
    rw [if_neg (by simp [Num.ofNat])]
    split
    -- Only a finite value above the bound needs an argument: its floor is a natural number.
    · next h =>
      refine .inr (.inr ⟨⌊x⌋.toNat, ?_⟩)
      have hpos : (0 : ℤ) ≤ ⌊x⌋ := by
        rcases h with h | ⟨h, -⟩
        · have hlt : (lo : ℚ) < ⌊x⌋ := of_decide_eq_true h
          have hlt : (lo : ℤ) < ⌊x⌋ := by exact_mod_cast hlt
          omega
        · cases h
      rw [Num.ofNat]
      congr 1
      exact_mod_cast (Int.toNat_of_nonneg hpos).symm
    · exact .inr (.inr ⟨lo, rfl⟩)
  | negZero =>
    show Whole ((Num.ofNat lo).max .negZero)
    unfold Double.max
    rw [if_neg (by simp [Num.ofNat]), if_neg]
    · exact .inr (.inr ⟨lo, rfl⟩)
    · rintro (h | ⟨h, -⟩)
      · exact absurd (of_decide_eq_true h) (not_lt.mpr (Nat.cast_nonneg lo))
      · cases h
  | posInf => exact .inr (.inl rfl)
  | negInf => exact .inr (.inr ⟨lo, rfl⟩)
  | nan => exact .inl rfl

/-- No number lies between two counts. -/
theorem Whole.succ_le {x : Num} (hx : Whole x) {n : Nat} (hne : x ≠ .nan)
    (h : ¬ x.le (Num.ofNat n) = true) : (Num.ofNat (n + 1)).le x = true := by
  rcases hx with hnan | rfl | ⟨m, rfl⟩
  · exact absurd hnan hne
  · rfl
  · have hlt : n < m := by
      by_contra hle
      exact h (decide_eq_true (Nat.cast_le.mpr (Nat.not_lt.mp hle)))
    exact decide_eq_true (Nat.cast_le.mpr hlt)

/-! ## The scans of the free list -/

theorem firstFit_spec {p : BufferPool} {n : Num} {b : Buf} {i : Nat} (h : p.firstFit n = some (b, i)) :
    p.free[i]? = some b ∧ n.le (Num.ofNat b.byteLength) = true := by
  have hfits := List.find?_some h
  exact ⟨List.mk_mem_zipIdx_iff_getElem?.mp (List.mem_of_find?_eq_some h), hfits⟩

theorem firstFit_eq_none {p : BufferPool} {n : Num} (h : p.firstFit n = none) :
    ∀ b ∈ p.free, ¬ n.le (Num.ofNat b.byteLength) = true := by
  intro b hb
  obtain ⟨i, hi, rfl⟩ := List.getElem_of_mem hb
  exact List.find?_eq_none.mp h _
    (List.mk_mem_zipIdx_iff_getElem?.mpr (List.getElem?_eq_getElem hi))

/-- The scan for the largest buffer ends with one that no other is larger than. -/
theorem largestFrom_max {l : List Buf} {k i : Nat} {b : Buf} {best : Option (Nat × Buf)}
    (h : largestFrom l k best = some (i, b)) :
    (∀ x ∈ l, x.byteLength ≤ b.byteLength) ∧ ∀ m ∈ best, m.2.byteLength ≤ b.byteLength := by
  induction l generalizing k best with
  | nil =>
    rw [largestFrom] at h
    subst h
    refine ⟨fun x hx => absurd hx List.not_mem_nil, fun m hm => ?_⟩
    cases hm
    exact Nat.le_refl _
  | cons x xs ih =>
    -- The best buffer so far is replaced by a strictly larger one only.
    cases best with
    | none =>
      obtain ⟨hall, hbest⟩ := ih h
      refine ⟨List.forall_mem_cons.mpr ⟨hbest _ rfl, hall⟩, fun m hm => ?_⟩
      cases hm
    | some m =>
      rw [largestFrom] at h
      split at h
      · next hlt =>
        obtain ⟨hall, hbest⟩ := ih h
        have hx := hbest _ rfl
        refine ⟨List.forall_mem_cons.mpr ⟨hx, hall⟩, fun m' hm' => ?_⟩
        cases hm'
        exact (Nat.le_of_lt hlt).trans hx
      · next hle =>
        obtain ⟨hall, hbest⟩ := ih h
        have hm := hbest _ rfl
        refine ⟨List.forall_mem_cons.mpr ⟨(Nat.not_lt.mp hle).trans hm, hall⟩, fun m' hm' => ?_⟩
        cases hm'
        exact hm

theorem largestFrom_some {l : List Buf} {k : Nat} {m : Nat × Buf} :
    ∃ r, largestFrom l k (some m) = some r := by
  induction l generalizing k m with
  | nil => exact ⟨m, rfl⟩
  | cons x xs ih =>
    rw [largestFrom]
    split
    · exact ih
    · exact ih

theorem largestFrom_eq_none {l : List Buf} (h : largestFrom l 0 none = none) : l = [] := by
  cases l with
  | nil => rfl
  | cons x xs =>
    obtain ⟨r, hr⟩ := largestFrom_some (l := xs) (k := 1) (m := (0, x))
    rw [largestFrom, hr] at h
    cases h

/-- The scan for the smallest buffer ends with the index of one that no other is smaller than. -/
theorem smallestFrom_min {all l : List Buf} {k j : Nat} {m : Buf} (hj : all[j]? = some m)
    (hl : all.drop k = l) : ∃ d, all[smallestFrom l k (j, m)]? = some d ∧
      d.byteLength ≤ m.byteLength ∧ ∀ x ∈ l, d.byteLength ≤ x.byteLength := by
  induction l generalizing k j m with
  | nil => exact ⟨m, hj, Nat.le_refl _, nofun⟩
  | cons x xs ih =>
    have hx : all[k]? = some x := by
      rw [← Nat.add_zero k, ← List.getElem?_drop, hl]
      rfl
    have hxs : all.drop (k + 1) = xs := by
      rw [← List.tail_drop, hl]
      rfl
    rw [smallestFrom]
    split
    · next hlt =>
      obtain ⟨d, hd, hdx, hall⟩ := ih hx hxs
      exact ⟨d, hd, hdx.trans (Nat.le_of_lt hlt), List.forall_mem_cons.mpr ⟨hdx, hall⟩⟩
    · next hle =>
      obtain ⟨d, hd, hdm, hall⟩ := ih hj hxs
      exact ⟨d, hd, hdm, List.forall_mem_cons.mpr ⟨hdm.trans (Nat.not_lt.mp hle), hall⟩⟩

/-! ## The operations on the free list -/

/-- **What `take` comes to**: a free buffer of the size, or an allocation. The free list then loses its
largest buffer, if it has one. -/
theorem take_cases (blend : Num → Num → Num) (room : Nat) (p : BufferPool) (n : Num) :
    (∃ b free, p.take blend room n = (some b, { p.sample blend n with free := free }) ∧
      n.le (Num.ofNat b.byteLength) = true ∧ (b :: free).Perm p.free) ∨
    (∀ b ∈ p.free, ¬ n.le (Num.ofNat b.byteLength) = true) ∧
      ∃ free, p.take blend room n =
          ((((p.sample blend n).nextSize n).newLength room).map fun len => ⟨p.created, len⟩,
            { p.sample blend n with free := free, created := p.created + 1 }) ∧
        ((p.free = [] ∧ free = []) ∨ ∃ largest, (largest :: free).Perm p.free ∧
          ∀ b ∈ p.free, b.byteLength ≤ largest.byteLength) := by
  unfold take
  dsimp only
  split
  · next b i hfit =>
    obtain ⟨hget, hle⟩ := firstFit_spec hfit
    exact .inl ⟨b, _, rfl, hle, cons_swapRemove_perm hget⟩
  · next hnone =>
    refine .inr ⟨firstFit_eq_none hnone, ?_⟩
    split
    · next i largest hlargest =>
      have hget : p.free[i]? = some largest :=
        (largestFrom_spec hlargest).elim (fun h => nomatch h) fun h => h.2
      exact ⟨_, rfl, .inr ⟨largest, cons_swapRemove_perm hget, (largestFrom_max hlargest).1⟩⟩
    · next hempty =>
      have hnil : p.free = [] := largestFrom_eq_none hempty
      exact ⟨_, rfl, .inl ⟨hnil, hnil⟩⟩

/-- **What `releaseBuffer` comes to**: the buffer joins the free list, which loses its smallest one first if
it is full. -/
theorem releaseBuffer_cases (p : BufferPool) (b : Buf) :
    ∃ kept, p.releaseBuffer b = { p with free := kept ++ [b] } ∧
      ((¬ p.maxBuffers.le (Num.ofNat p.free.length) = true ∧ kept = p.free) ∨
        p.maxBuffers.le (Num.ofNat p.free.length) = true ∧
          ((p.free = [] ∧ kept = []) ∨ ∃ smallest, (smallest :: kept).Perm p.free ∧
            ∀ x ∈ p.free, smallest.byteLength ≤ x.byteLength)) := by
  unfold releaseBuffer
  dsimp only
  split
  · next hfull =>
    split
    · next hfree => exact ⟨[], rfl, .inr ⟨hfull, .inl ⟨hfree, rfl⟩⟩⟩
    · next m rest hfree =>
      have hfirst : p.free[0]? = some m := by
        rw [hfree]
        rfl
      have hrest : p.free.drop 1 = rest := by
        rw [hfree]
        rfl
      obtain ⟨d, hd, hdm, hall⟩ := smallestFrom_min hfirst hrest
      refine ⟨_, rfl, .inr ⟨hfull, .inr ⟨d, cons_swapRemove_perm hd, ?_⟩⟩⟩
      rw [hfree]
      exact List.forall_mem_cons.mpr ⟨hdm, hall⟩
  · next hroom => exact ⟨_, rfl, .inl ⟨hroom, rfl⟩⟩

/-- Where a handle for a checkout comes from: it is recycled, or new. -/
def Sys.Provides (s : Sys) (h : Nat) (freeHandles : List Nat) (nextHandle : Nat) : Prop :=
  ((h :: freeHandles).Perm s.pool.freeHandles ∧ nextHandle = s.nextHandle) ∨
    (freeHandles = s.pool.freeHandles ∧ h = s.nextHandle ∧ nextHandle = s.nextHandle + 1)

/-- **What `acquire` comes to**: it is refused; or the allocation throws; or a handle points at the buffer
that `take` gives, a recycled handle or a new one. -/
theorem acquire_cases (blend : Num → Num → Num) (room : Nat) (s : Sys) (minSize : Num) :
    (s.pool.exhausted = true ∧ s.acquire blend room minSize = (none, s)) ∨
    (¬ s.pool.exhausted = true ∧
      ((∃ p, s.pool.take blend room (requested minSize) = (none, p) ∧
          s.acquire blend room minSize = (none, { s with pool := p })) ∨
        ∃ b p h freeHandles nextHandle,
          s.pool.take blend room (requested minSize) = (some b, p) ∧
          s.acquire blend room minSize = (some h,
            { s with
              pool := { p with inFlight := p.inFlight + 1, freeHandles := freeHandles }
              handle := Function.update s.handle h ⟨b, false⟩
              nextHandle := nextHandle }) ∧
          Sys.Provides { s with pool := p } h freeHandles nextHandle)) := by
  unfold Sys.acquire
  by_cases hexhausted : s.pool.exhausted = true
  · exact .inl ⟨hexhausted, if_pos hexhausted⟩
  · refine .inr ⟨hexhausted, ?_⟩
    rw [if_neg hexhausted]
    cases htake : s.pool.take blend room (requested minSize) with
    | mk res p =>
      cases res with
      | none => exact .inl ⟨p, rfl, rfl⟩
      | some b =>
        right
        dsimp only
        -- A recycled handle if one is free, else the next number.
        split
        · next h hlast =>
          have hperm : (h :: p.freeHandles.dropLast).Perm p.freeHandles := by
            conv_rhs => rw [← List.dropLast_append_getLast? h hlast]
            exact (List.perm_append_singleton h _).symm
          exact ⟨b, p, h, _, _, rfl, rfl, .inl ⟨hperm, rfl⟩⟩
        · exact ⟨b, p, s.nextHandle, _, _, rfl, rfl, .inr ⟨rfl, rfl, rfl⟩⟩

/-! ## What every call keeps

The accounts are not inductive alone: handles are recycled, so these have to be distinct too, and
the limits whole numbers. -/

structure Inv (s : Sys) : Prop extends Accounts s where
  maxBuffers : Whole s.pool.maxBuffers ∧ s.pool.maxBuffers ≠ .nan
  maxBuffers_pos : (Num.ofNat 1).le s.pool.maxBuffers = true
  maxInFlight : Whole s.pool.maxInFlight
  lt_created : ∀ b ∈ s.buffers, b.id < s.pool.created
  handles : (s.out ++ s.pool.freeHandles).Nodup
  lt_next : ∀ h ∈ s.out ++ s.pool.freeHandles, h < s.nextHandle
  held : ∀ h ∈ s.out, (s.handle h).released = false

variable {s s' : Sys} {blend : Num → Num → Num}

/-- Buffers are dropped from the free list. -/
theorem Inv.drop (hs : Inv s) {dropped free : List Buf} {created : Nat}
    {estimate : Option AdaptiveEstimate} (hperm : (dropped ++ free).Perm s.pool.free)
    (hcreated : s.pool.created ≤ created) :
    Inv { s with pool := { s.pool with free, created, estimate } } := by
  -- what is left is part of what there was, so that no buffer stands twice
  have hall : (dropped ++ (free ++ s.out.map fun h => (s.handle h).buffer)).Perm s.buffers := by
    rw [← List.append_assoc]
    exact hperm.append_right _
  have hsub : ∀ b ∈ free ++ s.out.map (fun h => (s.handle h).buffer), b ∈ s.buffers :=
    fun b hb => hall.subset (List.mem_append_right _ hb)
  have hnodup := (hall.map Buf.id).nodup_iff.mpr hs.nodup
  rw [List.map_append] at hnodup
  have hlength : free.length ≤ s.pool.free.length := by
    rw [← hperm.length_eq, List.length_append]
    exact Nat.le_add_left _ _
  exact {
    retained := Double.finite_le_of_le hs.retained (Nat.cast_le.mpr hlength)
    inFlight := hs.inFlight
    limit := hs.limit
    nodup := (List.nodup_append.mp hnodup).2.1
    maxBuffers := hs.maxBuffers
    maxBuffers_pos := hs.maxBuffers_pos
    maxInFlight := hs.maxInFlight
    lt_created := fun b hb => Nat.lt_of_lt_of_le (hs.lt_created b (hsub b hb)) hcreated
    handles := hs.handles
    lt_next := hs.lt_next
    held := hs.held }

section

variable {b : Buf} {h nextHandle : Nat} {freeHandles : List Nat}

/-- The handle for a checkout is not checked out. -/
theorem Inv.not_out (hs : Inv s) (hhandle : s.Provides h freeHandles nextHandle) : h ∉ s.out := by
  intro hmem
  rcases hhandle with ⟨hperm, -⟩ | ⟨-, rfl, -⟩
  · exact (List.nodup_append.mp hs.handles).2.2 h hmem h (hperm.subset List.mem_cons_self) rfl
  · exact Nat.lt_irrefl _ (hs.lt_next _ (List.mem_append_left _ hmem))

/-- The handles are still told apart. -/
theorem Inv.handles_checkout (hs : Inv s) (hhandle : s.Provides h freeHandles nextHandle) :
    (h :: s.out ++ freeHandles).Nodup ∧ ∀ h' ∈ h :: s.out ++ freeHandles, h' < nextHandle := by
  rcases hhandle with ⟨hperm, rfl⟩ | ⟨rfl, rfl, rfl⟩
  · -- a recycled handle moves from one list to the other
    have hperm' : (h :: s.out ++ freeHandles).Perm (s.out ++ s.pool.freeHandles) :=
      List.perm_middle.symm.trans (hperm.append_left _)
    exact ⟨hperm'.nodup_iff.mpr hs.handles, fun h' hh' => hs.lt_next h' (hperm'.subset hh')⟩
  · refine ⟨List.nodup_cons.mpr ⟨fun hmem => Nat.lt_irrefl _ (hs.lt_next _ hmem), hs.handles⟩, ?_⟩
    intro h' hh'
    rcases List.mem_cons.mp hh' with rfl | hh'
    · exact Nat.lt_succ_self _
    · exact Nat.lt_succ_of_lt (hs.lt_next h' hh')

/-- Below the limit there is room for one more. -/
theorem Inv.limit_succ (hs : Inv s) (hroom : ¬ s.pool.exhausted = true)
    (hset : (Double.finite 0).lt s.pool.maxInFlight = true) :
    (Double.finite ((s.pool.inFlight + 1 : ℤ) : ℚ)).le s.pool.maxInFlight = true := by
  have hbelow : ¬ s.pool.maxInFlight.le (Num.ofNat s.out.length) = true := by
    intro hle
    refine hroom ?_
    rw [exhausted, hs.inFlight]
    exact (Bool.and_eq_true _ _).mpr ⟨hset, hle⟩
  have hnan : s.pool.maxInFlight ≠ .nan := by
    intro hnan
    rw [hnan] at hset
    cases hset
  have hle := hs.maxInFlight.succ_le hnan hbelow
  rw [hs.inFlight]
  exact_mod_cast hle

/-- A buffer that is neither free nor checked out is checked out. -/
theorem Inv.checkout (hs : Inv s) (hroom : ¬ s.pool.exhausted = true)
    (hnew : b.id ∉ s.buffers.map Buf.id) (hlt : b.id < s.pool.created)
    (hhandle : s.Provides h freeHandles nextHandle) :
    Inv {
      pool := { s.pool with inFlight := s.pool.inFlight + 1, freeHandles }
      handle := Function.update s.handle h ⟨b, false⟩
      nextHandle
      out := h :: s.out } := by
  have hkeep : ∀ h' ∈ s.out, Function.update s.handle h ⟨b, false⟩ h' = s.handle h' :=
    fun h' hh' => Function.update_of_ne (ne_of_mem_of_not_mem hh' (hs.not_out hhandle)) _ _
  -- The buffers are those from before and the new one, whichever handle it got.
  have hbuffers : (s.pool.free ++ (h :: s.out).map fun h' =>
      (Function.update s.handle h ⟨b, false⟩ h').buffer).Perm (b :: s.buffers) := by
    rw [List.map_cons, Function.update_self, List.map_congr_left fun h' hh' =>
      congrArg Handle.buffer (hkeep h' hh')]
    exact List.perm_middle
  constructor
  · constructor
    · exact hs.retained
    · show s.pool.inFlight + 1 = ((s.out.length + 1 : Nat) : ℤ)
      rw [hs.inFlight]
      rfl
    · exact hs.limit_succ hroom
    · refine ((hbuffers.map Buf.id).nodup_iff).mpr ?_
      rw [List.map_cons, List.nodup_cons]
      exact ⟨hnew, hs.nodup⟩
  · exact hs.maxBuffers
  · exact hs.maxBuffers_pos
  · exact hs.maxInFlight
  · intro b' hb'
    rcases List.mem_cons.mp (hbuffers.subset hb') with rfl | hb'
    · exact hlt
    · exact hs.lt_created b' hb'
  · exact (hs.handles_checkout hhandle).1
  · exact (hs.handles_checkout hhandle).2
  · intro h' hh'
    show (Function.update s.handle h ⟨b, false⟩ h').released = false
    rcases List.mem_cons.mp hh' with rfl | hh'
    · rw [Function.update_self]
    · rw [hkeep h' hh']
      exact hs.held h' hh'

end

/-- **What `release` comes to** for a handle that is checked out. -/
theorem release_cases {h : Nat} (hheld : (s.handle h).released = false) :
    ∃ kept freeHandles,
      s.release h = { s with
        pool := { s.pool with
          free := kept ++ [(s.handle h).buffer], freeHandles, inFlight := s.pool.inFlight - 1 }
        handle := Function.update s.handle h { s.handle h with released := true } } ∧
      (freeHandles = s.pool.freeHandles ++ [h] ∨ freeHandles = s.pool.freeHandles) ∧
      ((¬ s.pool.maxBuffers.le (Num.ofNat s.pool.free.length) = true ∧ kept = s.pool.free) ∨
        s.pool.maxBuffers.le (Num.ofNat s.pool.free.length) = true ∧
          ((s.pool.free = [] ∧ kept = []) ∨ ∃ smallest, (smallest :: kept).Perm s.pool.free ∧
            ∀ x ∈ s.pool.free, smallest.byteLength ≤ x.byteLength)) := by
  obtain ⟨kept, hrelease, hcases⟩ := releaseBuffer_cases
    { s.pool with inFlight := s.pool.inFlight - 1 } (s.handle h).buffer
  unfold Sys.release Sys.returnHandle
  rw [if_neg (by rw [hheld]; exact Bool.false_ne_true)]
  simp only [Function.update_self, hrelease]
  refine ⟨kept, _, rfl, ?_, hcases⟩
  split
  · exact .inl rfl
  · exact .inr rfl

/-- A handle that is released is checked out no more. -/
theorem Inv.not_mem_erase (hs : Inv s) {h : Nat} (hmem : h ∈ s.out) : h ∉ s.out.erase h :=
  (List.nodup_cons.mp
    ((List.perm_cons_erase hmem).nodup_iff.mp (List.nodup_append.mp hs.handles).1)).1

/-- What is kept of the free list has room for one more buffer. -/
theorem Inv.kept (hs : Inv s) {kept : List Buf}
    (hcases : (¬ s.pool.maxBuffers.le (Num.ofNat s.pool.free.length) = true ∧ kept = s.pool.free) ∨
      s.pool.maxBuffers.le (Num.ofNat s.pool.free.length) = true ∧
        ((s.pool.free = [] ∧ kept = []) ∨ ∃ smallest, (smallest :: kept).Perm s.pool.free ∧
          ∀ x ∈ s.pool.free, smallest.byteLength ≤ x.byteLength)) :
    ∃ dropped, (dropped ++ kept).Perm s.pool.free ∧
      (Num.ofNat (kept.length + 1)).le s.pool.maxBuffers = true := by
  rcases hcases with ⟨hroom, rfl⟩ | ⟨-, ⟨-, rfl⟩ | ⟨smallest, hsmallest, -⟩⟩
  · exact ⟨[], List.Perm.refl _, hs.maxBuffers.1.succ_le hs.maxBuffers.2 hroom⟩
  · exact ⟨s.pool.free, by rw [List.append_nil], hs.maxBuffers_pos⟩
  · -- the evicted buffer makes room for the one that comes back
    refine ⟨[smallest], hsmallest, ?_⟩
    have hretained := hs.retained
    rw [← hsmallest.length_eq] at hretained
    exact hretained

/-- A checkout is released. -/
theorem Inv.release (hs : Inv s) {h : Nat} (hmem : h ∈ s.out) :
    Inv { s.release h with out := s.out.erase h } := by
  obtain ⟨kept, freeHandles, hrelease, hhandles, hcases⟩ := release_cases (hs.held h hmem)
  obtain ⟨dropped, hdropped, hlength⟩ := hs.kept hcases
  have hout := List.perm_cons_erase hmem
  have hnot := hs.not_mem_erase hmem
  have hkeep : ∀ h' ∈ s.out.erase h,
      Function.update s.handle h { s.handle h with released := true } h' = s.handle h' :=
    fun h' hh' => Function.update_of_ne (ne_of_mem_of_not_mem hh' hnot) _ _
  -- the buffer is free afterwards, and was checked out before
  have hbuffers : (dropped ++ ((kept ++ [(s.handle h).buffer]) ++ (s.out.erase h).map fun h' =>
      (Function.update s.handle h { s.handle h with released := true } h').buffer)).Perm
        s.buffers := by
    rw [List.map_congr_left fun h' hh' => congrArg Handle.buffer (hkeep h' hh'), List.append_assoc,
      ← List.append_assoc, List.singleton_append, ← List.map_cons (f := fun h' => (s.handle h').buffer)]
    exact hdropped.append (hout.map _).symm
  -- the handle is recycled if there is room for it
  have hfh : (s.out.erase h ++ freeHandles).Sublist (s.out.erase h ++ (s.pool.freeHandles ++ [h])) := by
    refine List.Sublist.append_left ?_ _
    rcases hhandles with rfl | rfl
    · exact List.Sublist.refl _
    · exact List.sublist_append_left _ _
  have hfhperm : (s.out.erase h ++ (s.pool.freeHandles ++ [h])).Perm
      (s.out ++ s.pool.freeHandles) := by
    rw [← List.append_assoc]
    exact (List.perm_append_singleton _ _).trans (hout.symm.append_right _)
  have hnodup := (hbuffers.map Buf.id).nodup_iff.mpr hs.nodup
  rw [List.map_append] at hnodup
  rw [hrelease]
  constructor
  · constructor
    · show (Num.ofNat (kept ++ [(s.handle h).buffer]).length).le s.pool.maxBuffers = true
      rw [List.length_append]
      exact hlength
    · show s.pool.inFlight - 1 = ((s.out.erase h).length : ℤ)
      rw [hs.inFlight, hout.length_eq, List.length_cons]
      push_cast
      ring
    · intro hset
      have hle : ((s.pool.inFlight - 1 : ℤ) : ℚ) ≤ s.pool.inFlight := by
        exact_mod_cast Int.sub_le_self _ (by decide)
      exact Double.finite_le_of_le (hs.limit hset) hle
    · exact (List.nodup_append.mp hnodup).2.1
  · exact hs.maxBuffers
  · exact hs.maxBuffers_pos
  · exact hs.maxInFlight
  · exact fun b hb => hs.lt_created b (hbuffers.subset (List.mem_append_right _ hb))
  · exact (hfhperm.nodup_iff.mpr hs.handles).sublist hfh
  · exact fun h' hh' => hs.lt_next h' (hfhperm.subset (hfh.subset hh'))
  · intro h' hh'
    show (Function.update s.handle h { s.handle h with released := true } h').released = false
    rw [hkeep h' hh']
    exact hs.held h' (hout.symm.subset (List.mem_cons_of_mem _ hh'))

/-- `take` leaves a pool without its buffer. -/
theorem Inv.taken (hs : Inv s) {room : Nat} {n : Num} {res : Option Buf} {p : BufferPool}
    (h : s.pool.take blend room n = (res, p)) :
    Inv { s with pool := p } ∧ p.exhausted = s.pool.exhausted ∧
      ∀ b ∈ res, b.id ∉ ({ s with pool := p } : Sys).buffers.map Buf.id ∧ b.id < p.created := by
  rcases take_cases blend room s.pool n with ⟨b, free, htake, -, hperm⟩ | ⟨-, free, htake, hfree⟩
  · rw [htake] at h
    obtain ⟨rfl, rfl⟩ := Prod.mk.inj h
    have hperm' : ([b] ++ free).Perm s.pool.free := hperm
    have hinv : Inv { s with pool := { s.pool.sample blend n with free } } :=
      hs.drop hperm' (Nat.le_refl _)
    refine ⟨hinv, rfl, fun b' hb' => ?_⟩
    cases hb'
    have hall : (b :: (free ++ s.out.map fun h => (s.handle h).buffer)).Perm s.buffers :=
      hperm.append_right _
    have hnodup := (hall.map Buf.id).nodup_iff.mpr hs.nodup
    exact ⟨(List.nodup_cons.mp hnodup).1, hs.lt_created b (hall.subset List.mem_cons_self)⟩
  · rw [htake] at h
    obtain ⟨rfl, rfl⟩ := Prod.mk.inj h
    obtain ⟨dropped, hperm⟩ : ∃ dropped, (dropped ++ free).Perm s.pool.free := by
      rcases hfree with ⟨hnil, rfl⟩ | ⟨largest, hlargest, -⟩
      · exact ⟨[], by rw [hnil]; rfl⟩
      · exact ⟨[largest], hlargest⟩
    have hinv : Inv { s with
        pool := { s.pool.sample blend n with free, created := s.pool.created } } :=
      hs.drop hperm (Nat.le_refl _)
    refine ⟨hs.drop hperm (Nat.le_succ _), rfl, fun b hb => ?_⟩
    obtain ⟨len, -, rfl⟩ := Option.map_eq_some_iff.mp hb
    refine ⟨fun hmem => ?_, Nat.lt_succ_self _⟩
    -- all other buffers have lower numbers
    obtain ⟨b, hb, hid⟩ := List.mem_map.mp hmem
    exact absurd (hinv.lt_created b hb) (by rw [hid]; exact Nat.lt_irrefl _)

/-- **Every call** keeps the accounts. -/
theorem Inv.step (hs : Inv s) {a : Action} (h : s.step blend a = some s') : Inv s' := by
  cases a with
  | acquire minSize room =>
    rcases acquire_cases blend room s minSize with
      ⟨-, hacquire⟩ | ⟨hroom, ⟨p, htake, hacquire⟩ | ⟨b, p, h', fh, nh, htake, hacquire, hhandle⟩⟩
    · simp only [Sys.step, hacquire] at h
      cases h
      exact hs
    · simp only [Sys.step, hacquire] at h
      cases h
      exact (hs.taken htake).1
    · simp only [Sys.step, hacquire] at h
      cases h
      obtain ⟨hinv, hexhausted, hb⟩ := hs.taken htake
      obtain ⟨hnew, hlt⟩ := hb b rfl
      exact hinv.checkout (by rw [hexhausted]; exact hroom) hnew hlt hhandle
  | release h' =>
    simp only [Sys.step] at h
    split at h
    · next hmem =>
      cases h
      exact hs.release hmem
    · cases h
  | shrink =>
    cases h
    have hall : (s.pool.free ++ []).Perm s.pool.free := by rw [List.append_nil]
    exact hs.drop hall (Nat.le_refl _)

theorem atLeast_ne_nan {lo : Nat} {x : Num} (h : x ≠ .nan) : x.atLeast lo ≠ .nan := by
  refine Double.max_ne_nan nofun ?_
  cases x with
  | finite x => nofun
  | negZero | posInf | negInf => exact h
  | nan => exact absurd rfl h

theorem le_atLeast {lo : Nat} {x : Num} (h : x.atLeast lo ≠ .nan) :
    (Num.ofNat lo).le (x.atLeast lo) = true :=
  (Double.le_max (Double.of_max_ne_nan h).1 (Double.of_max_ne_nan h).2).1

/-- The constructor adds fewer buffers than the pool retains. -/
theorem prefillCount_le {o : BufferPoolOptions} {initialSize maxBuffers : Num} {n : Nat}
    (h : (prefillCount o initialSize maxBuffers).rounds = some n) (hwhole : Whole maxBuffers)
    (hnan : maxBuffers ≠ .nan) (hpos : (Num.ofNat 1).le maxBuffers = true) :
    (Num.ofNat (n + 1)).le maxBuffers = true := by
  cases hcount : prefillCount o initialSize maxBuffers with
  | finite x =>
    rw [hcount] at h
    cases h
    unfold prefillCount at hcount
    have houter := (Double.min_le (by rw [hcount]; nofun)).1
    rw [hcount] at houter
    have hinner := (Double.min_le (by intro hnan'; rw [hnan'] at houter; cases houter)).2
    have hle := Double.le_of_le_of_le houter hinner
    rcases hwhole with hnan' | rfl | ⟨m, rfl⟩
    · exact absurd hnan' hnan
    · rfl
    · have hone : 1 ≤ m := Nat.cast_le.mp (of_decide_eq_true hpos)
      have hx : x ≤ m + -1 := of_decide_eq_true hle
      have hceil : ⌈x⌉ ≤ (m : ℤ) + -1 := Int.ceil_le.mpr (by push_cast; exact hx)
      exact decide_eq_true (Nat.cast_le.mpr (by omega))
  | negZero | negInf | nan =>
    rw [hcount] at h
    cases h
    exact hpos
  | posInf =>
    rw [hcount] at h
    cases h

/-- A new pool has right accounts. -/
theorem inv_new {o : BufferPoolOptions} {room : Nat} {pool : BufferPool} (h : new o room = some pool)
    (hmax : o.maxBuffers ≠ some .nan) : Inv (Sys.init pool) := by
  unfold new at h
  obtain ⟨length, -, h⟩ := Option.bind_eq_some_iff.mp h
  obtain ⟨prefill, hprefill, h⟩ := Option.bind_eq_some_iff.mp h
  cases h
  have hnan : (o.maxBuffers.getD (.finite 16)).atLeast 1 ≠ .nan := by
    apply atLeast_ne_nan
    cases hopt : o.maxBuffers with
    | none => nofun
    | some x => exact fun hx => hmax (hopt.trans (congrArg some hx))
  have hwhole := atLeast_whole 1 (o.maxBuffers.getD (.finite 16))
  have hpos := le_atLeast hnan
  constructor
  · constructor
    -- the pool is filled in advance, but not above its limit
    · show (Num.ofNat ((List.range (prefill + 1)).map fun i => (⟨i, length⟩ : Buf)).length).le _ = true
      rw [List.length_map, List.length_range]
      exact prefillCount_le hprefill hwhole hnan hpos
    · rfl
    · intro hset
      have hzero : ((0 : ℤ) : ℚ) = 0 := Int.cast_zero
      show (Double.finite ((0 : ℤ) : ℚ)).le _ = true
      rw [hzero]
      exact Double.le_of_lt hset
    · show ((((List.range (prefill + 1)).map fun i => (⟨i, length⟩ : Buf)) ++ []).map Buf.id).Nodup
      rw [List.append_nil, List.map_map]
      exact List.nodup_range.map fun i j hij => hij
  · exact ⟨hwhole, hnan⟩
  · exact hpos
  · exact atLeast_whole 0 _
  · intro b hb
    have hb : b ∈ ((List.range (prefill + 1)).map fun i => (⟨i, length⟩ : Buf)) ++ [] := hb
    rw [List.append_nil] at hb
    obtain ⟨i, hi, rfl⟩ := List.mem_map.mp hb
    exact List.mem_range.mp hi
  · exact List.nodup_nil
  · exact fun _ h => nomatch h
  · exact fun _ h => nomatch h

/-! ## Calls that the pool can serve -/

/-- A size that the engine has room for is allocated in full. -/
theorem newLength_of_le {n floor : Num} {room : Nat} (hn : Whole n)
    (h : (floor.max n).le (Num.ofNat room) = true) :
    ∃ len, Num.newLength room (floor.max n) = some len ∧ n.le (Num.ofNat len) = true := by
  have hnan : floor.max n ≠ .nan := by
    intro hnan
    rw [hnan] at h
    cases h
  obtain ⟨hfloor, hn'⟩ := Double.of_max_ne_nan hnan
  have hle := (Double.le_max hfloor hn').2
  generalize floor.max n = target at h hle
  rcases hn with hnan' | rfl | ⟨k, rfl⟩
  · exact absurd hnan' hn'
  · exact absurd (Double.le_of_le_of_le hle h) (by nofun)
  · cases target with
    | finite x =>
      -- the length is rounded down, and a whole number below it stays below
      have hk : (k : ℚ) ≤ x := of_decide_eq_true hle
      have hx : x ≤ room := of_decide_eq_true h
      have hneg : ¬ x < 0 := not_lt.mpr ((Nat.cast_nonneg k).trans hk)
      have hkfloor : (k : ℤ) ≤ ⌊x⌋ := Int.le_floor.mpr (by exact_mod_cast hk)
      have hfloorroom : ⌊x⌋ ≤ (room : ℤ) := by
        have hcast : (⌊x⌋ : ℚ) ≤ room := (Int.floor_le x).trans hx
        exact_mod_cast hcast
      refine ⟨⌊x⌋.toNat, ?_, decide_eq_true (Nat.cast_le.mpr (by omega))⟩
      rw [Num.newLength]
      simp only [if_neg hneg]
      rw [if_pos ⟨by omega, by omega⟩]
    | negZero => exact ⟨0, rfl, decide_eq_true (of_decide_eq_true hle)⟩
    | posInf | nan => cases h
    | negInf => cases hle

/-- **What `take` gives** for a request that fits: a buffer of the size. -/
theorem take_of_fits {n : Num} {room : Nat} (hn : Whole n)
    (hfits : (∃ b ∈ s.pool.free, n.le (Num.ofNat b.byteLength) = true) ∨
      ((s.pool.sample blend n).nextSize n).le (Num.ofNat room) = true) :
    ∃ b, (s.pool.take blend room n).1 = some b ∧ n.le (Num.ofNat b.byteLength) = true := by
  rcases take_cases blend room s.pool n with ⟨b, free, htake, hle, -⟩ | ⟨hnone, free, htake, -⟩
  · exact ⟨b, by rw [htake], hle⟩
  · rcases hfits with ⟨b, hb, hle⟩ | hroom
    · exact absurd hle (hnone b hb)
    · obtain ⟨len, hlen, hle⟩ := newLength_of_le hn hroom
      refine ⟨⟨s.pool.created, len⟩, ?_, hle⟩
      rw [htake]
      exact Option.map_eq_some_iff.mpr ⟨len, hlen, rfl⟩

/-- A call that the pool can serve gets a buffer of at least its size. -/
theorem Fits.take {minSize : Num} {room : Nat} {res : Option Buf} {p : BufferPool}
    (hfits : Fits blend s (.acquire minSize room)) (hroom : ¬ s.pool.exhausted = true)
    (htake : s.pool.take blend room (requested minSize) = (res, p)) :
    ∃ b, res = some b ∧ minSize.le (Num.ofNat b.byteLength) = true := by
  obtain ⟨hle, hfits⟩ := hfits.resolve_left hroom
  have hwhole : Whole (requested minSize) := atLeast_whole 0 minSize
  obtain ⟨b, hb, hlen⟩ := take_of_fits hwhole hfits
  rw [htake] at hb
  exact ⟨b, hb, Double.le_of_le_of_le hle hlen⟩

theorem served_of_fits {minSize : Num} {room : Nat} (hfits : Fits blend s (.acquire minSize room)) :
    Served blend s minSize room := by
  unfold Served
  rcases acquire_cases blend room s minSize with
    ⟨-, hacquire⟩ | ⟨hroom, ⟨p, htake, hacquire⟩ | ⟨b, p, h, fh, nh, htake, hacquire, -⟩⟩
  · rw [hacquire]
  · obtain ⟨b, hb, -⟩ := hfits.take hroom htake
    cases hb
  · obtain ⟨b', hb, hlen⟩ := hfits.take hroom htake
    cases hb
    rw [hacquire]
    simp only [Function.update_self]
    exact hlen

theorem Inv.conserves (hs : Inv s) {a : Action} (hfits : Fits blend s a)
    (h : s.step blend a = some s') : Conserves s a s' := by
  cases a with
  | acquire minSize room =>
    rcases acquire_cases blend room s minSize with
      ⟨-, hacquire⟩ | ⟨hroom, ⟨p, htake, hacquire⟩ | ⟨b, p, h', fh, nh, htake, hacquire, hhandle⟩⟩
    · simp only [Sys.step, hacquire] at h
      cases h
      exact .inl rfl
    · obtain ⟨b, hb, -⟩ := hfits.take hroom htake
      cases hb
    · simp only [Sys.step, hacquire] at h
      cases h
      have hout := (hs.taken htake).1.not_out hhandle
      refine .inr ⟨h', rfl, fun h'' hh'' =>
        Function.update_of_ne (ne_of_mem_of_not_mem hh'' hout) _ _, ?_⟩
      simp only [Function.update_self]
      -- the buffer handed out was free, or it is new
      rcases take_cases blend room s.pool (requested minSize) with
        ⟨b', free, htake', -, hperm⟩ | ⟨-, free, htake', hfree⟩
      · obtain ⟨hb, rfl⟩ := Prod.mk.inj (htake.symm.trans htake')
        cases hb
        exact .inl hperm
      · obtain ⟨hb, rfl⟩ := Prod.mk.inj (htake.symm.trans htake')
        obtain ⟨len, -, rfl⟩ := Option.map_eq_some_iff.mp hb.symm
        exact .inr ⟨fun b hb => Nat.ne_of_lt (hs.lt_created b hb), hfree⟩
  | release h' =>
    simp only [Sys.step] at h
    split at h
    · next hmem =>
      cases h
      obtain ⟨kept, freeHandles, hrelease, -, hcases⟩ := release_cases (hs.held h' hmem)
      refine ⟨fun h'' hh'' => ?_, List.perm_cons_erase hmem, kept, ?_, ?_⟩
      · rw [hrelease]
        exact Function.update_of_ne (ne_of_mem_of_not_mem hh'' (hs.not_mem_erase hmem)) _ _
      · rw [hrelease]
      · -- a full pool gives up its smallest buffer for the one that comes back
        rcases hcases with ⟨-, hkept⟩ | ⟨hfull, ⟨hnil, hkept⟩ | hsmallest⟩
        · exact .inl hkept
        · exact .inl (hkept.trans hnil.symm)
        · exact .inr ⟨hfull, hsmallest⟩
    · cases h
  | shrink =>
    cases h
    exact ⟨rfl, rfl, rfl⟩

/-- An `acquire` that throws has changed the pool unless it was refused. -/
theorem throws_unchanged_iff {minSize : Num} {room : Nat}
    (h : s.acquire blend room minSize = (none, s')) : s' = s ↔ s.pool.exhausted = true := by
  rcases acquire_cases blend room s minSize with
    ⟨hexhausted, hacquire⟩ | ⟨hroom, ⟨p, htake, hacquire⟩ | ⟨b, p, h', fh, nh, htake, hacquire, -⟩⟩
  · cases hacquire.symm.trans h
    exact iff_of_true rfl hexhausted
  · cases hacquire.symm.trans h
    refine iff_of_false (fun heq => ?_) hroom
    -- a buffer was counted
    have hcreated : p.created = s.pool.created := congrArg (fun s : Sys => s.pool.created) heq
    rcases take_cases blend room s.pool (requested minSize) with
      ⟨b, free, htake', -⟩ | ⟨-, free, htake', -⟩
    · cases htake.symm.trans htake'
    · obtain ⟨-, rfl⟩ := Prod.mk.inj (htake.symm.trans htake')
      exact absurd hcreated (Nat.succ_ne_self _)
  · cases hacquire.symm.trans h

/-- **The accounts of a pool.** If `maxBuffers` is not a NaN and every call of the run is one that the pool can
serve, the accounts are right in every state; a call that the pool can serve is served there, and loses no
buffer. -/
theorem accounts_of_run {o : BufferPoolOptions} {room : Nat} {pool : BufferPool}
    (hnew : new o room = some pool) (hmax : o.maxBuffers ≠ some .nan)
    (hrun : Run (Sys.step blend) (Fits blend) (Sys.init pool) s) :
    Accounts s ∧
      (∀ minSize room, Fits blend s (.acquire minSize room) → Served blend s minSize room) ∧
      (∀ a s', Fits blend s a → s.step blend a = some s' → Conserves s a s') ∧
      ∀ minSize room s', s.acquire blend room minSize = (none, s') →
        (s' = s ↔ s.pool.exhausted = true) := by
  have hinv : Inv s := hrun.invariant (inv_new hnew hmax) fun _ _ _ hs _ hstep => hs.step hstep
  exact ⟨hinv.toAccounts, fun _ _ => served_of_fits, fun _ _ => hinv.conserves,
    fun _ _ _ => throws_unchanged_iff⟩

/-! ## Two calls that are served, and two that are not -/

/-- `v * (1 - 0.25) + x * 0.25`. -/
def ewma (v x : Num) : Num :=
  match v, x with
  | .finite v, .finite x => .finite (roundF64 (roundF64 (v * (3 / 4)) + roundF64 (x * (1 / 4))))
  | v, x => v.plus x

/-- Buffers of 64 bytes, two of them retained, and one in flight at most. -/
def small : BufferPoolOptions := ⟨some (.finite 64), some (.finite 2), some (.finite 1), true, none, none⟩

def smallPool : BufferPool where
  free := [⟨0, 64⟩]
  freeHandles := []
  initialSize := .finite 64
  maxBuffers := .finite 2
  maxInFlight := .finite 1
  maxHandles := .finite 3
  estimate := some ⟨.finite 64, .posInf, .finite 0⟩
  created := 1
  inFlight := 0

theorem new_small : new small (2 ^ 32) = some smallPool := by decide +kernel

/-- A buffer of 100 bytes is allocated and comes back. -/
theorem small_accounts : ∃ s,
    exec (Sys.step ewma) (Sys.init smallPool) [.acquire (.finite 100) (2 ^ 32), .release 0] = some s ∧
      s.pool.free = [⟨1, 100⟩] ∧ Accounts s := by
  have hfree : ((exec (Sys.step ewma) (Sys.init smallPool)
      [.acquire (.finite 100) (2 ^ 32), .release 0]).map (·.pool.free)) = some [⟨1, 100⟩] := by
    decide +kernel
  obtain ⟨s, hs, hfree⟩ := Option.map_eq_some_iff.mp hfree
  have hfits : Fits ewma (Sys.init smallPool) (.acquire (.finite 100) (2 ^ 32)) :=
    .inr ⟨by decide +kernel, .inr (by decide +kernel)⟩
  obtain ⟨s', hfirst, hsecond⟩ := Option.bind_eq_some_iff.mp hs
  obtain ⟨_, hsecond, heq⟩ := Option.bind_eq_some_iff.mp hsecond
  cases heq
  have hrun : Run (Sys.step ewma) (Fits ewma) (Sys.init smallPool) s :=
    (Run.refl.tail hfits hfirst).tail (show Fits ewma s' (.release 0) from trivial) hsecond
  exact ⟨s, hs, hfree, (accounts_of_run new_small nofun hrun).1⟩

/-- A request for `2 ^ 53` bytes throws, and the buffer that was free is gone; one for `64.5` bytes gets
64. -/
theorem small_not_served :
    ((Sys.init smallPool).acquire ewma (2 ^ 32) (.finite (2 ^ 53))).1 = none ∧
    ((Sys.init smallPool).acquire ewma (2 ^ 32) (.finite (2 ^ 53))).2.pool.free = [] ∧
    ¬ Served ewma (Sys.init smallPool) (.finite (2 ^ 53)) (2 ^ 32) ∧
    ¬ Served ewma (Sys.init smallPool) (.finite (129 / 2)) (2 ^ 32) := by
  have hnone : ((Sys.init smallPool).acquire ewma (2 ^ 32) (.finite (2 ^ 53))).1 = none := by
    decide +kernel
  have hfree : ((Sys.init smallPool).acquire ewma (2 ^ 32) (.finite (2 ^ 53))).2.pool.free = [] := by
    decide +kernel
  refine ⟨hnone, hfree, fun hserved => ?_, fun hserved => ?_⟩
  · unfold Served at hserved
    split at hserved
    · next h s' hacquire =>
      rw [hacquire] at hnone
      cases hnone
    · next s' hacquire =>
      rw [hacquire, hserved] at hfree
      cases hfree
  -- The request is not a whole number, and the buffer is shorter than it.
  · have hlength : (((Sys.init smallPool).acquire ewma (2 ^ 32) (.finite (129 / 2))).1.map fun h =>
        (((Sys.init smallPool).acquire ewma (2 ^ 32) (.finite (129 / 2))).2.handle h).buffer) =
          some ⟨0, 64⟩ := by
      decide +kernel
    unfold Served at hserved
    split at hserved
    · next h s' hacquire =>
      rw [hacquire] at hlength
      rw [show (s'.handle h).buffer = ⟨0, 64⟩ from Option.some.inj hlength] at hserved
      exact absurd hserved (by decide +kernel)
    · next s' hacquire =>
      rw [hacquire] at hlength
      cases hlength

end BufferPool

end Castrum
