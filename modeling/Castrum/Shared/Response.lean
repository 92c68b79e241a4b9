import Castrum.Lib.Runs
import Castrum.Shared.BufferPool

/-!
# Castrum — zero-copy responses over a pool (`src/shared/response.ts`)

Any number of requests share one pool. A request acquires a handle, and releases it or serves it
as a `pooledBodyResponse`: a stream whose single chunk aliases the pooled buffer. The runtime
calls `pull` whenever the stream's queue is below its high-water mark of `1` or a read is pending,
so `pull` may run before any read. `pull` enqueues the chunk, closes the stream and releases the
handle at once.

* `Sys.step` — one move of a request, a consumer, a timer or the runtime;
* `Inv` — every live checkout owns its buffer: it is neither free nor owned twice;
* `pooledBody_not_handed_out` — no run in which `pull` finds its reader waiting and every checkout
  is released once hands out a buffer a response still needs.
-/

namespace Castrum.PooledBody

/-- A `PooledBufferHandle` object. -/
structure Handle where
  buffer : Buf
  released : Bool

/-- The stream of a `pooledBodyResponse`: the closure's `released` and `timer`, and the runtime's
queue. Every queued chunk is a view of `bytes`. -/
structure Stream where
  handle : Nat
  bytes : Buf
  released : Bool
  timer : Bool
  isOpen : Bool
  closeRequested : Bool
  queue : Nat
  pendingReads : Nat

/-- One request: it holds a checkout, has released it (and may still reference the handle
object), or has turned it into a response. -/
inductive Party where
  | absent
  | holder (h : Nat)
  | returned (h : Nat)
  | response (st : Stream)

structure Sys where
  pool : Pool
  handle : Nat → Handle
  nextHandle : Nat
  party : Nat → Party
  nextParty : Nat

def Sys.setParty (s : Sys) (i : Nat) (p : Party) : Sys :=
  { s with party := Function.update s.party i p }

/-! ## The pool's two calls -/

/-- `BufferPool.acquire`: the handle to use, or `none` where it throws. -/
def Sys.acquire (o : PoolOptions) (s : Sys) (minSize : Nat) : Option (Nat × Sys) :=
  if 0 < o.maxInFlight ∧ s.pool.inFlight ≥ o.maxInFlight then none
  else
    let r := s.pool.take o minSize
    let p := { r.2 with inFlight := r.2.inFlight + 1 }
    match p.freeHandles.getLast? with
    | some h =>
      some (h, { s with
        pool := { p with freeHandles := p.freeHandles.dropLast }
        handle := Function.update s.handle h ⟨r.1, false⟩ })
    | none =>
      some (s.nextHandle, { s with
        pool := p
        handle := Function.update s.handle s.nextHandle ⟨r.1, false⟩
        nextHandle := s.nextHandle + 1 })

/-- `BufferPool.returnHandle`. -/
def Sys.returnHandle (o : PoolOptions) (s : Sys) (h : Nat) : Sys :=
  let p := ({ s.pool with inFlight := s.pool.inFlight - 1 }).releaseBuffer o (s.handle h).buffer
  { s with pool := { p with
      freeHandles := if p.freeHandles.length < o.maxHandles then p.freeHandles ++ [h]
        else p.freeHandles } }

/-- `PooledBufferHandle.release`: the second call within a checkout does nothing. -/
def Sys.release (o : PoolOptions) (s : Sys) (h : Nat) : Sys :=
  if (s.handle h).released then s
  else { s with handle := Function.update s.handle h { s.handle h with released := true } }
    |>.returnHandle o h

/-! ## The stream -/

/-- `controller.close()`: a stream with an empty queue closes now, else after the last chunk. -/
def Stream.close (st : Stream) : Stream :=
  if st.queue = 0 then { st with closeRequested := true, isOpen := false, pendingReads := 0 }
  else { st with closeRequested := true }

/-- `controller.enqueue(bytes)`: a waiting reader gets the chunk, else it is queued. -/
def Stream.enqueue (st : Stream) : Stream :=
  if 0 < st.pendingReads then { st with pendingReads := st.pendingReads - 1 }
  else { st with queue := st.queue + 1 }

/-- The closure's `release`, with the stream record it leaves. -/
def Sys.releaseStream (o : PoolOptions) (s : Sys) (i : Nat) (st : Stream) : Sys :=
  if st.released then s.setParty i (.response st)
  else (s.release o st.handle).setParty i (.response { st with released := true, timer := false })

/-- `pooledBodyResponse(handle, bytes, init, timeoutMs)` for a slice of `len` bytes. -/
def Sys.pooledBodyResponse (o : PoolOptions) (s : Sys) (i h len : Nat) (timeout : Bool) : Sys :=
  if len = 0 then (s.release o h).setParty i (.returned h)
  else s.setParty i (.response ⟨h, (s.handle h).buffer, false, timeout, true, false, 0, 0⟩)

/-- `pull(controller)`. -/
def Sys.pull (o : PoolOptions) (s : Sys) (i : Nat) (st : Stream) : Sys :=
  if st.released then s.setParty i (.response st.close)
  else s.releaseStream o i st.enqueue.close

/-- The abandonment timer's callback. -/
def Sys.fire (o : PoolOptions) (s : Sys) (i : Nat) (st : Stream) : Sys :=
  if st.released then s.setParty i (.response { st with timer := false })
  else s.releaseStream o i { st with timer := false }.close

/-- `reader.read()` of the consumer: it takes the queued chunk, or waits. -/
def Stream.read (st : Stream) : Stream :=
  if st.isOpen then
    if 0 < st.queue then
      let st' := { st with queue := st.queue - 1 }
      if st'.closeRequested && st'.queue == 0 then { st' with isOpen := false } else st'
    else { st with pendingReads := st.pendingReads + 1 }
  else st

inductive Action where
  | acquire (minSize : Nat)
  | release (i : Nat)
  | respond (i len : Nat) (timeout : Bool)
  | pull (i : Nat)
  | read (i : Nat)
  | cancel (i : Nat)
  | timer (i : Nat)
  | shrink

/-- One move; `none` where it is not enabled. `pull` is enabled by the runtime's
`ShouldCallPull`: readable, no close requested, and a reader waiting or room in the queue. -/
def Sys.step (o : PoolOptions) (s : Sys) : Action → Option Sys
  | .acquire minSize =>
    match s.acquire o minSize with
    | some (h, s') =>
      some { s'.setParty s.nextParty (.holder h) with nextParty := s.nextParty + 1 }
    | none => some s
  | .release i =>
    match s.party i with
    | .holder h => some ((s.release o h).setParty i (.returned h))
    | .returned h => some (s.release o h)
    | _ => none
  | .respond i len timeout =>
    match s.party i with
    | .holder h => some (s.pooledBodyResponse o i h len timeout)
    | _ => none
  | .pull i =>
    match s.party i with
    | .response st =>
      if st.isOpen ∧ ¬ st.closeRequested ∧ (0 < st.pendingReads ∨ st.queue < 1) then
        some (s.pull o i st)
      else none
    | _ => none
  | .read i =>
    match s.party i with
    | .response st => some (s.setParty i (.response st.read))
    | _ => none
  | .cancel i =>
    match s.party i with
    | .response st =>
      if st.isOpen then
        some (s.releaseStream o i { st with isOpen := false, queue := 0, pendingReads := 0 })
      else some s
    | _ => none
  | .timer i =>
    match s.party i with
    | .response st => if st.timer then some (s.fire o i st) else none
    | _ => none
  | .shrink => some { s with pool := s.pool.shrink }

/-- No request yet. -/
def Sys.init (o : PoolOptions) (prefill : Nat) (prefillBytes : Option Nat) : Sys where
  pool := Pool.new o prefill prefillBytes
  handle := fun _ => ⟨⟨0, 0⟩, true⟩
  nextHandle := 0
  party := fun _ => .absent
  nextParty := 0

/-- `acquire` does not hand out the buffer `b`, whatever size is asked for. -/
def Sys.Keeps (o : PoolOptions) (s : Sys) (b : Buf) : Prop :=
  ∀ minSize h s', s.acquire o minSize = some (h, s') → (s'.handle h).buffer.id ≠ b.id

/-- Every chunk that waits for its consumer aliases a buffer `acquire` does not hand out. -/
def ChunksSafe (o : PoolOptions) (s : Sys) : Prop :=
  ∀ i st, s.party i = .response st → 0 < st.queue → s.Keeps o st.bytes

/-! ## The moves -/

/-- What a move does. -/
inductive Sys.Steps (o : PoolOptions) (s : Sys) : Action → Sys → Prop where
  | idle {a : Action} : Steps o s a s
  | acquired {minSize h : Nat} {s' : Sys} (hacq : s.acquire o minSize = some (h, s')) :
      Steps o s (.acquire minSize)
        { s'.setParty s.nextParty (.holder h) with nextParty := s.nextParty + 1 }
  | released {i h : Nat} (hi : s.party i = .holder h) :
      Steps o s (.release i) ((s.release o h).setParty i (.returned h))
  | releasedAgain {i h : Nat} (hi : s.party i = .returned h) : Steps o s (.release i) (s.release o h)
  | responded {i h len : Nat} {timeout : Bool} (hi : s.party i = .holder h) :
      Steps o s (.respond i len timeout) (s.pooledBodyResponse o i h len timeout)
  | pulled {i : Nat} {st : Stream} (hi : s.party i = .response st)
      (hcalled : st.isOpen ∧ ¬ st.closeRequested ∧ (0 < st.pendingReads ∨ st.queue < 1)) :
      Steps o s (.pull i) (s.pull o i st)
  | read {i : Nat} {st : Stream} (hi : s.party i = .response st) :
      Steps o s (.read i) (s.setParty i (.response st.read))
  | cancelled {i : Nat} {st : Stream} (hi : s.party i = .response st) (hopen : st.isOpen) :
      Steps o s (.cancel i)
        (s.releaseStream o i { st with isOpen := false, queue := 0, pendingReads := 0 })
  | fired {i : Nat} {st : Stream} (hi : s.party i = .response st) (htimer : st.timer) :
      Steps o s (.timer i) (s.fire o i st)
  | shrunk : Steps o s .shrink { s with pool := s.pool.shrink }

theorem Sys.step_cases {o : PoolOptions} {s s' : Sys} {a : Action} (hstep : s.step o a = some s') :
    Sys.Steps o s a s' := by
  -- Each action has the guards of its step; the branches that do nothing are `idle` or
  -- `releasedAgain`.
  cases a with
  | acquire minSize =>
    simp only [Sys.step] at hstep
    split at hstep
    · next h s'' hacq =>
      cases hstep
      exact .acquired hacq
    · cases hstep
      exact .idle
  | release i =>
    simp only [Sys.step] at hstep
    split at hstep
    · next h hi =>
      cases hstep
      exact .released hi
    · next h hi =>
      cases hstep
      exact .releasedAgain hi
    · cases hstep
  | respond i len timeout =>
    simp only [Sys.step] at hstep
    split at hstep
    · next h hi =>
      cases hstep
      exact .responded hi
    · cases hstep
  | pull i =>
    simp only [Sys.step] at hstep
    split at hstep
    · next st hi =>
      split at hstep
      · next hcalled =>
        cases hstep
        exact .pulled hi hcalled
      · cases hstep
    · cases hstep
  | read i =>
    simp only [Sys.step] at hstep
    split at hstep
    · next st hi =>
      cases hstep
      exact .read hi
    · cases hstep
  | cancel i =>
    simp only [Sys.step] at hstep
    split at hstep
    · next st hi =>
      split at hstep
      · next hopen =>
        cases hstep
        exact .cancelled hi hopen
      · cases hstep
        exact .idle
    · cases hstep
  | timer i =>
    simp only [Sys.step] at hstep
    split at hstep
    · next st hi =>
      split at hstep
      · next htimer =>
        cases hstep
        exact .fired hi htimer
      · cases hstep
    · cases hstep
  | shrink =>
    cases hstep
    exact .shrunk

/-! ## The ownership invariant

A buffer belongs to the checkout whose handle has not been released, whether a caller holds it or a
response streams from it. -/

/-- The handle of a checkout that has not been released. -/
def Party.live : Party → Option Nat
  | .holder h => some h
  | .response st => if st.released then none else some st.handle
  | _ => none

/-- Every live checkout owns its buffer: the buffer is not free, no other live checkout has it,
and the handle object is not up for recycling. A response aliases the buffer of its handle, and no
chunk waits in a queue. -/
structure Inv (s : Sys) : Prop where
  wf : s.pool.Wf
  recycled_nodup : s.pool.freeHandles.Nodup
  recycled : ∀ h ∈ s.pool.freeHandles, (s.handle h).released = true ∧ h < s.nextHandle
  live_out : ∀ i h, (s.party i).live = some h → (s.handle h).released = false ∧ h < s.nextHandle
  live_buffer : ∀ i h, (s.party i).live = some h →
    (s.handle h).buffer.id < s.pool.created ∧ (s.handle h).buffer.id ∉ s.pool.free.map Buf.id
  live_inj : ∀ i j h h', (s.party i).live = some h → (s.party j).live = some h' →
    (s.handle h).buffer.id = (s.handle h').buffer.id → i = j
  aliases : ∀ i st, s.party i = .response st → st.released = false →
    st.bytes = (s.handle st.handle).buffer
  drained : ∀ i st, s.party i = .response st → st.queue = 0

/-- A response record a party may be replaced with, as far as aliasing and the queue go. -/
def Party.Ok (s : Sys) : Party → Prop
  | .response st => (st.released = false → st.bytes = (s.handle st.handle).buffer) ∧ st.queue = 0
  | _ => True

/-- Replacing a party by one that is live under the same handle, or not live at all. -/
theorem Inv.setParty {s : Sys} (hinv : Inv s) (i : Nat) (p : Party) (hok : p.Ok s)
    (hlive : p.live = none ∨ p.live = (s.party i).live) : Inv (s.setParty i p) := by
  -- a live party of the new state was live before, under the same index and handle
  have old : ∀ j h, ((s.setParty i p).party j).live = some h → (s.party j).live = some h := by
    intro j h hj
    by_cases hij : j = i
    · subst hij
      simp only [Sys.setParty, Function.update_self] at hj
      rcases hlive with hnone | hsame
      · rw [hnone] at hj
        exact absurd hj (by simp)
      · rw [← hsame, hj]
    · simpa only [Sys.setParty, Function.update_of_ne hij] using hj
  refine ⟨hinv.wf, hinv.recycled_nodup, hinv.recycled, ?_, ?_, ?_, ?_, ?_⟩
  · exact fun j h hj => hinv.live_out j h (old j h hj)
  · exact fun j h hj => hinv.live_buffer j h (old j h hj)
  · exact fun j k h h' hj hk => hinv.live_inj j k h h' (old j h hj) (old k h' hk)
  · intro j st hj hrel
    by_cases hij : j = i
    · subst hij
      simp only [Sys.setParty, Function.update_self] at hj
      rw [hj] at hok
      exact hok.1 hrel
    · simp only [Sys.setParty, Function.update_of_ne hij] at hj
      exact hinv.aliases j st hj hrel
  · intro j st hj
    by_cases hij : j = i
    · subst hij
      simp only [Sys.setParty, Function.update_self] at hj
      rw [hj] at hok
      exact hok.2
    · simp only [Sys.setParty, Function.update_of_ne hij] at hj
      exact hinv.drained j st hj

/-- What a first `release` of `h` leaves behind. -/
structure Released (s : Sys) (h : Nat) (s' : Sys) : Prop where
  wf : s'.pool.Wf
  free_sub : ∀ x ∈ s'.pool.free, x ∈ s.pool.free ∨ x = (s.handle h).buffer
  created : s'.pool.created = s.pool.created
  freeHandles : s'.pool.freeHandles = s.pool.freeHandles ∨
    s'.pool.freeHandles = s.pool.freeHandles ++ [h]
  handle : s'.handle = Function.update s.handle h { s.handle h with released := true }
  nextHandle : s'.nextHandle = s.nextHandle
  party : s'.party = s.party

theorem Sys.release_spec {s : Sys} (o : PoolOptions) {h : Nat} (hwf : s.pool.Wf)
    (hout : (s.handle h).released = false) (hlt : (s.handle h).buffer.id < s.pool.created)
    (hnew : (s.handle h).buffer.id ∉ s.pool.free.map Buf.id) : Released s h (s.release o h) := by
  obtain ⟨hwf', hsub⟩ := Pool.releaseBuffer_spec (o := o)
    (p := { s.pool with inFlight := s.pool.inFlight - 1 }) ⟨hwf.nodup, hwf.lt_created⟩ hnew hlt
  rw [Sys.release, if_neg (by rw [hout]; simp)]
  refine ⟨?_, ?_, rfl, ?_, rfl, rfl, rfl⟩
  · exact ⟨by simpa [Sys.returnHandle] using hwf'.nodup,
      by simpa [Sys.returnHandle] using hwf'.lt_created⟩
  · simpa [Sys.returnHandle] using hsub
  · simp only [Sys.returnHandle, Pool.releaseBuffer]
    split
    · exact .inr rfl
    · exact .inl rfl

/-- Releasing the handle of the live party `i`, which stops being live. -/
theorem Inv.release {s : Sys} (hinv : Inv s) (o : PoolOptions) {i h : Nat} {p : Party}
    (hi : (s.party i).live = some h) (hp : p.live = none) (hok : p.Ok s) :
    Inv ((s.release o h).setParty i p) := by
  obtain ⟨hout, hlt⟩ := hinv.live_out i h hi
  obtain ⟨hcreated, hnew⟩ := hinv.live_buffer i h hi
  have hrel := Sys.release_spec o hinv.wf hout hcreated hnew
  -- the other live parties have another handle and another buffer
  have other : ∀ j h', (((s.release o h).setParty i p).party j).live = some h' →
      j ≠ i ∧ (s.party j).live = some h' ∧ h' ≠ h := by
    intro j h' hj
    have hij : j ≠ i := by
      rintro rfl
      simp only [Sys.setParty, Function.update_self] at hj
      rw [hp] at hj
      exact absurd hj (by simp)
    simp only [Sys.setParty, Function.update_of_ne hij, hrel.party] at hj
    refine ⟨hij, hj, ?_⟩
    rintro rfl
    exact hij (hinv.live_inj j i h' h' hj hi rfl)
  have hkeep : ∀ h', h' ≠ h → (s.release o h).handle h' = s.handle h' := by
    intro h' hne
    rw [hrel.handle, Function.update_of_ne hne]
  have hbuffer : ∀ h', ((s.release o h).handle h').buffer = (s.handle h').buffer := by
    intro h'
    by_cases hne : h' = h
    · rw [hne, hrel.handle, Function.update_self]
    · rw [hkeep h' hne]
  refine ⟨hrel.wf, ?_, ?_, ?_, ?_, ?_, ?_, ?_⟩
  · -- `h` was not up for recycling: it was out
    have hnot : h ∉ s.pool.freeHandles := by
      intro hmem
      rw [(hinv.recycled h hmem).1] at hout
      exact absurd hout (by simp)
    show (s.release o h).pool.freeHandles.Nodup
    rcases hrel.freeHandles with heq | heq
    · rw [heq]; exact hinv.recycled_nodup
    · rw [heq]; exact hinv.recycled_nodup.append (List.nodup_singleton _) (by simpa using hnot)
  · intro h' hmem
    show ((s.release o h).handle h').released = true ∧ h' < (s.release o h).nextHandle
    rw [hrel.nextHandle]
    by_cases hne : h' = h
    · rw [hne, hrel.handle, Function.update_self]
      exact ⟨rfl, hlt⟩
    · rw [hkeep h' hne]
      refine hinv.recycled h' ?_
      rcases hrel.freeHandles with heq | heq
      · rw [← heq]; exact hmem
      · have := heq ▸ hmem
        rcases List.mem_append.mp this with hmem' | hmem'
        · exact hmem'
        · exact absurd (List.mem_singleton.mp hmem') hne
  · intro j h' hj
    obtain ⟨-, hj', hne⟩ := other j h' hj
    show ((s.release o h).handle h').released = false ∧ h' < (s.release o h).nextHandle
    rw [hkeep h' hne, hrel.nextHandle]
    exact hinv.live_out j h' hj'
  · intro j h' hj
    obtain ⟨hij, hj', hne⟩ := other j h' hj
    show ((s.release o h).handle h').buffer.id < (s.release o h).pool.created ∧
      ((s.release o h).handle h').buffer.id ∉ (s.release o h).pool.free.map Buf.id
    rw [hbuffer, hrel.created]
    obtain ⟨hlt', hnew'⟩ := hinv.live_buffer j h' hj'
    refine ⟨hlt', fun hmem => ?_⟩
    obtain ⟨x, hx, hid⟩ := List.mem_map.mp hmem
    rcases hrel.free_sub x hx with hold | rfl
    · exact hnew' (List.mem_map.mpr ⟨x, hold, hid⟩)
    · exact hij (hinv.live_inj j i h' h hj' hi hid.symm)
  · intro j k h' h'' hj hk hid
    obtain ⟨-, hj', -⟩ := other j h' hj
    obtain ⟨-, hk', -⟩ := other k h'' hk
    refine hinv.live_inj j k h' h'' hj' hk' ?_
    rw [← hbuffer, ← hbuffer]
    exact hid
  · intro j st hj hrel'
    show st.bytes = ((s.release o h).handle st.handle).buffer
    rw [hbuffer]
    by_cases hij : j = i
    · subst hij
      simp only [Sys.setParty, Function.update_self] at hj
      rw [hj] at hok
      exact hok.1 hrel'
    · simp only [Sys.setParty, Function.update_of_ne hij, hrel.party] at hj
      exact hinv.aliases j st hj hrel'
  · intro j st hj
    by_cases hij : j = i
    · subst hij
      simp only [Sys.setParty, Function.update_self] at hj
      rw [hj] at hok
      exact hok.2
    · simp only [Sys.setParty, Function.update_of_ne hij, hrel.party] at hj
      exact hinv.drained j st hj

/-- What a successful `acquire` hands out. -/
structure Acquired (s : Sys) (h : Nat) (s' : Sys) : Prop where
  wf : s'.pool.Wf
  recycled_nodup : s'.pool.freeHandles.Nodup
  recycled_sub : ∀ h' ∈ s'.pool.freeHandles, h' ∈ s.pool.freeHandles ∧ h' ≠ h
  not_live : ∀ i, (s.party i).live ≠ some h
  lt_next : h < s'.nextHandle
  next_le : s.nextHandle ≤ s'.nextHandle
  released : (s'.handle h).released = false
  keep : ∀ h', h' ≠ h → s'.handle h' = s.handle h'
  lt_created : (s'.handle h).buffer.id < s'.pool.created
  not_free : (s'.handle h).buffer.id ∉ s'.pool.free.map Buf.id
  free_sub : ∀ x ∈ s'.pool.free, x ∈ s.pool.free
  created_le : s.pool.created ≤ s'.pool.created
  buffer_new : ∀ i h', (s.party i).live = some h' →
    (s'.handle h).buffer.id ≠ (s.handle h').buffer.id
  party : s'.party = s.party
  nextParty : s'.nextParty = s.nextParty

theorem Inv.acquire {s s' : Sys} (hinv : Inv s) {o : PoolOptions} {minSize h : Nat}
    (hacq : s.acquire o minSize = some (h, s')) : Acquired s h s' := by
  have htake := Pool.take_spec (o := o) hinv.wf minSize
  -- a live buffer is not free, and its identity was created earlier
  have hbuf : ∀ i h', (s.party i).live = some h' →
      (s.pool.take o minSize).1.id ≠ (s.handle h').buffer.id := by
    intro i h' hi heq
    obtain ⟨hlt, hnot⟩ := hinv.live_buffer i h' hi
    rcases htake.source with hmem | hfresh
    · exact hnot (List.mem_map.mpr ⟨_, hmem, heq⟩)
    · omega
  have hlive_not_recycled : ∀ i h', (s.party i).live = some h' → h' ∉ s.pool.freeHandles := by
    intro i h' hi hmem
    have := (hinv.live_out i h' hi).1
    rw [(hinv.recycled h' hmem).1] at this
    exact absurd this (by simp)
  unfold Sys.acquire at hacq
  split at hacq
  · exact absurd hacq (by simp)
  · simp only [htake.freeHandles] at hacq
    split at hacq
    · next h0 hlast =>
      obtain ⟨ys, hys⟩ := List.getLast?_eq_some_iff.mp hlast
      cases hacq
      have hnodup : (ys ++ [h]).Nodup := hys ▸ hinv.recycled_nodup
      have hmem : h ∈ s.pool.freeHandles := by rw [hys]; simp
      have hdrop : s.pool.freeHandles.dropLast = ys := by rw [hys]; simp
      refine ⟨⟨htake.wf.nodup, htake.wf.lt_created⟩, ?_, ?_, ?_, (hinv.recycled h hmem).2,
        le_refl _, by simp, ?_, ?_, ?_, htake.free_sub, htake.created_le, ?_, rfl, rfl⟩
      · rw [hdrop]
        exact (List.nodup_append.mp hnodup).1
      · rw [hdrop]
        intro h' hh'
        refine ⟨by rw [hys]; exact List.mem_append_left _ hh', ?_⟩
        exact (List.nodup_append.mp hnodup).2.2 h' hh' h (List.mem_singleton_self h)
      · intro i hi
        exact hlive_not_recycled i h hi hmem
      · intro h' hne
        simp [Function.update_of_ne hne]
      · simpa using htake.lt_created
      · simpa using htake.not_mem
      · simpa using hbuf
    · next hlast =>
      cases hacq
      have hnil : s.pool.freeHandles = [] := by simpa using hlast
      refine ⟨⟨htake.wf.nodup, htake.wf.lt_created⟩, ?_, ?_, ?_, Nat.lt_succ_self _,
        Nat.le_succ _, by simp, ?_, ?_, ?_, htake.free_sub, htake.created_le, ?_, rfl, rfl⟩
      · simp only [hnil]
        exact List.nodup_nil
      · simp only [hnil]
        exact fun h' hh' => absurd hh' (by simp)
      · intro i hi
        exact absurd (hinv.live_out i _ hi).2 (by omega)
      · intro h' hne
        simp [Function.update_of_ne hne]
      · simpa using htake.lt_created
      · simpa using htake.not_mem
      · simpa using hbuf

/-- The acquiring request becomes a live holder. -/
theorem Inv.acquired {s s' : Sys} (hinv : Inv s) {h : Nat} (hacq : Acquired s h s') (n : Nat)
    (hn : (s.party n).live = none) :
    Inv { s'.setParty n (.holder h) with nextParty := s.nextParty + 1 } := by
  -- a live holder is the new one, or an old one with another handle
  have live : ∀ i h', (Function.update s'.party n (.holder h) i).live = some h' →
      (i = n ∧ h' = h) ∨ (i ≠ n ∧ (s.party i).live = some h' ∧ h' ≠ h) := by
    intro i h' hi
    by_cases hin : i = n
    · subst hin
      simp only [Function.update_self, Party.live, Option.some.injEq] at hi
      exact .inl ⟨rfl, hi.symm⟩
    · rw [Function.update_of_ne hin, hacq.party] at hi
      refine .inr ⟨hin, hi, ?_⟩
      rintro rfl
      exact hacq.not_live i hi
  have response : ∀ i st, Function.update s'.party n (.holder h) i = .response st →
      s.party i = .response st := by
    intro i st hi
    by_cases hin : i = n
    · subst hin
      rw [Function.update_self] at hi
      exact absurd hi (by simp)
    · rwa [Function.update_of_ne hin, hacq.party] at hi
  refine ⟨hacq.wf, hacq.recycled_nodup, ?_, ?_, ?_, ?_, ?_, ?_⟩
  · intro h' hmem
    obtain ⟨hold, hne⟩ := hacq.recycled_sub h' hmem
    show (s'.handle h').released = true ∧ h' < s'.nextHandle
    rw [hacq.keep h' hne]
    exact ⟨(hinv.recycled h' hold).1, lt_of_lt_of_le (hinv.recycled h' hold).2 hacq.next_le⟩
  · intro i h' hi
    show (s'.handle h').released = false ∧ h' < s'.nextHandle
    rcases live i h' hi with ⟨-, rfl⟩ | ⟨-, hold, hne⟩
    · exact ⟨hacq.released, hacq.lt_next⟩
    · rw [hacq.keep h' hne]
      exact ⟨(hinv.live_out i h' hold).1, lt_of_lt_of_le (hinv.live_out i h' hold).2 hacq.next_le⟩
  · intro i h' hi
    show (s'.handle h').buffer.id < s'.pool.created ∧
      (s'.handle h').buffer.id ∉ s'.pool.free.map Buf.id
    rcases live i h' hi with ⟨-, rfl⟩ | ⟨-, hold, hne⟩
    · exact ⟨hacq.lt_created, hacq.not_free⟩
    · rw [hacq.keep h' hne]
      obtain ⟨hlt, hnot⟩ := hinv.live_buffer i h' hold
      refine ⟨lt_of_lt_of_le hlt hacq.created_le, fun hmem => hnot ?_⟩
      obtain ⟨x, hx, hid⟩ := List.mem_map.mp hmem
      exact List.mem_map.mpr ⟨x, hacq.free_sub x hx, hid⟩
  · intro i j h' h'' hi hj hid
    change (s'.handle h').buffer.id = (s'.handle h'').buffer.id at hid
    rcases live i h' hi with ⟨rfl, rfl⟩ | ⟨-, hold, hne⟩ <;>
      rcases live j h'' hj with ⟨rfl, rfl⟩ | ⟨-, hold', hne'⟩
    · rfl
    · rw [hacq.keep h'' hne'] at hid
      exact absurd hid (hacq.buffer_new j h'' hold')
    · rw [hacq.keep h' hne] at hid
      exact absurd hid.symm (hacq.buffer_new i h' hold)
    · rw [hacq.keep h' hne, hacq.keep h'' hne'] at hid
      exact hinv.live_inj i j h' h'' hold hold' hid
  · intro i st hi hrel
    have hold := response i st hi
    show st.bytes = (s'.handle st.handle).buffer
    have hlive : (s.party i).live = some st.handle := by
      rw [hold, Party.live, if_neg (by rw [hrel]; simp)]
    rw [hacq.keep _ (fun heq => hacq.not_live i (heq ▸ hlive))]
    exact hinv.aliases i st hold hrel
  · exact fun i st hi => hinv.drained i st (response i st hi)

/-! ## Steps and runs -/

/-- The moves the promise is about: a checkout is released once, by the request that holds it,
and a `pull` that serves the chunk finds a reader waiting. -/
def Orderly (s : Sys) : Action → Prop
  | .release i => ∃ h, s.party i = .holder h
  | .pull i => ∀ st, s.party i = .response st → st.released = false → 0 < st.pendingReads
  | _ => True

/-- No request index is used twice. -/
def Numbered (s : Sys) : Prop := ∀ i, s.nextParty ≤ i → s.party i = .absent

theorem Inv.releaseStream {s : Sys} (hinv : Inv s) (o : PoolOptions) {i : Nat} {st st' : Stream}
    (hi : s.party i = .response st) (hhandle : st'.handle = st.handle)
    (hrel : st'.released = st.released) (hqueue : st'.queue = 0) :
    Inv (s.releaseStream o i st') := by
  unfold Sys.releaseStream
  split
  · next hr =>
    refine hinv.setParty i _ ⟨fun hf => ?_, hqueue⟩ (.inl ?_)
    · rw [hr] at hf
      exact absurd hf (by simp)
    · rw [Party.live, if_pos hr]
  · next hr =>
    refine hinv.release o ?_ rfl ⟨fun hf => absurd hf (by simp), hqueue⟩
    rw [hi, Party.live, if_neg (by rw [← hrel]; exact hr), hhandle]

theorem Stream.close_queue {st : Stream} (h : st.queue = 0) : st.close.queue = 0 := by
  rw [Stream.close, if_pos h]
  exact h

/-- **One step keeps ownership.** One case per move. -/
theorem Inv.step {o : PoolOptions} {s s' : Sys} {a : Action} (hinv : Inv s) (hnum : Numbered s)
    (hord : Orderly s a) (hstep : s.step o a = some s') : Inv s' := by
  cases Sys.step_cases hstep with
  | idle => exact hinv
  | acquired hacq =>
    refine hinv.acquired (hinv.acquire hacq) _ ?_
    rw [hnum _ (le_refl _)]
    rfl
  | released hi => exact hinv.release o (by rw [hi]; rfl) rfl trivial
  | releasedAgain hi =>
    obtain ⟨h, hholder⟩ := hord
    rw [hi] at hholder
    cases hholder
  | @responded i h len timeout hi =>
    unfold Sys.pooledBodyResponse
    split
    · exact hinv.release o (by rw [hi]; rfl) rfl trivial
    · exact hinv.setParty i _ ⟨fun _ => rfl, rfl⟩ (.inr (by rw [hi]; rfl))
  | @pulled i st hi _ =>
    have hqueue := hinv.drained i st hi
    unfold Sys.pull
    split
    · next hr =>
      refine hinv.setParty i _ ⟨fun hf => ?_, Stream.close_queue hqueue⟩ (.inl ?_)
      · rw [Stream.close, if_pos hqueue] at hf
        exact absurd (hr.symm.trans hf) (by simp)
      · rw [Stream.close, if_pos hqueue, Party.live]
        exact if_pos hr
    · next hr =>
      -- the reader is waiting, so the chunk is delivered and not queued
      have hpend := hord st hi (by simpa using hr)
      have henq : st.enqueue = { st with pendingReads := st.pendingReads - 1 } := by
        rw [Stream.enqueue, if_pos hpend]
      have hclose : st.enqueue.close.queue = 0 := Stream.close_queue (by rw [henq]; exact hqueue)
      refine hinv.releaseStream o hi ?_ ?_ hclose
      · rw [henq, Stream.close, if_pos hqueue]
      · rw [henq, Stream.close, if_pos hqueue]
  | @read i st hi =>
    have hqueue := hinv.drained i st hi
    have hread : st.read = st ∨ st.read = { st with pendingReads := st.pendingReads + 1 } := by
      unfold Stream.read
      split
      · rw [if_neg (by omega)]
        exact .inr rfl
      · exact .inl rfl
    rcases hread with hread | hread <;> rw [hread]
    · exact hinv.setParty i _ ⟨hinv.aliases i st hi, hqueue⟩ (.inr (by rw [hi]))
    · exact hinv.setParty i _ ⟨hinv.aliases i st hi, hqueue⟩ (.inr (by rw [hi]; rfl))
  | cancelled hi _ => exact hinv.releaseStream o hi rfl rfl rfl
  | @fired i st hi _ =>
    have hqueue := hinv.drained i st hi
    unfold Sys.fire
    split
    · next hr =>
      refine hinv.setParty i _ ⟨fun hf => hinv.aliases i st hi hf, hqueue⟩ (.inr ?_)
      rw [hi]
      rfl
    · refine hinv.releaseStream o hi ?_ ?_ (Stream.close_queue hqueue)
      · rw [Stream.close, if_pos hqueue]
      · rw [Stream.close, if_pos hqueue]
  | shrunk =>
    exact ⟨⟨List.nodup_nil, fun b hb => absurd hb (by simp [Pool.shrink])⟩, hinv.recycled_nodup,
      hinv.recycled, hinv.live_out,
      fun i h hi => ⟨(hinv.live_buffer i h hi).1, by simp [Pool.shrink]⟩, hinv.live_inj,
      hinv.aliases, hinv.drained⟩

theorem Sys.release_party (o : PoolOptions) (s : Sys) (h : Nat) :
    (s.release o h).party = s.party ∧ (s.release o h).nextParty = s.nextParty := by
  unfold Sys.release
  split
  · exact ⟨rfl, rfl⟩
  · exact ⟨rfl, rfl⟩

theorem Numbered.setParty {s : Sys} (hnum : Numbered s) {i : Nat} (hi : s.party i ≠ .absent)
    (p : Party) : Numbered (s.setParty i p) := by
  intro j hj
  have hij : j ≠ i := by
    rintro rfl
    exact hi (hnum j hj)
  show Function.update s.party i p j = .absent
  rw [Function.update_of_ne hij]
  exact hnum j hj

theorem Numbered.release {s : Sys} (hnum : Numbered s) (o : PoolOptions) (h : Nat) :
    Numbered (s.release o h) := by
  intro j hj
  rw [(Sys.release_party o s h).2] at hj
  rw [(Sys.release_party o s h).1]
  exact hnum j hj

theorem Numbered.releaseStream {s : Sys} (hnum : Numbered s) (o : PoolOptions) {i : Nat}
    (hi : s.party i ≠ .absent) (st : Stream) : Numbered (s.releaseStream o i st) := by
  unfold Sys.releaseStream
  split
  · exact hnum.setParty hi _
  · exact (hnum.release o _).setParty (by rw [(Sys.release_party o s _).1]; exact hi) _

/-- The handle is a recycled or a new one; the parties stay as they are. -/
theorem Sys.acquire_party {o : PoolOptions} {s s' : Sys} {minSize h : Nat}
    (hacq : s.acquire o minSize = some (h, s')) : s'.party = s.party := by
  unfold Sys.acquire at hacq
  split at hacq
  · cases hacq
  · dsimp only at hacq
    split at hacq
    · cases hacq
      rfl
    · cases hacq
      rfl

theorem Numbered.step {o : PoolOptions} {s s' : Sys} {a : Action} (hnum : Numbered s)
    (hstep : s.step o a = some s') : Numbered s' := by
  -- Only `acquire` uses up a number; the other steps change parties that are there.
  cases Sys.step_cases hstep with
  | idle => exact hnum
  | @acquired minSize h s'' hacq =>
    intro j hj
    change s.nextParty + 1 ≤ j at hj
    show Function.update s''.party s.nextParty (.holder h) j = .absent
    rw [Function.update_of_ne (by omega), Sys.acquire_party hacq]
    exact hnum j (by omega)
  | @released i h hi =>
    exact (hnum.release o h).setParty (by rw [(Sys.release_party o s h).1, hi]; simp) _
  | releasedAgain hi => exact hnum.release o _
  | @responded i h len timeout hi =>
    unfold Sys.pooledBodyResponse
    split
    · exact (hnum.release o h).setParty (by rw [(Sys.release_party o s h).1, hi]; simp) _
    · exact hnum.setParty (by rw [hi]; simp) _
  | pulled hi _ =>
    unfold Sys.pull
    split
    · exact hnum.setParty (by rw [hi]; simp) _
    · exact hnum.releaseStream o (by rw [hi]; simp) _
  | read hi => exact hnum.setParty (by rw [hi]; simp) _
  | cancelled hi _ => exact hnum.releaseStream o (by rw [hi]; simp) _
  | fired hi _ =>
    unfold Sys.fire
    split
    · exact hnum.setParty (by rw [hi]; simp) _
    · exact hnum.releaseStream o (by rw [hi]; simp) _
  | shrunk => exact hnum

theorem Inv.init (o : PoolOptions) (prefill : Nat) (prefillBytes : Option Nat) :
    Inv (Sys.init o prefill prefillBytes) where
  wf := Pool.new_wf o prefill prefillBytes
  recycled_nodup := List.nodup_nil
  recycled := fun h hh => absurd hh (by simp [Sys.init, Pool.new])
  live_out := fun i h hi => absurd hi (by simp [Sys.init, Party.live])
  live_buffer := fun i h hi => absurd hi (by simp [Sys.init, Party.live])
  live_inj := fun i j h h' hi => absurd hi (by simp [Sys.init, Party.live])
  aliases := fun i st hi => absurd hi (by simp [Sys.init])
  drained := fun i st hi => absurd hi (by simp [Sys.init])

/-- An owned buffer is not handed out. -/
theorem Inv.keeps {s : Sys} (hinv : Inv s) (o : PoolOptions) {i : Nat} {st : Stream}
    (hi : s.party i = .response st) (hrel : st.released = false) : s.Keeps o st.bytes := by
  intro minSize h s' hacq
  have hlive : (s.party i).live = some st.handle := by
    rw [hi, Party.live, if_neg (by rw [hrel]; simp)]
  rw [hinv.aliases i st hi hrel]
  exact (hinv.acquire hacq).buffer_new i st.handle hlive

/-- **Orderly runs never overwrite a response.** In every state an orderly run reaches, `acquire`
hands out neither the buffer of a chunk that waits for its consumer nor the buffer of a response
that has yet to serve its chunk. -/
theorem pooledBody_not_handed_out (o : PoolOptions) (prefill : Nat) (prefillBytes : Option Nat)
    (s : Sys) (hrun : Run (Sys.step o) Orderly (Sys.init o prefill prefillBytes) s) :
    ChunksSafe o s ∧
      ∀ i st, s.party i = .response st → st.released = false → s.Keeps o st.bytes := by
  have hinv : Inv s ∧ Numbered s := by
    refine hrun.invariant (P := fun s => Inv s ∧ Numbered s) ?_ ?_
    · exact ⟨Inv.init o prefill prefillBytes, fun i _ => rfl⟩
    · rintro t a u ⟨hinv, hnum⟩ hord hstep
      exact ⟨hinv.step hnum hord hstep, hnum.step hstep⟩
  refine ⟨fun i st hi hqueue => ?_, fun i st hi hrel => hinv.1.keeps o hi hrel⟩
  rw [hinv.1.drained i st hi] at hqueue
  exact absurd hqueue (by simp)

/-- A request that acquires, responds, and is pulled while its reader waits. -/
theorem pooledBody_not_handed_out_after_read :
    ∃ s : Sys, ChunksSafe ⟨8, 2, 0, none, by decide, by decide⟩ s ∧ s.nextParty = 1 := by
  have hrun : Run (Sys.step ⟨8, 2, 0, none, by decide, by decide⟩) Orderly
      (Sys.init ⟨8, 2, 0, none, by decide, by decide⟩ 0 none) _ :=
    .tail (.tail (.tail (.tail .refl trivial (a := .acquire 4) rfl) trivial
      (a := .respond 0 4 false) rfl) trivial (a := .read 0) rfl)
      (by
        intro st hst _
        cases hst
        decide) (a := .pull 0) rfl
  exact ⟨_, (pooledBody_not_handed_out _ _ _ _ hrun).1, rfl⟩

/-- The runtime pulls before any read: the chunk is queued, its handle released, and the next
`acquire` hands the same buffer out. -/
theorem pooledBody_handed_out_before_read :
    ¬ ∀ (o : PoolOptions) (prefill : Nat) (prefillBytes : Option Nat) (s : Sys),
      Run (Sys.step o) (fun _ _ => True) (Sys.init o prefill prefillBytes) s → ChunksSafe o s := by
  intro h
  have hrun : Run (Sys.step ⟨8, 2, 0, none, by decide, by decide⟩) (fun _ _ => True)
      (Sys.init ⟨8, 2, 0, none, by decide, by decide⟩ 0 none) _ :=
    Run.of_exec [.acquire 4, .respond 0 4 false, .pull 0] rfl
  exact h _ _ _ _ hrun 0 _ rfl (by decide) 4 _ _ rfl rfl

end Castrum.PooledBody
