import Castrum.Lib.Runs

/-!
# Castrum — the off-thread task runtime (`src/task/runtime.ts`, `rust/task/*.rs`)

The JavaScript side keeps one `inflight` entry per task; a zero-copy entry is the only reference to
the buffer a pool thread reads or writes through a raw pointer. The native side is a bounded queue,
workers that pop jobs in batches, a completion ring and a set of cancelled ids. JavaScript runs
between the workers' steps in any order.

A worker's step is split where it matters: `exec` ends with the job's last access to its buffer,
`push` publishes the completion afterwards.

* `Sys.step` — every call of the runtime and every worker step;
* `Inv` — each id is in one place, and an unfinished job's entry still holds its buffer;
* `inflight_holds_buffers` — no run that shuts down only with its buffer jobs finished drops a
  buffer a worker may still touch.
-/

namespace Castrum.Task

/-- How a job reaches its payload: `castrum_task_submit` owns a copy, the two zero-copy entries
keep a pointer to a JavaScript buffer. -/
inductive Access where
  | copy
  | into (out cap : Nat)
  | slice (data : Nat)
  deriving DecidableEq

/-- The JavaScript buffer a job points into. -/
def Access.buffer : Access → Option Nat
  | .copy => none
  | .into out _ => some out
  | .slice data => some data

/-- `castrum_task_submit_out` refuses an empty output buffer; the other entries take any. -/
def Access.invalid : Access → Bool
  | .into _ cap => cap == 0
  | _ => false

structure Job where
  id : Nat
  access : Access
  deriving DecidableEq

/-- Completion statuses (`STATUS_OK` … `STATUS_UNSUPPORTED`). -/
inductive Status where
  | ok | error | cancelled | tooSmall | unsupported
  deriving DecidableEq

structure Completion where
  id : Nat
  status : Status
  deriving DecidableEq

/-- An `inflight` entry: the buffers it keeps alive. -/
structure Deferred where
  out : Option Nat
  keep : Option Nat
  deriving DecidableEq

def Access.deferred : Access → Deferred
  | .copy => ⟨none, none⟩
  | .into out _ => ⟨some out, none⟩
  | .slice data => ⟨none, some data⟩

/-- A worker: the jobs of its batch it has not finished, and the completion of the job it just
finished, not yet pushed. -/
structure Worker where
  batch : List Job
  done : Option Completion

structure Sys where
  inflight : Nat → Option Deferred
  nextId : Nat
  queue : List Job
  queueMax : Nat
  running : Bool
  threads : Nat
  worker : Nat → Worker
  ring : List Completion
  cancelled : List Nat

/-- Jobs a worker takes per queue lock (`BATCH_POP`). -/
def batchPop : Nat := 16

/-! ## The native calls -/

/-- `castrum_task_submit*`: `1` accepted, `2` overloaded, `0` invalid; a submit starts the pool
even when the queue is full. -/
def Sys.nativeSubmit (s : Sys) (job : Job) : Nat × Sys :=
  if job.access.invalid then (0, s)
  else if s.queueMax ≤ s.queue.length then (2, { s with running := true })
  else (1, { s with running := true, queue := s.queue ++ [job] })

/-- `mark_cancelled`. -/
def Sys.cancel (s : Sys) (id : Nat) : Sys :=
  if id ∈ s.cancelled then s else { s with cancelled := id :: s.cancelled }

def Sys.clearCancelled (s : Sys) (id : Nat) : Sys :=
  { s with cancelled := s.cancelled.filter (· ≠ id) }

def Sys.setWorker (s : Sys) (w : Nat) (wk : Worker) : Sys :=
  { s with worker := Function.update s.worker w wk }

/-- How many jobs one lock section takes: a whole batch only while plenty of work is left. -/
def Sys.popCount (s : Sys) : Nat :=
  if s.queue.length - 1 ≥ s.threads then batchPop else 1

/-- The status of a job whose body would end with `outcome`. -/
def Sys.statusOf (s : Sys) (id : Nat) (outcome : Status) : Status :=
  if id ∈ s.cancelled then .cancelled else outcome

/-! ## The JavaScript calls -/

/-- `submit`, `submitInto` and `submitSlice`: enter the map, call native, leave it on a rejection. -/
def Sys.submit (s : Sys) (access : Access) : Sys :=
  let id := s.nextId
  let s := { s with
    nextId := id + 1
    inflight := Function.update s.inflight id (some access.deferred) }
  let r := s.nativeSubmit ⟨id, access⟩
  if r.1 = 1 then r.2 else { r.2 with inflight := Function.update r.2.inflight id none }

/-- One round of `drainNow`: the whole ring is taken, and every entry found is deleted. -/
def Sys.drain (s : Sys) : Sys :=
  { s with
    ring := []
    inflight := fun id => if id ∈ s.ring.map Completion.id then none else s.inflight id }

/-- `shutdown()`: cancel every entry, clear the map, stop the pool, drop the ring. The jobs that
workers hold, and the queued ones, still run. -/
def Sys.shutdown (s : Sys) : Sys :=
  { s with
    cancelled := s.cancelled ++
      (List.range s.nextId).filter (fun id => (s.inflight id).isSome ∧ id ∉ s.cancelled)
    inflight := fun _ => none
    running := false
    ring := [] }

inductive Action where
  | submit (access : Access)
  | abort (id : Nat)
  | drain
  | shutdown
  | pop (w : Nat)
  | exec (w : Nat) (outcome : Status)
  | push (w : Nat)

/-- One call of the runtime or one step of a worker. A worker pops only between batches, and
executes its next job only after publishing the last one. -/
def Sys.step (s : Sys) : Action → Option Sys
  | .submit access => some (s.submit access)
  | .abort id => if id < s.nextId then some (s.cancel id) else none
  | .drain => some s.drain
  | .shutdown => some s.shutdown
  | .pop w =>
    match s.worker w with
    | ⟨[], none⟩ =>
      some { s.setWorker w ⟨s.queue.take s.popCount, none⟩ with queue := s.queue.drop s.popCount }
    | _ => none
  | .exec w outcome =>
    match s.worker w with
    | ⟨job :: rest, none⟩ =>
      some ((s.clearCancelled job.id).setWorker w ⟨rest, some ⟨job.id, s.statusOf job.id outcome⟩⟩)
    | _ => none
  | .push w =>
    match s.worker w with
    | ⟨batch, some c⟩ => some { s.setWorker w ⟨batch, none⟩ with ring := s.ring ++ [c] }
    | _ => none

/-- Before the first submit. -/
def Sys.init (threads queueMax : Nat) : Sys where
  inflight := fun _ => none
  nextId := 1
  queue := []
  queueMax := queueMax
  running := true
  threads := threads
  worker := fun _ => ⟨[], none⟩
  ring := []
  cancelled := []

/-! ## The lifetime contract -/

/-- A job that has been accepted and has not yet ended on its worker. -/
def Unfinished (s : Sys) (job : Job) : Prop := job ∈ s.queue ∨ ∃ w, job ∈ (s.worker w).batch

/-- The map still references the buffer of every unfinished job. -/
def BuffersHeld (s : Sys) : Prop :=
  ∀ job b, Unfinished s job → job.access.buffer = some b →
    ∃ d, s.inflight job.id = some d ∧ (d.out = some b ∨ d.keep = some b)

/-- Where an id is. -/
inductive Place where
  | queued
  | onWorker (w : Nat)
  | finished

/-- Each id is in one place: `place` maps an id to where it may be found. -/
structure Inv (s : Sys) (place : Nat → Place) : Prop where
  queue_nodup : (s.queue.map Job.id).Nodup
  batch_nodup : ∀ w, ((s.worker w).batch.map Job.id).Nodup
  queued : ∀ job ∈ s.queue, place job.id = .queued ∧ job.id < s.nextId
  onWorker : ∀ w, ∀ job ∈ (s.worker w).batch, place job.id = .onWorker w ∧ job.id < s.nextId
  done : ∀ w c, (s.worker w).done = some c → place c.id = .finished ∧ c.id < s.nextId
  ring : ∀ c ∈ s.ring, place c.id = .finished ∧ c.id < s.nextId
  held : BuffersHeld s

/-- The moves the contract is about: `shutdown` only once no buffer job is unfinished. -/
def Settled (s : Sys) : Action → Prop
  | .shutdown => ∀ job, Unfinished s job → job.access.buffer = none
  | _ => True

/-- An unfinished job is not at `finished`. -/
theorem Inv.place_ne_finished {s : Sys} {place : Nat → Place} (hinv : Inv s place) {job : Job}
    (h : Unfinished s job) : place job.id ≠ .finished ∧ job.id < s.nextId := by
  rcases h with hq | ⟨w, hw⟩
  · rw [(hinv.queued job hq).1]
    exact ⟨by simp, (hinv.queued job hq).2⟩
  · rw [(hinv.onWorker w job hw).1]
    exact ⟨by simp, (hinv.onWorker w job hw).2⟩

/-- Entering the map under a fresh id, and no job with it. -/
theorem Inv.enter {s : Sys} {place : Nat → Place} (hinv : Inv s place) (d : Option Deferred)
    (running : Bool) :
    Inv { s with
      nextId := s.nextId + 1
      inflight := Function.update s.inflight s.nextId d
      running := running } place where
  queue_nodup := hinv.queue_nodup
  batch_nodup := hinv.batch_nodup
  queued := fun job hj => ⟨(hinv.queued job hj).1, Nat.lt_succ_of_lt (hinv.queued job hj).2⟩
  onWorker := fun w job hj =>
    ⟨(hinv.onWorker w job hj).1, Nat.lt_succ_of_lt (hinv.onWorker w job hj).2⟩
  done := fun w c hc => ⟨(hinv.done w c hc).1, Nat.lt_succ_of_lt (hinv.done w c hc).2⟩
  ring := fun c hc => ⟨(hinv.ring c hc).1, Nat.lt_succ_of_lt (hinv.ring c hc).2⟩
  held := by
    intro job b hun hb
    have hlt := (hinv.place_ne_finished hun).2
    show ∃ e, Function.update s.inflight s.nextId d job.id = some e ∧ _
    rw [Function.update_of_ne (by omega)]
    exact hinv.held job b hun hb

/-- **A submission keeps the invariant**: the entry is made before native may accept the job. -/
theorem Inv.submit {s : Sys} {place : Nat → Place} (hinv : Inv s place) (access : Access) :
    ∃ place', Inv (s.submit access) place' := by
  unfold Sys.submit Sys.nativeSubmit
  simp only
  split
  · -- invalid arguments: the entry is removed again
    refine ⟨place, ?_⟩
    simp only [show ¬ (0 : Nat) = 1 by omega, if_false]
    simpa [Function.update_idem] using hinv.enter none s.running
  · split
    · refine ⟨place, ?_⟩
      simp only [show ¬ (2 : Nat) = 1 by omega, if_false]
      simpa [Function.update_idem] using hinv.enter none true
    · -- accepted: the id is fresh, so it is placed in the queue
      have fresh : ∀ job, Unfinished s job → job.id ≠ s.nextId := by
        intro job hun
        have := (hinv.place_ne_finished hun).2
        omega
      have hent := hinv.enter (some access.deferred) true
      refine ⟨Function.update place s.nextId .queued, ?_⟩
      simp only [if_true]
      refine ⟨?_, hent.batch_nodup, ?_, ?_, ?_, ?_, ?_⟩
      · rw [List.map_append, List.map_singleton]
        refine hinv.queue_nodup.append (List.nodup_singleton _) ?_
        rw [List.disjoint_singleton]
        intro hmem
        obtain ⟨job, hj, hid⟩ := List.mem_map.mp hmem
        exact fresh job (.inl hj) hid
      · intro job hj
        rcases List.mem_append.mp hj with hj | hj
        · rw [Function.update_of_ne (fresh job (.inl hj))]
          exact hent.queued job hj
        · rw [List.mem_singleton.mp hj, Function.update_self]
          exact ⟨rfl, Nat.lt_succ_self _⟩
      · intro w job hj
        rw [Function.update_of_ne (fresh job (.inr ⟨w, hj⟩))]
        exact hent.onWorker w job hj
      · intro w c hc
        rw [Function.update_of_ne (Nat.ne_of_lt (hinv.done w c hc).2)]
        exact hent.done w c hc
      · intro c hc
        rw [Function.update_of_ne (Nat.ne_of_lt (hinv.ring c hc).2)]
        exact hent.ring c hc
      · intro job b hun hb
        have hcases : Unfinished s job ∨ job = ⟨s.nextId, access⟩ := by
          rcases hun with hq | hw
          · rcases List.mem_append.mp hq with hq | hq
            · exact .inl (.inl hq)
            · exact .inr (List.mem_singleton.mp hq)
          · exact .inl (.inr hw)
        rcases hcases with hold | rfl
        · exact hent.held job b hold hb
        · refine ⟨access.deferred, Function.update_self .., ?_⟩
          cases access with
          | copy => exact absurd hb (by simp [Access.buffer])
          | into out cap => exact .inl hb
          | slice data => exact .inr hb

/-- Popping a prefix of the queue moves its ids to the worker. -/
theorem Inv.pop {s : Sys} {place : Nat → Place} (hinv : Inv s place) (w n : Nat) :
    Inv { s.setWorker w ⟨s.queue.take n, none⟩ with queue := s.queue.drop n }
      (fun id => if id ∈ (s.queue.take n).map Job.id then .onWorker w else place id) := by
  have hsplit : (s.queue.take n).map Job.id ++ (s.queue.drop n).map Job.id = s.queue.map Job.id := by
    rw [← List.map_append, List.take_append_drop]
  have hnodup : ((s.queue.take n).map Job.id ++ (s.queue.drop n).map Job.id).Nodup :=
    hsplit ▸ hinv.queue_nodup
  -- an id outside the queue is not among the popped ones
  have notQueued : ∀ id, place id ≠ .queued → id ∉ (s.queue.take n).map Job.id := by
    intro id hne hmem
    obtain ⟨job, hj, rfl⟩ := List.mem_map.mp hmem
    exact hne (hinv.queued job (List.mem_of_mem_take hj)).1
  have other : ∀ w', w' ≠ w → (Function.update s.worker w ⟨s.queue.take n, none⟩) w' = s.worker w' :=
    fun w' hne => Function.update_of_ne hne _ _
  refine ⟨(List.nodup_append.mp hnodup).2.1, ?_, ?_, ?_, ?_, ?_, ?_⟩
  · intro w'
    show ((Function.update s.worker w _ w').batch.map Job.id).Nodup
    by_cases hww : w' = w
    · rw [hww, Function.update_self]
      exact (List.nodup_append.mp hnodup).1
    · rw [other w' hww]
      exact hinv.batch_nodup w'
  · intro job hj
    have hmem : job.id ∉ (s.queue.take n).map Job.id := by
      intro hmem
      exact (List.nodup_append.mp hnodup).2.2 job.id hmem job.id (List.mem_map_of_mem hj) rfl
    rw [if_neg hmem]
    exact hinv.queued job (List.mem_of_mem_drop hj)
  · intro w' job hj
    change job ∈ (Function.update s.worker w _ w').batch at hj
    by_cases hww : w' = w
    · rw [hww, Function.update_self] at hj
      rw [if_pos (List.mem_map_of_mem hj), hww]
      exact ⟨rfl, (hinv.queued job (List.mem_of_mem_take hj)).2⟩
    · rw [other w' hww] at hj
      rw [if_neg (notQueued job.id (by rw [(hinv.onWorker w' job hj).1]; simp))]
      exact hinv.onWorker w' job hj
  · intro w' c hc
    change (Function.update s.worker w _ w').done = some c at hc
    by_cases hww : w' = w
    · rw [hww, Function.update_self] at hc
      exact absurd hc (by simp)
    · rw [other w' hww] at hc
      rw [if_neg (notQueued c.id (by rw [(hinv.done w' c hc).1]; simp))]
      exact hinv.done w' c hc
  · intro c hc
    rw [if_neg (notQueued c.id (by rw [(hinv.ring c hc).1]; simp))]
    exact hinv.ring c hc
  · intro job b hun hb
    refine hinv.held job b ?_ hb
    rcases hun with hq | ⟨w', hw'⟩
    · exact .inl (List.mem_of_mem_drop hq)
    · change job ∈ (Function.update s.worker w _ w').batch at hw'
      by_cases hww : w' = w
      · rw [hww, Function.update_self] at hw'
        exact .inl (List.mem_of_mem_take hw')
      · rw [other w' hww] at hw'
        exact .inr ⟨w', hw'⟩

/-- The job at the head of a batch ends: its id is finished, and no other job has it. -/
theorem Inv.exec {s : Sys} {place : Nat → Place} (hinv : Inv s place) {w : Nat} {job : Job}
    {rest : List Job} (hw : s.worker w = ⟨job :: rest, none⟩) (status : Status) :
    Inv ((s.clearCancelled job.id).setWorker w ⟨rest, some ⟨job.id, status⟩⟩)
      (Function.update place job.id .finished) := by
  have hmem : job ∈ (s.worker w).batch := by rw [hw]; exact List.mem_cons_self
  obtain ⟨hplace, hlt⟩ := hinv.onWorker w job hmem
  have hnodup : job.id ∉ rest.map Job.id ∧ (rest.map Job.id).Nodup := by
    have := hinv.batch_nodup w
    rw [hw] at this
    exact List.nodup_cons.mp this
  have hrest : ∀ j ∈ rest, j ∈ (s.worker w).batch := by
    intro j hj
    rw [hw]
    exact List.mem_cons_of_mem _ hj
  -- an id that is somewhere else is not the one that moves
  have ne_of_place : ∀ id, place id ≠ .onWorker w → id ≠ job.id := by
    rintro id hne rfl
    exact hne hplace
  have other : ∀ w' wk, w' ≠ w → (Function.update s.worker w wk) w' = s.worker w' :=
    fun w' wk hne => Function.update_of_ne hne _ _
  refine ⟨hinv.queue_nodup, ?_, ?_, ?_, ?_, ?_, ?_⟩
  · intro w'
    show ((Function.update s.worker w _ w').batch.map Job.id).Nodup
    by_cases hww : w' = w
    · rw [hww, Function.update_self]
      exact hnodup.2
    · rw [other w' _ hww]
      exact hinv.batch_nodup w'
  · intro j hj
    rw [Function.update_of_ne (ne_of_place _ (by rw [(hinv.queued j hj).1]; simp))]
    exact hinv.queued j hj
  · intro w' j hj
    change j ∈ (Function.update s.worker w _ w').batch at hj
    by_cases hww : w' = w
    · rw [hww, Function.update_self] at hj
      have hne : j.id ≠ job.id := fun heq => hnodup.1 (heq ▸ List.mem_map_of_mem hj)
      rw [Function.update_of_ne hne, hww]
      exact hinv.onWorker w j (hrest j hj)
    · rw [other w' _ hww] at hj
      have hp := (hinv.onWorker w' j hj).1
      rw [Function.update_of_ne (ne_of_place _ (by rw [hp]; simpa using hww))]
      exact hinv.onWorker w' j hj
  · intro w' c hc
    change (Function.update s.worker w _ w').done = some c at hc
    by_cases hww : w' = w
    · rw [hww, Function.update_self] at hc
      obtain rfl := Option.some.inj hc
      rw [Function.update_self]
      exact ⟨rfl, hlt⟩
    · rw [other w' _ hww] at hc
      rw [Function.update_of_ne (ne_of_place _ (by rw [(hinv.done w' c hc).1]; simp))]
      exact hinv.done w' c hc
  · intro c hc
    rw [Function.update_of_ne (ne_of_place _ (by rw [(hinv.ring c hc).1]; simp))]
    exact hinv.ring c hc
  · intro j b hun hb
    refine hinv.held j b ?_ hb
    rcases hun with hq | ⟨w', hw'⟩
    · exact .inl hq
    · change j ∈ (Function.update s.worker w _ w').batch at hw'
      by_cases hww : w' = w
      · rw [hww, Function.update_self] at hw'
        exact .inr ⟨w, hrest j hw'⟩
      · rw [other w' _ hww] at hw'
        exact .inr ⟨w', hw'⟩

/-- Publishing a completion moves it from the worker to the ring. -/
theorem Inv.push {s : Sys} {place : Nat → Place} (hinv : Inv s place) {w : Nat}
    {batch : List Job} {c : Completion} (hw : s.worker w = ⟨batch, some c⟩) :
    Inv { s.setWorker w ⟨batch, none⟩ with ring := s.ring ++ [c] } place := by
  -- Only the completion of the worker goes; its batch stays, and so do the other workers.
  have hbatch : ∀ w', (Function.update s.worker w ⟨batch, none⟩ w').batch = (s.worker w').batch := by
    intro w'
    by_cases hww : w' = w
    · rw [hww, Function.update_self, hw]
    · rw [Function.update_of_ne hww]
  have hdone : ∀ w' c', (Function.update s.worker w ⟨batch, none⟩ w').done = some c' →
      (s.worker w').done = some c' := by
    intro w' c' hc
    by_cases hww : w' = w
    · rw [hww, Function.update_self] at hc
      exact absurd hc (by simp)
    · rwa [Function.update_of_ne hww] at hc
  refine ⟨hinv.queue_nodup, fun w' => ?_, hinv.queued, fun w' j hj => ?_, fun w' c' hc => ?_,
    fun c' hc => ?_, fun j b hun hb => ?_⟩
  · show ((Function.update s.worker w _ w').batch.map Job.id).Nodup
    rw [hbatch]
    exact hinv.batch_nodup w'
  · exact hinv.onWorker w' j (hbatch w' ▸ hj)
  · exact hinv.done w' c' (hdone w' c' hc)
  · rcases List.mem_append.mp hc with hc | hc
    · exact hinv.ring c' hc
    · rw [List.mem_singleton.mp hc]
      exact hinv.done w c (by rw [hw])
  · refine hinv.held j b ?_ hb
    rcases hun with hq | ⟨w', hw'⟩
    · exact .inl hq
    · exact .inr ⟨w', hbatch w' ▸ hw'⟩

/-- A drained id is finished, so no unfinished job loses its entry. -/
theorem Inv.drain {s : Sys} {place : Nat → Place} (hinv : Inv s place) : Inv s.drain place where
  queue_nodup := hinv.queue_nodup
  batch_nodup := hinv.batch_nodup
  queued := hinv.queued
  onWorker := hinv.onWorker
  done := hinv.done
  ring := fun c hc => absurd hc (by simp [Sys.drain])
  held := by
    intro job b hun hb
    have hne := (hinv.place_ne_finished hun).1
    have hnot : job.id ∉ s.ring.map Completion.id := by
      intro hmem
      obtain ⟨c, hc, hid⟩ := List.mem_map.mp hmem
      exact hne (hid ▸ (hinv.ring c hc).1)
    show ∃ d, (if job.id ∈ s.ring.map Completion.id then none else s.inflight job.id) = some d ∧ _
    rw [if_neg hnot]
    exact hinv.held job b hun hb

/-- **One step keeps the contract**, `shutdown` under its side condition. -/
theorem Inv.step {s s' : Sys} {place : Nat → Place} {a : Action} (hinv : Inv s place)
    (hset : Settled s a) (hstep : s.step a = some s') : ∃ place', Inv s' place' := by
  -- the place of a buffer changes when its job is taken, run and dropped
  cases a with
  | submit access =>
    cases hstep
    exact hinv.submit access
  | abort id =>
    simp only [Sys.step] at hstep
    split at hstep
    · cases hstep
      unfold Sys.cancel
      split
      · exact ⟨place, hinv⟩
      · exact ⟨place, hinv.1, hinv.2, hinv.3, hinv.4, hinv.5, hinv.6, hinv.7⟩
    · exact absurd hstep (by simp)
  | drain =>
    cases hstep
    exact ⟨place, hinv.drain⟩
  | shutdown =>
    cases hstep
    refine ⟨place, hinv.1, hinv.2, hinv.3, hinv.4, hinv.5, fun c hc => absurd hc (by simp [Sys.shutdown]),
      fun job b hun hb => ?_⟩
    rw [hset job hun] at hb
    exact absurd hb (by simp)
  | pop w =>
    simp only [Sys.step] at hstep
    split at hstep
    · cases hstep
      exact ⟨_, hinv.pop w s.popCount⟩
    · exact absurd hstep (by simp)
  | exec w outcome =>
    simp only [Sys.step] at hstep
    split at hstep
    · next job rest hw =>
      cases hstep
      exact ⟨_, hinv.exec hw _⟩
    · exact absurd hstep (by simp)
  | push w =>
    simp only [Sys.step] at hstep
    split at hstep
    · next batch c hw =>
      cases hstep
      exact ⟨place, hinv.push hw⟩
    · exact absurd hstep (by simp)

/-- **Buffers outlive their jobs** along every run that shuts down only once its buffer jobs have
finished: the map references the buffer of every job a worker may still touch. -/
theorem inflight_holds_buffers (threads queueMax : Nat) (s : Sys)
    (hrun : Run Sys.step Settled (Sys.init threads queueMax) s) : BuffersHeld s := by
  have hinv : ∃ place, Inv s place := by
    refine hrun.invariant (P := fun s => ∃ place, Inv s place) ⟨fun _ => .queued, ?_⟩ ?_
    · exact ⟨List.nodup_nil, fun _ => List.nodup_nil, fun job hj => absurd hj (by simp [Sys.init]),
        fun w job hj => absurd hj (by simp [Sys.init]), fun w c hc => absurd hc (by simp [Sys.init]),
        fun c hc => absurd hc (by simp [Sys.init]),
        fun job b hun => absurd hun (by simp [Unfinished, Sys.init])⟩
    · rintro t a u ⟨place, hinv⟩ hset hstep
      exact hinv.step hset hstep
  obtain ⟨place, hinv⟩ := hinv
  exact hinv.held

/-- A zero-copy submission, popped by worker `0` and aborted while it runs. -/
theorem inflight_holds_buffers_aborted :
    ∃ s : Sys, BuffersHeld s ∧ Unfinished s ⟨1, .into 7 64⟩ := by
  have hrun : Run Sys.step Settled (Sys.init 2 16) _ :=
    .tail (.tail (.tail .refl trivial (a := .submit (.into 7 64)) rfl) trivial (a := .pop 0) rfl)
      trivial (a := .abort 1) rfl
  exact ⟨_, inflight_holds_buffers _ _ _ hrun, .inr ⟨0, by decide⟩⟩

/-- `shutdown` while worker `0` writes into buffer `7`: the map forgets the buffer at once. -/
theorem shutdown_drops_buffer :
    ¬ ∀ (threads queueMax : Nat) (s : Sys),
      Run Sys.step (fun _ _ => True) (Sys.init threads queueMax) s → BuffersHeld s := by
  intro h
  have hrun : Run Sys.step (fun _ _ => True) (Sys.init 2 16) _ :=
    Run.of_exec [.submit (.into 7 64), .pop 0, .shutdown] rfl
  obtain ⟨d, hd, -⟩ := h _ _ _ hrun ⟨1, .into 7 64⟩ 7 (.inr ⟨0, by decide⟩) rfl
  exact absurd (show none = some d from hd) (by simp)

end Castrum.Task
