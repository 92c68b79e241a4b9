import Castrum.Task.Conservation

/-!
# Castrum — the cancelled set (`rust/task/ops.rs`, `src/task/runtime.ts`)

`CANCELLED` holds the ids whose cancellation was asked for. A worker looks its task's id up before
it runs the body, removes it before it publishes the completion, and does not look again. The calls
of `mark_cancelled` come from the abort listeners of JavaScript, which are never taken off: a
listener may fire when its task has long published, and `taskCancel` behind a submission whose
signal is aborted already races with the worker too.

* `Sys.step` — submissions with a signal, aborts, `mark_cancelled`, drains and workers in any order;
* `step_marks` — what a move of the pool does to the set, and to the tasks that will be removed from it;
* `Leaked.step` — a mark that no worker will remove is in the set for good;
* `cancelled_lawful_iff` — the set is as documented exactly along the runs whose marks come in time.
-/

namespace Castrum

namespace Completions

open Castrum.Task (Job Access)

variable {s s' : Sys} {w id : Nat}

/-- The worker of task `id` has yet to remove it from the cancelled set: the task is queued, or in
the batch of a worker. -/
def Sys.uncleared (s : Sys) (id : Nat) : Prop :=
  id ∈ s.queue.map Job.id ∨ ∃ w < s.threads, id ∈ (s.worker w).batch.map Job.id

/-- The completion of task `id` is in the ring, or was drained out of it. -/
def Sys.published (s : Sys) (id : Nat) : Prop :=
  id ∈ s.ring.map Completion.id ∨ id ∈ s.drained.map Drained.id

/-- All the tasks that were accepted have published. -/
def Sys.completed (s : Sys) : Prop := ∀ id ∈ s.accepted, s.published id

instance (s : Sys) (id : Nat) : Decidable (s.uncleared id) := inferInstanceAs (Decidable (_ ∨ _))

instance (s : Sys) (id : Nat) : Decidable (s.published id) := inferInstanceAs (Decidable (_ ∨ _))

instance (s : Sys) : Decidable s.completed :=
  inferInstanceAs (Decidable (∀ id ∈ s.accepted, s.published id))

/-- Some worker other than `w` has `id` in its batch. -/
def Sys.heldByOther (s : Sys) (w id : Nat) : Prop :=
  ∃ w' < s.threads, w' ≠ w ∧ id ∈ (s.worker w').batch.map Job.id

theorem uncleared_iff (hw : w < s.threads) (id : Nat) :
    s.uncleared id ↔ id ∈ s.queue.map Job.id ∨ id ∈ (s.worker w).batch.map Job.id ∨ s.heldByOther w id := by
  constructor
  · rintro (hqueue | ⟨w', hw', hmem⟩)
    · exact .inl hqueue
    · by_cases heq : w' = w
      · exact .inr (.inl (heq ▸ hmem))
      · exact .inr (.inr ⟨w', hw', heq, hmem⟩)
  · rintro (hqueue | hmem | ⟨w', hw', -, hmem⟩)
    · exact .inl hqueue
    · exact .inr ⟨w, hw, hmem⟩
    · exact .inr ⟨w', hw', hmem⟩

/-- Behind a move of worker `w`, which leaves it at `wk`. -/
theorem uncleared_setWorker (hw : w < s.threads) (wk : Worker) (queue : List Job)
    (cancelled : List Nat) (ring : List Completion) (id : Nat) :
    Sys.uncleared { s.setWorker w wk with queue := queue, cancelled := cancelled, ring := ring } id ↔
      id ∈ queue.map Job.id ∨ id ∈ wk.batch.map Job.id ∨ s.heldByOther w id := by
  have hnew : ({ s.setWorker w wk with
      queue := queue, cancelled := cancelled, ring := ring } : Sys).worker w = wk :=
    Function.update_self ..
  rw [uncleared_iff (show w < Sys.threads { s.setWorker w wk with
    queue := queue, cancelled := cancelled, ring := ring } from hw) id, hnew]
  -- the other workers are as they were
  have hothers : Sys.heldByOther { s.setWorker w wk with
      queue := queue, cancelled := cancelled, ring := ring } w id ↔ s.heldByOther w id := by
    apply exists_congr
    intro w'
    apply and_congr_right
    intro _
    apply and_congr_right
    intro hne
    show id ∈ (Function.update s.worker w wk w').batch.map Job.id ↔ _
    rw [Function.update_of_ne hne]
  rw [hothers]

/-! ## What a move does to the marks -/

/-- What a move of the pool does to the cancelled set, and to the tasks that will be removed from
it: nothing but the next id joins those, and an id that leaves them leaves the set. -/
structure Marks (s s' : Sys) : Prop where
  joins : ∀ id, s'.uncleared id → s.uncleared id ∨ id = s.nextId
  next : s.nextId ≤ s'.nextId
  leaves : (s'.cancelled = s.cancelled ∧ ∀ id, s.uncleared id → s'.uncleared id) ∨
    ∃ done, s.uncleared done ∧ s'.cancelled = s.cancelled.erase done ∧
      ∀ id, id ≠ done → s.uncleared id → s'.uncleared id

/-- A move that removes no mark. -/
theorem Marks.of_iff (hiff : ∀ id, s'.uncleared id ↔ s.uncleared id) (hnext : s.nextId = s'.nextId)
    (hcancelled : s'.cancelled = s.cancelled) : Marks s s' where
  joins := fun id h => .inl ((hiff id).mp h)
  next := Nat.le_of_eq hnext
  leaves := .inl ⟨hcancelled, fun id h => (hiff id).mpr h⟩

theorem marks_submit (s : Sys) (access : Access) : Marks s (s.submit access) := by
  have hrejects : Marks s { s with nextId := s.nextId + 1, rejected := s.nextId :: s.rejected } :=
    ⟨fun _ h => .inl h, Nat.le_succ _, .inl ⟨rfl, fun _ h => h⟩⟩
  unfold Sys.submit
  dsimp only
  split
  · exact hrejects
  split
  · exact hrejects
  · refine ⟨?_, Nat.le_succ _, .inl ⟨rfl, ?_⟩⟩
    · rintro id (hqueue | hworker)
      · change id ∈ (s.queue ++ [(⟨s.nextId, access⟩ : Job)]).map Job.id at hqueue
        rw [List.map_append, List.map_singleton, List.mem_append, List.mem_singleton] at hqueue
        exact hqueue.imp_left .inl
      · exact .inl (.inr hworker)
    · rintro id (hqueue | hworker)
      · left
        show id ∈ (s.queue ++ [(⟨s.nextId, access⟩ : Job)]).map Job.id
        rw [List.map_append]
        exact List.mem_append_left _ hqueue
      · exact .inr hworker

/-- A batch moves from the queue to worker `w`. -/
theorem marks_pop (hw : w < s.threads) (hidle : s.worker w = ⟨[], .idle⟩) (n : Nat) :
    Marks s { s.setWorker w ⟨s.queue.take n, .idle⟩ with queue := s.queue.drop n } := by
  refine .of_iff (fun id => Iff.trans (uncleared_setWorker hw _ _ _ _ id) ?_) rfl rfl
  rw [uncleared_iff hw, hidle]
  show id ∈ (s.queue.drop n).map Job.id ∨ id ∈ (s.queue.take n).map Job.id ∨ _ ↔
    _ ∨ id ∈ [] ∨ _
  have hqueue : id ∈ s.queue.map Job.id ↔
      id ∈ (s.queue.take n).map Job.id ∨ id ∈ (s.queue.drop n).map Job.id := by
    rw [← List.mem_append, ← List.map_append, List.take_append_drop]
  rw [hqueue]
  have hnone : ¬ id ∈ ([] : List Nat) := List.not_mem_nil
  tauto

/-- A worker whose batch stays as it is. -/
theorem marks_stage (hw : w < s.threads) {batch : List Job} {stage stage' : Stage}
    (hworker : s.worker w = ⟨batch, stage⟩) (ring : List Completion) :
    Marks s { s.setWorker w ⟨batch, stage'⟩ with ring := ring } := by
  refine .of_iff (fun id => Iff.trans (uncleared_setWorker hw _ _ _ _ id) ?_) rfl rfl
  rw [uncleared_iff hw, hworker]
  rfl

/-- The worker removes the id of the job that it ends. -/
theorem marks_finish (hw : w < s.threads) {job : Job} {rest : List Job} {stage stage' : Stage}
    (hworker : s.worker w = ⟨job :: rest, stage⟩) :
    Marks s { s.setWorker w ⟨rest, stage'⟩ with cancelled := s.cancelled.erase job.id } := by
  have hold := uncleared_iff hw
  rw [hworker] at hold
  have hbatch : ∀ id, id ∈ (job :: rest).map Job.id ↔ id = job.id ∨ id ∈ rest.map Job.id := fun id => by
    rw [List.map_cons, List.mem_cons]
  refine ⟨?_, Nat.le_refl _, .inr ⟨job.id, ?_, rfl, ?_⟩⟩
  · intro id h
    have hnew := Iff.mp (uncleared_setWorker hw _ _ _ _ id) h
    left
    rw [hold, hbatch]
    exact hnew.imp_right (Or.imp_left .inr)
  · rw [hold, hbatch]
    exact .inr (.inl (.inl rfl))
  · intro id hne h
    rw [hold, hbatch] at h
    apply Iff.mpr (uncleared_setWorker hw _ _ _ _ id)
    exact h.imp_right (Or.imp_left fun h => h.resolve_left hne)

/-- **A move of the pool**, any but `mark_cancelled`. -/
theorem step_marks {a : Action} (hcancel : ∀ id, a ≠ .cancel id) (h : s.step a = some s') : Marks s s' := by
  -- One case for each move: a job passes from the queue to a worker, through its stages, and into
  -- the ring.
  cases a with
  | submit access =>
    obtain ⟨-, rfl⟩ := guard_eq_some h
    exact marks_submit s access
  | cancel id => exact absurd rfl (hcancel id)
  | drain out =>
    obtain ⟨-, rfl⟩ := guard_eq_some h
    exact .of_iff (fun _ => Iff.rfl) rfl rfl
  | pop w =>
    simp only [Sys.step] at h
    split at h
    · next hidle =>
      obtain ⟨hw, rfl⟩ := guard_eq_some h
      exact marks_pop hw hidle s.popCount
    · cases h
  | start w =>
    simp only [Sys.step] at h
    split at h
    · next hidle =>
      obtain ⟨hw, rfl⟩ := guard_eq_some h
      exact marks_stage hw hidle s.ring
    · cases h
  | finish w outcome =>
    simp only [Sys.step] at h
    split at h
    · next hrun =>
      obtain ⟨hw, rfl⟩ := guard_eq_some h
      exact marks_finish hw hrun
    · cases h
  | push w =>
    simp only [Sys.step] at h
    split at h
    · next hdone =>
      obtain ⟨hw, rfl⟩ := guard_eq_some h
      exact marks_stage hw hdone _
    · cases h

/-- A worker that has `id` in its batch holds it. -/
theorem mem_ids_of_mem_batch {wk : Worker} (h : id ∈ wk.batch.map Job.id) : id ∈ wk.ids := by
  unfold Worker.ids
  cases wk.stage with
  | idle => exact h
  | running cancelled => exact h
  | publishing c => exact List.mem_cons_of_mem _ h

/-- A task that is still to be removed from the set was accepted, and has not published. -/
theorem uncleared_live {queueMax : Nat} (hinv : Inv queueMax s) (h : s.uncleared id) :
    id ∈ s.accepted ∧ ¬ s.published id := by
  -- it is in the queue or with a worker, and an id is in one place
  have hplace : ∃ place, id ∈ s.idsAt place ∧ place ≠ .ring ∧ place ≠ .drained := by
    rcases h with hqueue | ⟨w, hw, hmem⟩
    · exact ⟨.queue, hqueue, nofun, nofun⟩
    · refine ⟨.batch w, ?_, nofun, nofun⟩
      show id ∈ if w < s.threads then (s.worker w).ids else []
      rw [if_pos hw]
      exact mem_ids_of_mem_batch hmem
  obtain ⟨place, hmem, hring, hdrained⟩ := hplace
  have haccepted := hinv.accepted_of_mem hmem
  have hone : s.copies id = 1 := by rw [hinv.copies, if_pos haccepted]
  refine ⟨haccepted, ?_⟩
  rintro (hpub | hpub)
  · exact hring (place_unique hone hmem (show id ∈ s.idsAt .ring from hpub))
  · exact hdrained (place_unique hone hmem (show id ∈ s.idsAt .drained from hpub))

end Completions

/-! ## The abort listeners -/

namespace Cancelled

open Castrum.Task (Access)
open Completions (Outcome step_marks uncleared_live)

/-- The pool, and what in JavaScript leads to `mark_cancelled`: the signals that were aborted, the
`abort` listeners (of a signal, for a task), and the calls of `taskCancel` that are to be made. -/
structure Sys where
  pool : Completions.Sys
  aborted : List Nat
  listeners : List (Nat × Nat)
  calls : List Nat

def Sys.init (threads queueMax : Nat) : Sys := ⟨.init threads queueMax, [], [], []⟩

/-- `mark_cancelled`, which answers whether it inserted the id. -/
def markCancelled (id : Nat) (pool : Completions.Sys) : Bool × Completions.Sys :=
  (!pool.cancelled.contains id, pool.cancel id)

/-- `submit`, `submitInto` and `submitSlice` behind the native call, which left the pool at `pool`:
an accepted task is cancelled now if its signal is aborted already, else once it is. -/
def Sys.submitted (s : Sys) (signal : Option Nat) (pool : Completions.Sys) : Sys :=
  let id := s.pool.nextId
  if id ∈ pool.accepted then
    match signal with
    | none => { s with pool := pool }
    | some signal =>
      if signal ∈ s.aborted then { s with pool := pool, calls := s.calls ++ [id] }
      else { s with pool := pool, listeners := s.listeners ++ [(signal, id)] }
  else { s with pool := pool }

/-- A signal is aborted once, and its listeners fire once. Between their calls the workers go on. -/
def Sys.abort (s : Sys) (signal : Nat) : Sys :=
  if signal ∈ s.aborted then s
  else
    { s with
      aborted := signal :: s.aborted
      listeners := s.listeners.filter (·.1 ≠ signal)
      calls := s.calls ++ (s.listeners.filter (·.1 = signal)).map Prod.snd }

/-- A move that JavaScript's side of the marks takes no part in. -/
def Sys.native (s : Sys) (a : Completions.Action) : Option Sys :=
  (s.pool.step a).map fun pool => { s with pool := pool }

inductive Action where
  | submit (access : Access) (signal : Option Nat)
  | abort (signal : Nat)
  | taskCancel (id : Nat)
  | drain (out : Option Bytes)
  | pop (w : Nat)
  | start (w : Nat)
  | finish (w : Nat) (outcome : Outcome)
  | push (w : Nat)

/-- One move of JavaScript, or of a worker. -/
def Sys.step (s : Sys) : Action → Option Sys
  | .submit access signal => (s.pool.step (.submit access)).map (s.submitted signal)
  | .abort signal => some (s.abort signal)
  | .taskCancel id =>
    if id ∈ s.calls then
      some { s with pool := (markCancelled id s.pool).2, calls := s.calls.erase id }
    else none
  | .drain out => s.native (.drain out)
  | .pop w => s.native (.pop w)
  | .start w => s.native (.start w)
  | .finish w outcome => s.native (.finish w outcome)
  | .push w => s.native (.push w)

/-! ## One move -/

variable {s s' : Sys} {a : Action} {queueMax : Nat}

@[simp] theorem pool_submitted (s : Sys) (signal : Option Nat) (pool : Completions.Sys) :
    (s.submitted signal pool).pool = pool := by
  unfold Sys.submitted
  dsimp only
  split
  · cases signal with
    | none => rfl
    | some signal =>
      dsimp only
      split <;> rfl
  · rfl

theorem native_eq_some {b : Completions.Action} (h : s.native b = some s') :
    ∃ pool, s.pool.step b = some pool ∧ s' = { s with pool := pool } := by
  obtain ⟨pool, hpool, rfl⟩ := Option.map_eq_some_iff.mp h
  exact ⟨pool, hpool, rfl⟩

/-- **What a move does to the pool**: one of its own moves, or nothing, or one of the calls of
`mark_cancelled` that were to be made. -/
theorem step_pool (h : s.step a = some s') :
    (∃ b, (∀ id, b ≠ .cancel id) ∧ s.pool.step b = some s'.pool) ∨ s'.pool = s.pool ∨
      ∃ id ∈ s.calls, a = .taskCancel id ∧ s'.pool = s.pool.cancel id := by
  have hnative : ∀ b : Completions.Action, (∀ id, b ≠ .cancel id) → s.native b = some s' →
      ∃ b, (∀ id, b ≠ .cancel id) ∧ s.pool.step b = some s'.pool := by
    intro b hb hs
    obtain ⟨pool, hpool, rfl⟩ := native_eq_some hs
    exact ⟨b, hb, hpool⟩
  cases a with
  | submit access signal =>
    obtain ⟨pool, hpool, rfl⟩ := Option.map_eq_some_iff.mp h
    exact .inl ⟨.submit access, nofun, by rw [hpool, pool_submitted]⟩
  | abort signal =>
    right; left
    rw [← Option.some.inj h]
    unfold Sys.abort
    split <;> rfl
  | taskCancel id =>
    obtain ⟨hid, rfl⟩ := guard_eq_some h
    exact .inr (.inr ⟨id, hid, rfl, rfl⟩)
  | drain out => exact .inl (hnative (.drain out) nofun h)
  | pop w => exact .inl (hnative (.pop w) nofun h)
  | start w => exact .inl (hnative (.start w) nofun h)
  | finish w outcome => exact .inl (hnative (.finish w outcome) nofun h)
  | push w => exact .inl (hnative (.push w) nofun h)

/-! ## Marks that come in time -/

/-- What holds of the pool while every mark finds its task uncleared. -/
structure Inv (queueMax : Nat) (pool : Completions.Sys) : Prop where
  base : Completions.Inv queueMax pool
  nodup : pool.cancelled.Nodup
  marked : ∀ id ∈ pool.cancelled, pool.uncleared id

namespace Inv

variable {pool pool' : Completions.Sys}

theorem init (threads queueMax : Nat) : Inv queueMax (.init threads queueMax) :=
  ⟨.init threads queueMax, List.nodup_nil, fun _ h => absurd h List.not_mem_nil⟩

/-- A move of the pool: an id that leaves the uncleared ones leaves the set with it. -/
theorem native (h : Inv queueMax pool) {b : Completions.Action} (hcancel : ∀ id, b ≠ .cancel id)
    (hstep : pool.step b = some pool') : Inv queueMax pool' := by
  have hbase := h.base.step hstep
  rcases (step_marks hcancel hstep).leaves with ⟨hkept, hun⟩ | ⟨done, -, herase, hun⟩
  · refine ⟨hbase, hkept ▸ h.nodup, fun id hid => ?_⟩
    rw [hkept] at hid
    exact hun id (h.marked id hid)
  · refine ⟨hbase, herase ▸ h.nodup.erase done, fun id hid => ?_⟩
    rw [herase, h.nodup.mem_erase_iff] at hid
    exact hun id hid.1 (h.marked id hid.2)

/-- A mark that comes in time. -/
theorem mark (h : Inv queueMax pool) {id : Nat} (hun : pool.uncleared id) :
    Inv queueMax (pool.cancel id) := by
  refine ⟨h.base.step (a := .cancel id) rfl, h.nodup.insert, fun id' hid' => ?_⟩
  rcases List.mem_insert_iff.mp hid' with rfl | hold
  · exact hun
  · exact h.marked id' hold

/-- The set holds tasks that were accepted and have not published, and so none when all have. -/
theorem sound (h : Inv queueMax pool) :
    (∀ id ∈ pool.cancelled, id ∈ pool.accepted ∧ ¬ pool.published id) ∧
      (pool.completed → pool.cancelled = []) := by
  have hlive : ∀ id ∈ pool.cancelled, id ∈ pool.accepted ∧ ¬ pool.published id :=
    fun id hid => uncleared_live h.base (h.marked id hid)
  refine ⟨hlive, fun hall => List.eq_nil_iff_forall_not_mem.mpr fun id hid => ?_⟩
  exact (hlive id hid).2 (hall id (hlive id hid).1)

end Inv

/-! ## Marks that come late -/

/-- An id that no worker will remove from the set any more. -/
structure Leaked (id : Nat) (pool : Completions.Sys) : Prop where
  marked : id ∈ pool.cancelled
  cleared : ¬ pool.uncleared id
  old : id < pool.nextId

/-- **A leaked id stays**, whatever comes next. -/
theorem Leaked.step {id : Nat} (h : Leaked id s.pool) (hstep : s.step a = some s') : Leaked id s'.pool := by
  rcases step_pool hstep with ⟨b, hcancel, hpool⟩ | hsame | ⟨id', -, -, hmark⟩
  · have hmarks := step_marks hcancel hpool
    refine ⟨?_, fun hun => ?_, Nat.lt_of_lt_of_le h.old hmarks.next⟩
    · rcases hmarks.leaves with ⟨hkept, -⟩ | ⟨done, hdone, herase, -⟩
      · exact hkept ▸ h.marked
      · have hne : id ≠ done := fun heq => h.cleared (heq ▸ hdone)
        rw [herase]
        exact (List.mem_erase_of_ne hne).mpr h.marked
    · rcases hmarks.joins id hun with hold | hnew
      · exact h.cleared hold
      · have hlt := h.old
        omega
  · exact hsame ▸ h
  · rw [hmark]
    exact ⟨List.mem_insert_of_mem h.marked, h.cleared, h.old⟩

/-- The listeners and the calls are for tasks that were submitted. -/
def Known (s : Sys) : Prop := ∀ id, id ∈ s.calls ∨ id ∈ s.listeners.map Prod.snd → id < s.pool.nextId

theorem nextId_submit (pool : Completions.Sys) (access : Access) :
    (pool.submit access).nextId = pool.nextId + 1 := by
  unfold Completions.Sys.submit
  dsimp only
  split
  · rfl
  · split <;> rfl

theorem Known.submitted (h : Known s) (signal : Option Nat) {pool : Completions.Sys}
    (hnext : pool.nextId = s.pool.nextId + 1) : Known (s.submitted signal pool) := by
  intro id hid
  rw [pool_submitted, hnext]
  -- a new listener or call is for the task just submitted
  have hcases : id = s.pool.nextId ∨ id ∈ s.calls ∨ id ∈ s.listeners.map Prod.snd := by
    unfold Sys.submitted at hid
    dsimp only at hid
    split at hid
    · cases signal with
      | none => exact .inr hid
      | some signal =>
        dsimp only at hid
        split at hid
        · rcases hid with hcall | hlistener
          · rcases List.mem_append.mp hcall with hcall | hnew
            · exact .inr (.inl hcall)
            · exact .inl (List.mem_singleton.mp hnew)
          · exact .inr (.inr hlistener)
        · rcases hid with hcall | hlistener
          · exact .inr (.inl hcall)
          · rw [List.map_append, List.map_singleton] at hlistener
            rcases List.mem_append.mp hlistener with hlistener | hnew
            · exact .inr (.inr hlistener)
            · exact .inl (List.mem_singleton.mp hnew)
    · exact .inr hid
  rcases hcases with rfl | hold
  · exact Nat.lt_succ_self _
  · exact Nat.lt_succ_of_lt (h id hold)

theorem Known.abort (h : Known s) (signal : Nat) : Known (s.abort signal) := by
  unfold Sys.abort
  split
  · exact h
  · rintro id (hcall | hlistener)
    · rcases List.mem_append.mp hcall with hcall | hfired
      · exact h id (.inl hcall)
      · exact h id (.inr (List.map_subset _ (List.filter_subset_self _) hfired))
    · exact h id (.inr (List.map_subset _ (List.filter_subset_self _) hlistener))

theorem Known.step (h : Known s) (hstep : s.step a = some s') : Known s' := by
  have hnative : ∀ b : Completions.Action, (∀ id, b ≠ .cancel id) → s.native b = some s' → Known s' := by
    intro b hb hs
    obtain ⟨pool, hpool, rfl⟩ := native_eq_some hs
    exact fun id hid => Nat.lt_of_lt_of_le (h id hid) (step_marks hb hpool).next
  cases a with
  | submit access signal =>
    obtain ⟨pool, hpool, rfl⟩ := Option.map_eq_some_iff.mp hstep
    obtain ⟨-, rfl⟩ := guard_eq_some hpool
    exact h.submitted signal (nextId_submit s.pool access)
  | abort signal =>
    rw [← Option.some.inj hstep]
    exact h.abort signal
  | taskCancel id =>
    obtain ⟨-, rfl⟩ := guard_eq_some hstep
    exact fun id' hid' => h id' (hid'.imp_left List.mem_of_mem_erase)
  | drain out => exact hnative (.drain out) nofun hstep
  | pop w => exact hnative (.pop w) nofun hstep
  | start w => exact hnative (.start w) nofun hstep
  | finish w outcome => exact hnative (.finish w outcome) nofun hstep
  | push w => exact hnative (.push w) nofun hstep

/-! ## Runs -/

/-- What the cancelled set is to be along the moves `as`: in every state the ids in it are of tasks
that were accepted and have not published, so that it is empty once all have; and a call of
`mark_cancelled` for an id that is unknown or has published is answered `false`. -/
def Lawful (threads queueMax : Nat) (as : List Action) : Prop :=
  (∀ bs t, bs <+: as → exec Sys.step (.init threads queueMax) bs = some t →
    (∀ id ∈ t.pool.cancelled, id ∈ t.pool.accepted ∧ ¬ t.pool.published id) ∧
      (t.pool.completed → t.pool.cancelled = [])) ∧
  ∀ bs id t, bs ++ [.taskCancel id] <+: as → exec Sys.step (.init threads queueMax) bs = some t →
    id ∉ t.pool.accepted ∨ t.pool.published id → (markCancelled id t.pool).1 = false

/-- Every call of `mark_cancelled` among the moves `as` finds its task queued, or with a worker that
has not removed the id from the set yet. -/
def InTime (threads queueMax : Nat) (as : List Action) : Prop :=
  ∀ bs id t, bs ++ [.taskCancel id] <+: as → exec Sys.step (.init threads queueMax) bs = some t →
    t.pool.uncleared id

/-- The same of one move. -/
def MarksInTime (s : Sys) : Action → Prop
  | .taskCancel id => s.pool.uncleared id
  | _ => True

/-- **In a run whose marks come in time** the set is in order. -/
theorem inv_of_run {threads : Nat} (hrun : Run Sys.step MarksInTime (.init threads queueMax) s) :
    Inv queueMax s.pool := by
  refine hrun.invariant (P := fun s => Inv queueMax s.pool) (.init threads queueMax) ?_
  intro t a u hinv hcond hstep
  rcases step_pool hstep with ⟨b, hcancel, hpool⟩ | hsame | ⟨id, -, rfl, hmark⟩
  · exact hinv.native hcancel hpool
  · exact hsame ▸ hinv
  · exact hmark ▸ hinv.mark hcond

theorem InTime.inv {threads : Nat} {as bs : List Action} (h : InTime threads queueMax as) (hbs : bs <+: as)
    (hexec : exec Sys.step (.init threads queueMax) bs = some s) : Inv queueMax s.pool := by
  refine inv_of_run (Run.of_prefixes hexec fun cs a t hcs hexec => ?_)
  cases a with
  | taskCancel id => exact h cs id t (hcs.trans hbs) hexec
  | submit _ _ | abort _ | drain _ | pop _ | start _ | finish _ _ | push _ => trivial

/-- A mark that comes late is in the set at the end of the run. -/
theorem mem_cancelled_of_late {threads : Nat} {as bs : List Action} {id : Nat} {t : Sys}
    (hbs : bs ++ [.taskCancel id] <+: as) (ht : exec Sys.step (.init threads queueMax) bs = some t)
    (hlate : ¬ t.pool.uncleared id) (hs : exec Sys.step (.init threads queueMax) as = some s) :
    id ∈ s.pool.cancelled := by
  obtain ⟨cs, rfl⟩ := hbs
  rw [exec_append] at hs
  obtain ⟨u, hu, hs⟩ := Option.bind_eq_some_iff.mp hs
  obtain ⟨t', ht', hstep⟩ := exec_concat hu
  obtain rfl := Option.some.inj (ht.symm.trans ht')
  have hknown : Known t := by
    refine (Run.of_exec bs ht).invariant (P := Known) ?_ fun _ _ _ h _ hstep => h.step hstep
    rintro id (hid | hid) <;> exact absurd hid List.not_mem_nil
  obtain ⟨hid, hmark⟩ := guard_eq_some hstep
  -- the call puts the id into the set, and no worker will take it out
  have hleaked : Leaked id u.pool := by
    rw [← hmark]
    exact ⟨List.mem_insert_self, hlate, hknown id (.inl hid)⟩
  have hend : Leaked id s.pool :=
    (Run.of_exec cs hs).invariant (P := fun s => Leaked id s.pool) hleaked fun _ _ _ h _ hstep => h.step hstep
  exact hend.marked

/-- **The cancelled set does not leak exactly while every mark comes in time.** A run whose marks all
find their task uncleared keeps the set as documented, in every state; and a run at whose end all
tasks have published has kept it so only if they did. -/
theorem cancelled_lawful_iff (threads queueMax : Nat) (as : List Action) :
    (InTime threads queueMax as → Lawful threads queueMax as) ∧
    ∀ s, exec Sys.step (.init threads queueMax) as = some s → s.pool.completed →
      (Lawful threads queueMax as ↔ InTime threads queueMax as) := by
  have hlawful : InTime threads queueMax as → Lawful threads queueMax as := by
    intro h
    refine ⟨fun bs t hbs ht => (h.inv hbs ht).sound, fun bs id t hbs ht hgone => ?_⟩
    -- no call is for such an id
    have hinv := h.inv ((List.prefix_append bs _).trans hbs) ht
    have hlive := uncleared_live hinv.base (h bs id t hbs ht)
    rcases hgone with hunknown | hpublished
    · exact absurd hlive.1 hunknown
    · exact absurd hpublished hlive.2
  refine ⟨hlawful, fun s hs hall => ⟨fun h bs id t hbs ht => ?_, hlawful⟩⟩
  by_contra hlate
  have hmem := mem_cancelled_of_late hbs ht hlate hs
  rw [(h.1 as s List.prefix_rfl hs).2 hall] at hmem
  exact List.not_mem_nil hmem

/-- A task that is cancelled while it is queued, and publishes. -/
def cancelledMoves : List Action :=
  [.submit .copy (some 5), .abort 5, .taskCancel 1, .pop 0, .start 0, .finish 0 (.ok []), .push 0]

/-- Its mark comes in time, and is gone in the end. -/
theorem cancelled_lawful_queued :
    Lawful 2 16 cancelledMoves ∧
      ∃ s, exec Sys.step (.init 2 16) cancelledMoves = some s ∧ s.pool.completed ∧ s.pool.cancelled = [] := by
  have htime : InTime 2 16 cancelledMoves := by
    intro bs id t hbs ht
    rcases bs with _ | ⟨a, _ | ⟨b, bs⟩⟩
    · exact absurd hbs (by simp [cancelledMoves])
    · exact absurd hbs (by simp [cancelledMoves])
    · simp only [cancelledMoves, List.cons_append, List.cons_prefix_cons] at hbs
      obtain ⟨rfl, rfl, hbs⟩ := hbs
      cases bs with
      | nil =>
        obtain ⟨heq, -⟩ := List.cons_prefix_cons.mp hbs
        obtain rfl := Action.taskCancel.inj heq
        rw [← Option.some.inj ht]
        exact .inl (List.mem_singleton_self 1)
      | cons c bs =>
        -- there is no other call
        obtain ⟨-, hbs⟩ := List.cons_prefix_cons.mp hbs
        exact absurd (hbs.subset (List.mem_append_right bs (List.mem_singleton_self _))) (by simp)
  have hlawful := (cancelled_lawful_iff 2 16 cancelledMoves).1 htime
  exact ⟨hlawful, _, rfl, by decide, rfl⟩

/-- A task that publishes before its signal is aborted. -/
def lateMoves : List Action :=
  [.submit .copy (some 5), .pop 0, .start 0, .finish 0 (.ok []), .push 0, .abort 5]

/-- The listener marks the published task, is answered `true`, and leaves the id in the set although
all tasks have published. -/
theorem cancelled_late :
    ∃ s t, exec Sys.step (.init 2 16) lateMoves = some s ∧ s.pool.published 1 ∧
      (markCancelled 1 s.pool).1 = true ∧
      exec Sys.step (.init 2 16) (lateMoves ++ [.taskCancel 1]) = some t ∧ t.pool.completed ∧
      t.pool.cancelled = [1] ∧ ¬ Lawful 2 16 (lateMoves ++ [.taskCancel 1]) := by
  refine ⟨_, _, rfl, by decide, rfl, rfl, by decide, rfl, fun h => ?_⟩
  exact absurd (h.2 lateMoves 1 _ List.prefix_rfl rfl (.inr (by decide))) (by decide)

end Cancelled

end Castrum
