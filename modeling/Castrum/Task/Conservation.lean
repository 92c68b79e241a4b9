import Castrum.Task.Completion
import Mathlib.Algebra.BigOperators.Group.Finset.Basic

/-!
# Castrum — no task is lost or finished twice (`rust/task/runtime.rs`, `ops.rs`, `completion.rs`)

Submissions, workers, cancellations and drains in any order, while the pool runs. A worker takes a
batch under the queue's lock, runs it job by job, and publishes each completion; whether a job was
cancelled is looked up when it starts, and a panic is turned into a completion by the guard around it.

* `Sys.step` — every move of JavaScript and of the workers;
* `copies` — how often a task id occurs, over all the places it can be in;
* `completions_exactly_once` — an accepted task is in one place, and what is drained is parsed back.
-/

namespace Castrum.Completions

open Castrum.Task (Job Access Status batchPop)

/-- What the body of a job comes to, were it not cancelled. -/
inductive Outcome where
  | ok (output : Bytes)
  | error (message : Bytes)
  | tooSmall (needed : Nat)
  | unsupported
  | panic
  deriving DecidableEq

/-- What a worker is at: between jobs, inside the first job of its batch, which it may have found
cancelled, or about to publish a completion. -/
inductive Stage where
  | idle
  | running (cancelled : Bool)
  | publishing (c : Completion)

structure Worker where
  batch : List Job
  stage : Stage

/-- `execute_guarded`, `execute_slice_guarded` and `execute_into_guarded`: the completion of a job. The
body of a zero-copy job is the length that was written, or that is needed. -/
def completionOf (job : Job) (cancelled : Bool) (outcome : Outcome) : Completion :=
  if cancelled then ⟨job.id, .cancelled, []⟩
  else
    match outcome with
    | .ok output =>
      match job.access with
      | .into _ _ => ⟨job.id, .ok, le64 output.length⟩
      | .copy | .slice _ => ⟨job.id, .ok, output⟩
    | .error message => ⟨job.id, .error, message⟩
    | .tooSmall n => ⟨job.id, .tooSmall, le64 n⟩
    | .unsupported => ⟨job.id, .unsupported, []⟩
    | .panic => ⟨job.id, .error, utf8 "task panicked (contained)"⟩

/-- The pool, the ring, and what JavaScript knows: the ids it was told are accepted or rejected, and
what it has parsed out of drains. -/
structure Sys where
  nextId : Nat
  queue : List Job
  queueMax : Nat
  threads : Nat
  worker : Nat → Worker
  cancelled : List Nat
  ring : List Completion
  accepted : List Nat
  rejected : List Nat
  drained : List Drained

/-- Behind `init`: the pool runs. -/
def Sys.init (threads queueMax : Nat) : Sys where
  nextId := 1
  queue := []
  queueMax := queueMax
  threads := threads
  worker := fun _ => ⟨[], .idle⟩
  cancelled := []
  ring := []
  accepted := []
  rejected := []
  drained := []

/-! ## The moves -/

def Sys.setWorker (s : Sys) (w : Nat) (wk : Worker) : Sys :=
  { s with worker := Function.update s.worker w wk }

/-- How many jobs one lock section takes: a whole batch only while plenty of work is left. -/
def Sys.popCount (s : Sys) : Nat := if s.threads ≤ s.queue.length - 1 then batchPop else 1

/-- `castrum_task_submit*`, under the next id. An id is a JavaScript integer. -/
def Sys.submit (s : Sys) (access : Access) : Sys :=
  let s' := { s with nextId := s.nextId + 1 }
  if access.invalid then { s' with rejected := s.nextId :: s.rejected }
  else if s.queueMax ≤ s.queue.length then { s' with rejected := s.nextId :: s.rejected }
  else { s' with queue := s.queue ++ [⟨s.nextId, access⟩], accepted := s.nextId :: s.accepted }

/-- `mark_cancelled`. -/
def Sys.cancel (s : Sys) (id : Nat) : Sys := { s with cancelled := s.cancelled.insert id }

/-- `castrum_task_drain` into a buffer, and the parsing of what it wrote. -/
def Sys.drain (s : Sys) (out : Option Bytes) : Sys :=
  let r := castrumTaskDrain s.ring out
  { s with ring := r.2.2, drained := s.drained ++ (parseDrained r.1 r.2.1).getD [] }

inductive Action where
  | submit (access : Access)
  | cancel (id : Nat)
  | drain (out : Option Bytes)
  | pop (w : Nat)
  | start (w : Nat)
  | finish (w : Nat) (outcome : Outcome)
  | push (w : Nat)

/-- One move: a call of JavaScript, or a step of one of the workers. -/
def Sys.step (s : Sys) : Action → Option Sys
  | .submit access => if s.nextId < 2 ^ 53 then some (s.submit access) else none
  | .cancel id => some (s.cancel id)
  | .drain out =>
    if (out.getD []).length ≤ maxBuffer then some (s.drain out) else none
  | .pop w =>
    match s.worker w with
    | ⟨[], .idle⟩ =>
      if w < s.threads then
        some { s.setWorker w ⟨s.queue.take s.popCount, .idle⟩ with queue := s.queue.drop s.popCount }
      else none
    | _ => none
  | .start w =>
    match s.worker w with
    | ⟨job :: rest, .idle⟩ =>
      if w < s.threads then
        some (s.setWorker w ⟨job :: rest, .running (s.cancelled.contains job.id)⟩)
      else none
    | _ => none
  | .finish w outcome =>
    match s.worker w with
    | ⟨job :: rest, .running cancelled⟩ =>
      if w < s.threads then
        some { s.setWorker w ⟨rest, .publishing (completionOf job cancelled outcome)⟩ with
          cancelled := s.cancelled.erase job.id }
      else none
    | _ => none
  | .push w =>
    match s.worker w with
    | ⟨batch, .publishing c⟩ =>
      if w < s.threads then some { s.setWorker w ⟨batch, .idle⟩ with ring := s.ring ++ [c] } else none
    | _ => none

/-! ## Where an id is -/

/-- The ids that a worker holds. -/
def Worker.ids (wk : Worker) : List Nat :=
  match wk.stage with
  | .publishing c => c.id :: wk.batch.map Job.id
  | .idle | .running _ => wk.batch.map Job.id

/-- How often `id` is with the workers. -/
def Sys.held (s : Sys) (id : Nat) : Nat :=
  ∑ w ∈ Finset.range s.threads, (s.worker w).ids.count id

/-- How often `id` occurs, over the queue, the workers, the ring and what was drained. -/
def Sys.copies (s : Sys) (id : Nat) : Nat :=
  (s.queue.map Job.id).count id + s.held id + (s.ring.map Completion.id).count id +
    (s.drained.map Drained.id).count id

/-- Where a task can be. -/
inductive Place where
  | queue
  | batch (w : Nat)
  | ring
  | drained
  deriving DecidableEq

/-- The ids at a place. -/
def Sys.idsAt (s : Sys) : Place → List Nat
  | .queue => s.queue.map Job.id
  | .batch w => if w < s.threads then (s.worker w).ids else []
  | .ring => s.ring.map Completion.id
  | .drained => s.drained.map Drained.id

/-! ## One move -/

section

variable {s : Sys} {w : Nat}

/-- A worker gives up the ids it had, and gets those of `wk`. -/
theorem held_setWorker (hw : w < s.threads) (wk : Worker) (id : Nat) :
    (s.setWorker w wk).held id + (s.worker w).ids.count id = s.held id + wk.ids.count id := by
  have hmem : w ∈ Finset.range s.threads := Finset.mem_range.mpr hw
  have hold := Finset.add_sum_erase (Finset.range s.threads) (fun w => (s.worker w).ids.count id) hmem
  have hnew := Finset.add_sum_erase (Finset.range s.threads)
    (fun w' => (Function.update s.worker w wk w').ids.count id) hmem
  -- the other workers are as they were
  have hothers : ∑ w' ∈ (Finset.range s.threads).erase w,
      (Function.update s.worker w wk w').ids.count id =
        ∑ w' ∈ (Finset.range s.threads).erase w, (s.worker w').ids.count id := by
    apply Finset.sum_congr rfl
    intro w' hw'
    rw [Function.update_of_ne (Finset.ne_of_mem_erase hw')]
  rw [hothers, Function.update_self] at hnew
  show ∑ w' ∈ Finset.range s.threads, (Function.update s.worker w wk w').ids.count id + _ =
    ∑ w ∈ Finset.range s.threads, (s.worker w).ids.count id + _
  omega

theorem id_completionOf (job : Job) (cancelled : Bool) (outcome : Outcome) :
    (completionOf job cancelled outcome).id = job.id := by
  unfold completionOf
  cases cancelled with
  | true => rfl
  | false =>
    cases outcome with
    | ok output => cases job.access <;> rfl
    | error message => rfl
    | tooSmall n => rfl
    | unsupported => rfl
    | panic => rfl

/-- A batch moves from the queue to a worker. -/
theorem copies_pop (hw : w < s.threads) (hidle : s.worker w = ⟨[], .idle⟩) (n id : Nat) :
    Sys.copies { s.setWorker w ⟨s.queue.take n, .idle⟩ with queue := s.queue.drop n } id =
      s.copies id := by
  have hheld := held_setWorker hw ⟨s.queue.take n, .idle⟩ id
  rw [hidle] at hheld
  change (s.setWorker w _).held id + 0 = s.held id + ((s.queue.take n).map Job.id).count id at hheld
  have hqueue : ((s.queue.take n).map Job.id).count id + ((s.queue.drop n).map Job.id).count id =
      (s.queue.map Job.id).count id := by
    rw [← List.count_append, ← List.map_append, List.take_append_drop]
  show ((s.queue.drop n).map Job.id).count id + (s.setWorker w _).held id +
    (s.ring.map Completion.id).count id + (s.drained.map Drained.id).count id = s.copies id
  unfold Sys.copies
  omega

/-- Starting a job leaves its id with the worker. -/
theorem copies_start (hw : w < s.threads) {batch : List Job} (hidle : s.worker w = ⟨batch, .idle⟩)
    (cancelled : Bool) (id : Nat) :
    (s.setWorker w ⟨batch, .running cancelled⟩).copies id = s.copies id := by
  have hheld := held_setWorker hw ⟨batch, .running cancelled⟩ id
  rw [hidle] at hheld
  change _ + (batch.map Job.id).count id = _ + (batch.map Job.id).count id at hheld
  show (s.queue.map Job.id).count id + (s.setWorker w _).held id +
    (s.ring.map Completion.id).count id + (s.drained.map Drained.id).count id = s.copies id
  unfold Sys.copies
  have heq := Nat.add_right_cancel hheld
  rw [heq]

/-- Whatever the job comes to, its completion has its id. -/
theorem copies_finish (hw : w < s.threads) {job : Job} {rest : List Job} {cancelled : Bool}
    (hrun : s.worker w = ⟨job :: rest, .running cancelled⟩) (outcome : Outcome) (marks : List Nat)
    (id : Nat) :
    Sys.copies { s.setWorker w ⟨rest, .publishing (completionOf job cancelled outcome)⟩ with
      cancelled := marks } id = s.copies id := by
  have hheld := held_setWorker hw ⟨rest, .publishing (completionOf job cancelled outcome)⟩ id
  rw [hrun] at hheld
  change _ + (job.id :: rest.map Job.id).count id =
    _ + ((completionOf job cancelled outcome).id :: rest.map Job.id).count id at hheld
  rw [id_completionOf] at hheld
  show (s.queue.map Job.id).count id + (s.setWorker w _).held id +
    (s.ring.map Completion.id).count id + (s.drained.map Drained.id).count id = s.copies id
  unfold Sys.copies
  have heq := Nat.add_right_cancel hheld
  rw [heq]

/-- Publishing a completion moves its id to the ring. -/
theorem copies_push (hw : w < s.threads) {batch : List Job} {c : Completion}
    (hdone : s.worker w = ⟨batch, .publishing c⟩) (id : Nat) :
    Sys.copies { s.setWorker w ⟨batch, .idle⟩ with ring := s.ring ++ [c] } id = s.copies id := by
  have hheld := held_setWorker hw ⟨batch, .idle⟩ id
  rw [hdone] at hheld
  change _ + (c.id :: batch.map Job.id).count id = _ + (batch.map Job.id).count id at hheld
  have hcons : (c.id :: batch.map Job.id).count id =
      (batch.map Job.id).count id + [c.id].count id := by
    rw [← List.singleton_append, List.count_append, Nat.add_comm]
  show (s.queue.map Job.id).count id + (s.setWorker w _).held id +
    ((s.ring ++ [c]).map Completion.id).count id + (s.drained.map Drained.id).count id = s.copies id
  rw [List.map_append, List.count_append, List.map_singleton]
  unfold Sys.copies
  omega

theorem drain_of_parse {out : Option Bytes} {ring : List Completion} {parsed : List Drained}
    (hring : (castrumTaskDrain s.ring out).2.2 = ring)
    (hparse : parseDrained (castrumTaskDrain s.ring out).1 (castrumTaskDrain s.ring out).2.1 =
      some parsed) :
    s.drain out = { s with ring := ring, drained := s.drained ++ parsed } := by
  unfold Sys.drain
  dsimp only
  rw [hring, hparse]
  rfl

/-- A drain into a buffer that is too small takes nothing, and any other takes the whole ring. -/
theorem drain_cases (hids : ∀ c ∈ s.ring, c.id < 2 ^ 64) {out : Option Bytes}
    (hout : (out.getD []).length ≤ maxBuffer) :
    s.drain out = s ∨
      s.drain out = { s with ring := [], drained := s.drained ++ s.ring.map Completion.drained } := by
  -- Without the entries of a drain TypeScript completes nothing, and Rust keeps the ring.
  have hkept : (castrumTaskDrain s.ring out).2.2 = s.ring →
      parseDrained (castrumTaskDrain s.ring out).1 (castrumTaskDrain s.ring out).2.1 = some [] →
      s.drain out = s := by
    intro hring hparse
    rw [drain_of_parse hring hparse, List.append_nil]
  cases out with
  | none => exact .inl (hkept rfl rfl)
  | some out =>
    change out.length ≤ maxBuffer at hout
    have hdrain : castrumTaskDrain s.ring (some out) = drain s.ring out := rfl
    by_cases hnil : s.ring = []
    · have hempty := (drain_eq s.ring out).1 hnil
      left
      apply hkept
      · rw [hdrain, hempty, hnil]
      · rw [hdrain, hempty]
        rfl
    rcases Nat.lt_or_ge out.length (needed s.ring) with hsmall | hroom
    · have hfull := (drain_eq s.ring out).2.1 hnil hsmall
      left
      apply hkept
      · rw [hdrain, hfull]
      · rw [hdrain, hfull]
        unfold parseDrained
        rw [if_pos (.inr hsmall)]
    · exact .inr (drain_of_parse ((drain_eq s.ring out).2.2 hnil hroom).2.1
        (parseDrained_drain hids hout hroom))

theorem copies_drain (hids : ∀ c ∈ s.ring, c.id < 2 ^ 64) {out : Option Bytes}
    (hout : (out.getD []).length ≤ maxBuffer) (id : Nat) : (s.drain out).copies id = s.copies id := by
  rcases drain_cases hids hout with h | h
  · rw [h]
  · have hsame : (s.ring.map Completion.drained).map Drained.id = s.ring.map Completion.id := by
      rw [List.map_map]
      rfl
    rw [h]
    show (s.queue.map Job.id).count id + s.held id + 0 +
      ((s.drained ++ s.ring.map Completion.drained).map Drained.id).count id = s.copies id
    rw [List.map_append, List.count_append, hsame]
    unfold Sys.copies
    omega

/-! ## Every run -/

/-- **An accepted id occurs once, and no other occurs at all.** -/
structure Inv (queueMax : Nat) (s : Sys) : Prop where
  copies : ∀ id, s.copies id = if id ∈ s.accepted then 1 else 0
  fresh : ∀ id, id ∈ s.accepted ∨ id ∈ s.rejected → id < s.nextId
  apart : ∀ id ∈ s.rejected, id ∉ s.accepted
  max : s.queueMax = queueMax
  bound : s.queue.length ≤ queueMax
  next : s.nextId ≤ 2 ^ 53

theorem count_idsAt_le (s : Sys) (place : Place) (id : Nat) :
    (s.idsAt place).count id ≤ s.copies id := by
  unfold Sys.copies
  cases place with
  | queue =>
    show (s.queue.map Job.id).count id ≤ _
    omega
  | batch w =>
    show (if w < s.threads then (s.worker w).ids else []).count id ≤ _
    split
    · next hw =>
      have hle : (s.worker w).ids.count id ≤ s.held id :=
        Finset.single_le_sum (f := fun w => (s.worker w).ids.count id) (fun _ _ => Nat.zero_le _)
          (Finset.mem_range.mpr hw)
      omega
    · exact Nat.zero_le _
  | ring =>
    show (s.ring.map Completion.id).count id ≤ _
    omega
  | drained =>
    show (s.drained.map Drained.id).count id ≤ _
    omega

namespace Inv

variable {queueMax : Nat}

/-- What is at a place was accepted. -/
theorem accepted_of_mem (h : Inv queueMax s) {place : Place} {id : Nat} (hmem : id ∈ s.idsAt place) :
    id ∈ s.accepted := by
  have hpos := List.count_pos_iff.mpr hmem
  have hle := count_idsAt_le s place id
  rw [h.copies] at hle
  by_contra hnot
  rw [if_neg hnot] at hle
  omega

theorem ring_lt (h : Inv queueMax s) : ∀ c ∈ s.ring, c.id < 2 ^ 64 := by
  intro c hc
  have hmem : c.id ∈ s.idsAt .ring := List.mem_map_of_mem hc
  have hlt := h.fresh c.id (.inl (h.accepted_of_mem hmem))
  have hnext := h.next
  omega

theorem init (threads queueMax : Nat) : Inv queueMax (.init threads queueMax) where
  copies := by
    intro id
    have hheld : (Sys.init threads queueMax).held id = 0 := Finset.sum_eq_zero fun _ _ => rfl
    show 0 + (Sys.init threads queueMax).held id + 0 + 0 = if id ∈ [] then 1 else 0
    rw [hheld, if_neg List.not_mem_nil]
  fresh := fun id hid => hid.elim (fun h => absurd h List.not_mem_nil) fun h => absurd h List.not_mem_nil
  apart := fun id hid => absurd hid List.not_mem_nil
  max := rfl
  bound := Nat.zero_le _
  next := (by decide : 1 ≤ 2 ^ 53)

/-- A move that neither hands out an id nor fills the queue. -/
theorem of_copies (h : Inv queueMax s) {s' : Sys} (hcopies : ∀ id, s'.copies id = s.copies id)
    (haccepted : s'.accepted = s.accepted) (hrejected : s'.rejected = s.rejected)
    (hnext : s'.nextId = s.nextId) (hqueue : s'.queue.length ≤ s.queue.length)
    (hmax : s'.queueMax = s.queueMax) : Inv queueMax s' where
  copies := fun id => by rw [hcopies, haccepted, h.copies]
  fresh := fun id => by
    rw [haccepted, hrejected, hnext]
    exact h.fresh id
  apart := fun id => by
    rw [haccepted, hrejected]
    exact h.apart id
  max := hmax.trans h.max
  bound := Nat.le_trans hqueue h.bound
  next := by
    rw [hnext]
    exact h.next

/-- **A submission**: the next id goes into the queue, or to the rejected. -/
theorem submit (h : Inv queueMax s) (hnext : s.nextId < 2 ^ 53) (access : Access) :
    Inv queueMax (s.submit access) := by
  have hnew : s.nextId ∉ s.accepted ∧ s.nextId ∉ s.rejected :=
    ⟨fun hmem => absurd (h.fresh _ (.inl hmem)) (Nat.lt_irrefl _),
      fun hmem => absurd (h.fresh _ (.inr hmem)) (Nat.lt_irrefl _)⟩
  have hfresh : ∀ id, id = s.nextId ∨ id ∈ s.accepted ∨ id ∈ s.rejected → id < s.nextId + 1 := by
    rintro id (rfl | hid)
    · exact Nat.lt_succ_self _
    · exact Nat.lt_succ_of_lt (h.fresh id hid)
  have hrejects : Inv queueMax { s with nextId := s.nextId + 1, rejected := s.nextId :: s.rejected } := by
    refine ⟨h.copies, ?_, ?_, h.max, h.bound, hnext⟩
    · intro id hid
      apply hfresh
      rcases hid with hid | hid
      · exact .inr (.inl hid)
      · exact (List.mem_cons.mp hid).imp_right .inr
    · intro id hid
      rcases List.mem_cons.mp hid with heq | hid
      · rw [heq]
        exact hnew.1
      · exact h.apart id hid
  unfold Sys.submit
  dsimp only
  split
  · exact hrejects
  split
  · exact hrejects
  · next hroom =>
    refine ⟨?_, ?_, ?_, h.max, ?_, hnext⟩
    · intro id
      show ((s.queue ++ [(⟨s.nextId, access⟩ : Job)]).map Job.id).count id + s.held id +
        (s.ring.map Completion.id).count id + (s.drained.map Drained.id).count id =
          if id ∈ s.nextId :: s.accepted then 1 else 0
      have hold := h.copies id
      unfold Sys.copies at hold
      rw [List.map_append, List.map_singleton, List.count_append, List.count_singleton]
      -- the new id had no copy, and has one now
      by_cases heq : id = s.nextId
      · rw [heq] at hold ⊢
        rw [if_neg hnew.1] at hold
        rw [if_pos List.mem_cons_self]
        simp only [beq_self_eq_true, if_true]
        omega
      · have hmem : (id ∈ s.nextId :: s.accepted) = (id ∈ s.accepted) :=
          propext ⟨fun hid => (List.mem_cons.mp hid).resolve_left heq, List.mem_cons_of_mem _⟩
        have hbeq : (s.nextId == id) = false := beq_false_of_ne fun h => heq h.symm
        simp only [hmem, hbeq, Bool.false_eq_true, if_false]
        omega
    · intro id hid
      apply hfresh
      rcases hid with hid | hid
      · exact (List.mem_cons.mp hid).imp_right .inl
      · exact .inr (.inr hid)
    · intro id hid hmem
      rcases List.mem_cons.mp hmem with heq | hmem
      · rw [heq] at hid
        exact hnew.2 hid
      · exact h.apart id hid hmem
    · have hmax := h.max
      show (s.queue ++ [(⟨s.nextId, access⟩ : Job)]).length ≤ queueMax
      rw [List.length_append, List.length_singleton]
      omega

/-- **Every move keeps the invariant.** -/
theorem step (h : Inv queueMax s) {a : Action} {s' : Sys} (hstep : s.step a = some s') : Inv queueMax s' := by
  -- a submission puts one copy into the queue; every other move only carries copies on
  cases a with
  | submit access =>
    rw [Sys.step] at hstep
    split at hstep
    · next hnext =>
      injection hstep with hstep
      rw [← hstep]
      exact h.submit hnext access
    · cases hstep
  | cancel id =>
    injection hstep with hstep
    rw [← hstep]
    exact h.of_copies (fun _ => rfl) rfl rfl rfl (Nat.le_refl _) rfl
  | drain out =>
    rw [Sys.step] at hstep
    split at hstep
    · next hout =>
      injection hstep with hstep
      rw [← hstep]
      exact h.of_copies (copies_drain h.ring_lt hout) rfl rfl rfl (Nat.le_refl _) rfl
    · cases hstep
  | pop w =>
    simp only [Sys.step] at hstep
    split at hstep
    · next hidle =>
      split at hstep
      · next hw =>
        injection hstep with hstep
        rw [← hstep]
        refine h.of_copies (copies_pop hw hidle s.popCount) rfl rfl rfl ?_ rfl
        show (s.queue.drop s.popCount).length ≤ s.queue.length
        rw [List.length_drop]
        omega
      · cases hstep
    · cases hstep
  | start w =>
    simp only [Sys.step] at hstep
    split at hstep
    · next job rest hidle =>
      split at hstep
      · next hw =>
        injection hstep with hstep
        rw [← hstep]
        exact h.of_copies (copies_start hw hidle _) rfl rfl rfl (Nat.le_refl _) rfl
      · cases hstep
    · cases hstep
  | finish w outcome =>
    simp only [Sys.step] at hstep
    split at hstep
    · next job rest cancelled hrun =>
      split at hstep
      · next hw =>
        injection hstep with hstep
        rw [← hstep]
        exact h.of_copies (copies_finish hw hrun outcome _) rfl rfl rfl (Nat.le_refl _) rfl
      · cases hstep
    · cases hstep
  | push w =>
    simp only [Sys.step] at hstep
    split at hstep
    · next batch c hdone =>
      split at hstep
      · next hw =>
        injection hstep with hstep
        rw [← hstep]
        exact h.of_copies (copies_push hw hdone) rfl rfl rfl (Nat.le_refl _) rfl
      · cases hstep
    · cases hstep

end Inv

/-- Two places share no id that occurs once. -/
theorem place_unique {id : Nat} (h : s.copies id = 1) {place place' : Place}
    (hmem : id ∈ s.idsAt place) (hmem' : id ∈ s.idsAt place') : place = place' := by
  have hpos := List.count_pos_iff.mpr hmem
  have hpos' := List.count_pos_iff.mpr hmem'
  -- the ids of a worker are among those that are held, and two workers hold them apart
  have hworker : ∀ w, (s.idsAt (.batch w)).count id ≤ s.held id := by
    intro w
    show (if w < s.threads then (s.worker w).ids else []).count id ≤ s.held id
    split
    · next hw =>
      exact Finset.single_le_sum (f := fun w => (s.worker w).ids.count id) (fun _ _ => Nat.zero_le _)
        (Finset.mem_range.mpr hw)
    · exact Nat.zero_le _
  have hworkers : ∀ w w', w ≠ w' →
      (s.idsAt (.batch w)).count id + (s.idsAt (.batch w')).count id ≤ s.held id := by
    intro w w' hne
    by_cases hw : w < s.threads
    · by_cases hw' : w' < s.threads
      · have hsub : ({w, w'} : Finset Nat) ⊆ Finset.range s.threads := by
          intro v hv
          rcases Finset.mem_insert.mp hv with rfl | hv
          · exact Finset.mem_range.mpr hw
          · rw [Finset.mem_singleton.mp hv]
            exact Finset.mem_range.mpr hw'
        have hsum := Finset.sum_le_sum_of_subset (f := fun w => (s.worker w).ids.count id) hsub
        rw [Finset.sum_pair hne] at hsum
        show (if w < s.threads then (s.worker w).ids else []).count id +
          (if w' < s.threads then (s.worker w').ids else []).count id ≤ s.held id
        rw [if_pos hw, if_pos hw']
        exact hsum
      · have hnone : s.idsAt (.batch w') = [] := if_neg hw'
        rw [hnone]
        exact hworker w
    · have hnone : s.idsAt (.batch w) = [] := if_neg hw
      have hle := hworker w'
      rw [hnone, List.count_nil]
      omega
  have hsum : (s.idsAt .queue).count id + s.held id + (s.idsAt .ring).count id +
      (s.idsAt .drained).count id = 1 := h
  cases place with
  | queue =>
    cases place' with
    | queue => rfl
    | batch w =>
      have hle := hworker w
      omega
    | ring => omega
    | drained => omega
  | batch w =>
    have hle := hworker w
    cases place' with
    | queue => omega
    | batch w' =>
      by_contra hne
      have hboth := hworkers w w' fun heq => hne (by rw [heq])
      omega
    | ring => omega
    | drained => omega
  | ring =>
    cases place' with
    | queue => omega
    | batch w =>
      have hle := hworker w
      omega
    | ring => rfl
    | drained => omega
  | drained =>
    cases place' with
    | queue => omega
    | batch w =>
      have hle := hworker w
      omega
    | ring => omega
    | drained => rfl

/-- An id that occurs is somewhere. -/
theorem exists_place {id : Nat} (h : s.copies id ≠ 0) : ∃ place, id ∈ s.idsAt place := by
  by_contra hnone
  rw [not_exists] at hnone
  have hzero : ∀ place, (s.idsAt place).count id = 0 := fun place =>
    List.count_eq_zero_of_not_mem (hnone place)
  have hheld : s.held id = 0 := by
    apply Finset.sum_eq_zero
    intro w hw
    have hbatch : s.idsAt (.batch w) = (s.worker w).ids := if_pos (Finset.mem_range.mp hw)
    rw [← hbatch]
    exact hzero (.batch w)
  apply h
  show (s.idsAt .queue).count id + s.held id + (s.idsAt .ring).count id +
    (s.idsAt .drained).count id = 0
  rw [hzero, hheld, hzero, hzero]

end

/-- **Exactly-once completions.** In every run of submissions, workers, cancellations and drains:
an accepted id is in one place, and there once; a rejected one is nowhere, now or later; the queue
keeps its bound; a drain into a buffer that is too small returns the size that is needed, which is
enough, and takes nothing; and what is parsed out of any other is the ring, in push order. -/
theorem completions_exactly_once (threads queueMax : Nat) (s : Sys)
    (hrun : Run Sys.step (fun _ _ => True) (Sys.init threads queueMax) s) :
    (∀ id ∈ s.accepted, ∃ place, (s.idsAt place).count id = 1 ∧
      ∀ place', id ∈ s.idsAt place' → place' = place) ∧
    (∀ id ∈ s.rejected, ∀ place, id ∉ s.idsAt place) ∧
    s.queue.length ≤ queueMax ∧
    (∀ out : Bytes, s.ring ≠ [] → out.length < needed s.ring →
      drain s.ring out = (needed s.ring, out, s.ring)) ∧
    (∀ out : Bytes, out.length ≤ maxBuffer → needed s.ring ≤ out.length →
      parseDrained (drain s.ring out).1 (drain s.ring out).2.1 = some (s.ring.map Completion.drained) ∧
      (drain s.ring out).2.2 = []) := by
  have hinv : Inv queueMax s := hrun.invariant (Inv.init threads queueMax) fun _ _ _ h _ hstep => h.step hstep
  refine ⟨?_, ?_, hinv.bound, ?_, ?_⟩
  · intro id hid
    have hone : s.copies id = 1 := by rw [hinv.copies, if_pos hid]
    obtain ⟨place, hmem⟩ := exists_place (show s.copies id ≠ 0 by omega)
    refine ⟨place, ?_, fun place' hmem' => place_unique hone hmem' hmem⟩
    have hpos := List.count_pos_iff.mpr hmem
    have hle := count_idsAt_le s place id
    omega
  · intro id hid place hmem
    exact hinv.apart id hid (hinv.accepted_of_mem hmem)
  · exact fun out hne hsmall => (drain_eq s.ring out).2.1 hne hsmall
  · intro out hout hroom
    refine ⟨parseDrained_drain hinv.ring_lt hout hroom, ?_⟩
    by_cases hnil : s.ring = []
    · rw [(drain_eq s.ring out).1 hnil]
    · exact ((drain_eq s.ring out).2.2 hnil hroom).2.1

/-- Two submissions, of which the queue takes one, which panics on worker `0`. -/
theorem completions_exactly_once_panic :
    ∃ s : Sys, (∃ place, (s.idsAt place).count 1 = 1 ∧ ∀ place', 1 ∈ s.idsAt place' → place' = place) ∧
      s.ring.map Completion.id = [1] ∧ ∀ place, 2 ∉ s.idsAt place := by
  have hrun : Run Sys.step (fun _ _ => True) (Sys.init 2 1) _ :=
    Run.of_exec [.submit .copy, .submit .copy, .pop 0, .cancel 7, .start 0, .finish 0 .panic, .push 0] rfl
  have hall := completions_exactly_once 2 1 _ hrun
  exact ⟨_, hall.1 1 (by decide), by decide, hall.2.1 2 (by decide)⟩

end Castrum.Completions
