import Castrum.Lib.Runs
import Castrum.Task.Runtime

/-!
# Castrum — the worker pool (`rust/task/runtime.rs`)

`submit`, `init` and `shutdown` may be called by any thread; each load, store, swap and lock section
of theirs and of the workers is a step of its own. A worker exits once it has seen the running flag
down and, after that, the queue empty; a pool that is started again gets new workers, whatever the old
ones are at.

* `Sys.step` — every step of the callers and of the workers;
* `pool_no_stranded_job` — a queued job is reached if jobs are only queued where somebody looks;
* `pool_worker_bound` — there are no more workers than threads if a pool starts where none is left;
* `pool_strands_job` / `pool_doubles` — what happens otherwise.
-/

namespace Castrum.Pool

open Castrum.Task (batchPop)

/-- A worker, by what it does next: lock the queue, run its batch, load the flag, look at the queue
again before it exits, or wait a while. -/
inductive Worker where
  | looping (spin : Nat)
  | running (batch : List Nat)
  | checkRunning (spin : Nat)
  | checkEmpty (spin : Nat)
  | parking
  | parked
  | exited
  deriving DecidableEq

/-- What `start` goes on with. -/
inductive After where
  | submit (job : Nat)
  | init
  deriving DecidableEq

/-- A caller, by what it does next. -/
inductive Caller where
  | idle
  | initChecking (n : Nat)
  | submitChecking (job : Nat)
  | swapping (n : Nat) (after : After)
  | storing (n : Nat) (after : After)
  | spawning (left : Nat) (after : After)
  | enqueuing (job : Nat)
  deriving DecidableEq

structure Sys where
  queue : List Nat
  queueMax : Nat
  running : Bool
  threads : Nat
  defaultThreads : Nat
  workers : List Worker
  caller : Nat → Caller

/-- `TaskPool::new`. -/
def Sys.init (queueMax defaultThreads : Nat) : Sys where
  queue := []
  queueMax := queueMax
  running := false
  threads := 0
  defaultThreads := defaultThreads
  workers := []
  caller := fun _ => .idle

/-- Rounds that a worker spins before it parks. -/
def spinRounds : Nat := 64

/-! ## The steps -/

def Sys.setCaller (s : Sys) (c : Nat) (pc : Caller) : Sys :=
  { s with caller := Function.update s.caller c pc }

def Sys.setWorker (s : Sys) (w : Nat) (wk : Worker) : Sys := { s with workers := s.workers.set w wk }

/-- Behind `start`. -/
def After.next : After → Caller
  | .submit job => .enqueuing job
  | .init => .idle

/-- How many jobs one lock section takes: a whole batch only while plenty of work is left. -/
def Sys.popCount (s : Sys) : Nat := if s.threads ≤ s.queue.length - 1 then batchPop else 1

inductive Action where
  | init (c n : Nat)
  | submit (c job : Nat)
  | check (c : Nat)
  | swap (c : Nat)
  | store (c : Nat)
  | spawn (c : Nat)
  | enqueue (c : Nat)
  | shutdown
  | pop (w : Nat)
  | run (w : Nat)
  | load (w : Nat)
  | look (w : Nat)
  | park (w : Nat)
  | wake (w : Nat)

/-- One atomic step. -/
def Sys.step (s : Sys) : Action → Option Sys
  | .init c n => if s.caller c = .idle then some (s.setCaller c (.initChecking n)) else none
  | .submit c job => if s.caller c = .idle then some (s.setCaller c (.submitChecking job)) else none
  | .check c =>
    match s.caller c with
    | .initChecking n =>
      some (s.setCaller c
        (if s.running then .idle else .swapping (if n = 0 then s.defaultThreads else n) .init))
    | .submitChecking job =>
      some (s.setCaller c
        (if s.running then .enqueuing job else .swapping s.defaultThreads (.submit job)))
    | _ => none
  | .swap c =>
    match s.caller c with
    | .swapping n after =>
      some { s.setCaller c (if s.running then after.next else .storing (max n 1) after) with
        running := true }
    | _ => none
  | .store c =>
    match s.caller c with
    | .storing n after => some { s.setCaller c (.spawning n after) with threads := n }
    | _ => none
  | .spawn c =>
    match s.caller c with
    | .spawning (left + 1) after =>
      some { s.setCaller c (if left = 0 then after.next else .spawning left after) with
        workers := s.workers ++ [.looping 0] }
    | _ => none
  | .enqueue c =>
    match s.caller c with
    | .enqueuing job =>
      some { s.setCaller c .idle with
        queue := if s.queueMax ≤ s.queue.length then s.queue else s.queue ++ [job] }
    | _ => none
  | .shutdown => some { s with running := false }
  | .pop w =>
    match s.workers[w]? with
    | some (.looping spin) =>
      some { s.setWorker w
          (if s.queue = [] then .checkRunning spin else .running (s.queue.take s.popCount)) with
        queue := s.queue.drop s.popCount }
    | _ => none
  | .run w =>
    match s.workers[w]? with
    | some (.running (_ :: rest)) =>
      some (s.setWorker w (if rest = [] then .looping 0 else .running rest))
    | _ => none
  | .load w =>
    match s.workers[w]? with
    | some (.checkRunning spin) =>
      some (s.setWorker w
        (if !s.running then .checkEmpty spin
          else if spin < spinRounds then .looping (spin + 1) else .parking))
    | _ => none
  | .look w =>
    match s.workers[w]? with
    | some (.checkEmpty spin) => some (s.setWorker w (if s.queue = [] then .exited else .looping spin))
    | _ => none
  | .park w =>
    match s.workers[w]? with
    | some .parking => some (s.setWorker w (if s.queue = [] ∧ s.running then .parked else .looping 0))
    | _ => none
  | .wake w =>
    match s.workers[w]? with
    | some .parked => some (s.setWorker w (.looping 0))
    | _ => none

/-! ## What is claimed -/

/-- A submit or a start is midway. -/
def Caller.midway : Caller → Prop
  | .idle | .initChecking _ => False
  | .submitChecking _ | .swapping _ _ | .storing _ _ | .spawning _ _ | .enqueuing _ => True

/-- Some worker has not exited: it looks at the queue again, at the latest before it does. -/
def Sys.Alive (s : Sys) : Prop := ∃ wk ∈ s.workers, wk ≠ .exited

/-- **No job is stranded.** -/
def NoStrandedJob (s : Sys) : Prop :=
  s.queue ≠ [] → (∀ c, ¬ (s.caller c).midway) → s.Alive

/-- How many workers have not exited. -/
def Sys.live (s : Sys) : Nat := s.workers.countP (· ≠ .exited)

/-- **There are no more workers than threads.** -/
def WorkerBound (s : Sys) : Prop := s.live ≤ s.threads

/-! ## Lists of workers -/

section

variable {α : Type} {l : List α} {w : Nat} {old new : α} {p : α → Prop}

/-- What some entry has, some entry still has when one is replaced by another that has it too. -/
theorem exists_mem_set (h : ∃ x ∈ l, p x) (hw : l[w]? = some old) (hnew : p old → p new) :
    ∃ x ∈ l.set w new, p x := by
  obtain ⟨x, hx, hpx⟩ := h
  obtain ⟨i, hi⟩ := List.mem_iff_getElem?.mp hx
  by_cases hiw : w = i
  · have hold : old = x := by
      rw [hiw, hi] at hw
      exact (Option.some.inj hw).symm
    have hlt : w < l.length := (List.getElem?_eq_some_iff.mp hw).1
    refine ⟨new, ?_, hnew (hold ▸ hpx)⟩
    rw [List.mem_iff_getElem?]
    exact ⟨w, List.getElem?_set_self hlt⟩
  · refine ⟨x, ?_, hpx⟩
    rw [List.mem_iff_getElem?]
    exact ⟨i, (List.getElem?_set_ne hiw).trans hi⟩

end

/-! ## Queued jobs -/

/-- A start has still to spawn. -/
def Caller.starting : Caller → Prop
  | .storing n _ | .spawning n _ => 0 < n
  | .idle | .initChecking _ | .submitChecking _ | .swapping _ _ | .enqueuing _ => False

def Sys.Starting (s : Sys) : Prop := ∃ c, (s.caller c).starting

/-- A worker that has seen the flag up, and is not about to exit. -/
def Worker.fresh : Worker → Prop
  | .looping _ | .running _ | .checkRunning _ | .parking | .parked => True
  | .checkEmpty _ | .exited => False

def Sys.Fresh (s : Sys) : Prop := ∃ wk ∈ s.workers, wk.fresh

/-- While the flag is up there is a worker that does not exit, and while there are jobs there is one
that has not; or they are being spawned. -/
structure Inv (s : Sys) : Prop where
  fresh : s.running = true → s.Fresh ∨ s.Starting
  held : s.queue ≠ [] → s.Alive ∨ s.Starting

/-! ### What a step does -/

/-- A caller that is not in a start. -/
def Caller.Outside (pc : Caller) : Prop := ∀ n after, pc ≠ .storing n after ∧ pc ≠ .spawning n after

/-- Only two program counters lie inside a start. -/
theorem Caller.outside_of {pc : Caller}
    (h : match pc with | .storing _ _ | .spawning _ _ => False | _ => True) : pc.Outside := by
  intro n after
  constructor
  · rintro rfl
    exact h
  · rintro rfl
    exact h

theorem Caller.Outside.not_starting {pc : Caller} (h : pc.Outside) : ¬ pc.starting := by
  cases pc with
  | storing n after => exact absurd rfl (h n after).1
  | spawning n after => exact absurd rfl (h n after).2
  | idle => exact id
  | initChecking n => exact id
  | submitChecking job => exact id
  | swapping n after => exact id
  | enqueuing job => exact id

theorem After.outside (after : After) : after.next.Outside := by
  cases after with
  | submit job => exact Caller.outside_of trivial
  | init => exact Caller.outside_of trivial

/-- What a step does, as far as it matters who starts the pool and who looks at the queue. -/
inductive Sys.Steps (s : Sys) : Action → Sys → Prop where
  | moved {a : Action} {c : Nat} {pc : Caller} (hold : ¬ (s.caller c).starting) (hnew : pc.Outside) :
      Steps s a (s.setCaller c pc)
  | swapped {c n : Nat} {after : After} (hc : s.caller c = .swapping n after) :
      Steps s (.swap c)
        { s.setCaller c (if s.running then after.next else .storing (max n 1) after) with
          running := true }
  | stored {c n : Nat} {after : After} (hc : s.caller c = .storing n after) :
      Steps s (.store c) { s.setCaller c (.spawning n after) with threads := n }
  | spawned {c left : Nat} {after : After} (hc : s.caller c = .spawning (left + 1) after) :
      Steps s (.spawn c)
        { s.setCaller c (if left = 0 then after.next else .spawning left after) with
          workers := s.workers ++ [.looping 0] }
  | enqueued {c job : Nat} (hc : s.caller c = .enqueuing job) (queue : List Nat) :
      Steps s (.enqueue c) { s.setCaller c .idle with queue := queue }
  | stopped : Steps s .shutdown { s with running := false }
  -- a worker moves, and takes jobs or not; it exits only from an empty queue
  | worked {a : Action} {w : Nat} {old new : Worker} {queue : List Nat}
      (hw : s.workers[w]? = some old) (hold : old ≠ .exited)
      (hfresh : s.running = true → old.fresh → new.fresh)
      (hqueue : queue ≠ [] → s.queue ≠ [] ∧ new ≠ .exited) :
      Steps s a { s.setWorker w new with queue := queue }

theorem Sys.step_cases {s s' : Sys} {a : Action} (hstep : s.step a = some s') : s.Steps a s' := by
  cases a with
  | init c n =>
    obtain ⟨hc, rfl⟩ := guard_eq_some hstep
    exact .moved (by rw [hc]; exact id) (Caller.outside_of trivial)
  | submit c job =>
    obtain ⟨hc, rfl⟩ := guard_eq_some hstep
    exact .moved (by rw [hc]; exact id) (Caller.outside_of trivial)
  | check c =>
    simp only [Sys.step] at hstep
    split at hstep
    · next n hc =>
      cases hstep
      refine .moved (by rw [hc]; exact id) ?_
      split
      · exact Caller.outside_of trivial
      · exact Caller.outside_of trivial
    · next job hc =>
      cases hstep
      refine .moved (by rw [hc]; exact id) ?_
      split
      · exact Caller.outside_of trivial
      · exact Caller.outside_of trivial
    · cases hstep
  | swap c =>
    simp only [Sys.step] at hstep
    split at hstep
    · next n after hc =>
      cases hstep
      exact .swapped hc
    · cases hstep
  | store c =>
    simp only [Sys.step] at hstep
    split at hstep
    · next n after hc =>
      cases hstep
      exact .stored hc
    · cases hstep
  | spawn c =>
    simp only [Sys.step] at hstep
    split at hstep
    · next left after hc =>
      cases hstep
      exact .spawned hc
    · cases hstep
  | enqueue c =>
    simp only [Sys.step] at hstep
    split at hstep
    · next job hc =>
      cases hstep
      exact .enqueued hc _
    · cases hstep
  | shutdown =>
    cases hstep
    exact .stopped
  | pop w =>
    simp only [Sys.step] at hstep
    split at hstep
    · next spin hw =>
      cases hstep
      refine .worked hw (fun heq => by cases heq) (fun _ _ => ?_)
        fun hne => ⟨fun hnil => hne (by rw [hnil, List.drop_nil]), ?_⟩
      · split
        · exact trivial
        · exact trivial
      · split
        · exact fun h => by cases h
        · exact fun h => by cases h
    · cases hstep
  | run w =>
    simp only [Sys.step] at hstep
    split at hstep
    · next job rest hw =>
      cases hstep
      refine .worked hw (fun heq => by cases heq) (fun _ _ => ?_) fun hne => ⟨hne, ?_⟩
      · split
        · exact trivial
        · exact trivial
      · split
        · exact fun h => by cases h
        · exact fun h => by cases h
    · cases hstep
  | load w =>
    simp only [Sys.step] at hstep
    split at hstep
    · next spin hw =>
      cases hstep
      refine .worked hw (fun heq => by cases heq) (fun hrunning _ => ?_) fun hne => ⟨hne, ?_⟩
      · -- the worker has seen the flag that is up now
        rw [hrunning]
        show (if spin < spinRounds then Worker.looping (spin + 1) else .parking).fresh
        split
        · exact trivial
        · exact trivial
      · split
        · exact fun h => by cases h
        split
        · exact fun h => by cases h
        · exact fun h => by cases h
    · cases hstep
  | look w =>
    simp only [Sys.step] at hstep
    split at hstep
    · next spin hw =>
      cases hstep
      refine .worked hw (fun heq => by cases heq) (fun _ hold => hold.elim) fun hne => ⟨hne, ?_⟩
      rw [if_neg hne]
      exact fun h => by cases h
    · cases hstep
  | park w =>
    simp only [Sys.step] at hstep
    split at hstep
    · next hw =>
      cases hstep
      refine .worked hw (fun heq => by cases heq) (fun _ _ => ?_) fun hne => ⟨hne, ?_⟩
      · split
        · exact trivial
        · exact trivial
      · split
        · exact fun h => by cases h
        · exact fun h => by cases h
    · cases hstep
  | wake w =>
    simp only [Sys.step] at hstep
    split at hstep
    · next hw =>
      cases hstep
      have hfresh : (Worker.looping 0).fresh := trivial
      exact .worked hw (fun heq => by cases heq) (fun _ _ => hfresh)
        fun hne => ⟨hne, fun h => by cases h⟩
    · cases hstep

/-- **Jobs are queued where somebody looks**: the flag is up, a worker has not exited, or one is being
spawned. -/
def Looked (s : Sys) : Action → Prop
  | .enqueue _ => s.running = true ∨ s.Alive ∨ s.Starting
  | _ => True

section

variable {s s' : Sys} {w c : Nat}

theorem Sys.Fresh.alive (h : s.Fresh) : s.Alive := by
  obtain ⟨wk, hwk, hfresh⟩ := h
  refine ⟨wk, hwk, fun hexited => ?_⟩
  rw [hexited] at hfresh
  exact hfresh

/-- A caller that does not start a pool may move on. -/
theorem Sys.Starting.setCaller (h : s.Starting) (hc : ¬ (s.caller c).starting) (pc : Caller) :
    (s.setCaller c pc).Starting := by
  obtain ⟨c', hc'⟩ := h
  have hne : c' ≠ c := by
    intro heq
    rw [heq] at hc'
    exact hc hc'
  refine ⟨c', ?_⟩
  show (Function.update s.caller c pc c').starting
  rwa [Function.update_of_ne hne]

theorem starting_setCaller {pc : Caller} (h : pc.starting) : (s.setCaller c pc).Starting := by
  refine ⟨c, ?_⟩
  show (Function.update s.caller c pc c).starting
  rwa [Function.update_self]

namespace Inv

/-- A caller moves, and does not start a pool. -/
theorem setCaller (h : Inv s) (hc : ¬ (s.caller c).starting) (pc : Caller) :
    Inv (s.setCaller c pc) where
  fresh := fun hrunning => (h.fresh hrunning).imp_right fun hstart => hstart.setCaller hc pc
  held := fun hne => (h.held hne).imp_right fun hstart => hstart.setCaller hc pc

/-- The swap: the first caller starts the pool, any other relies on it. -/
theorem swap (h : Inv s) {n : Nat} {after : After} (hc : s.caller c = .swapping n after) :
    Inv { s.setCaller c (if s.running then after.next else .storing (max n 1) after) with
      running := true } := by
  have hnot : ¬ (s.caller c).starting := by
    rw [hc]
    exact id
  cases hrunning : s.running with
  | true =>
    rw [if_pos rfl]
    exact ⟨fun _ => (h.fresh hrunning).imp_right fun hstart => hstart.setCaller hnot _,
      fun hne => (h.held hne).imp_right fun hstart => hstart.setCaller hnot _⟩
  | false =>
    have hstart : (s.setCaller c (.storing (max n 1) after)).Starting :=
      starting_setCaller (Nat.lt_of_lt_of_le Nat.one_pos (Nat.le_max_right n 1))
    rw [if_neg Bool.false_ne_true]
    exact ⟨fun _ => .inr hstart, fun _ => .inr hstart⟩

theorem store (h : Inv s) {n : Nat} {after : After} (hc : s.caller c = .storing n after) :
    Inv { s.setCaller c (.spawning n after) with threads := n } := by
  have hstart : s.Starting → (s.setCaller c (.spawning n after)).Starting := by
    intro ⟨c', hc'⟩
    by_cases heq : c' = c
    · rw [heq, hc] at hc'
      exact starting_setCaller hc'
    · refine ⟨c', ?_⟩
      show (Function.update s.caller c (.spawning n after) c').starting
      rwa [Function.update_of_ne heq]
  exact ⟨fun hrunning => (h.fresh hrunning).imp_right hstart,
    fun hne => (h.held hne).imp_right hstart⟩

/-- A worker that is spawned looks at the queue. -/
theorem spawn (s : Sys) (c : Nat) (pc : Caller) :
    Inv { s.setCaller c pc with workers := s.workers ++ [.looping 0] } := by
  have hmem : Worker.looping 0 ∈ s.workers ++ [.looping 0] :=
    List.mem_append_right _ List.mem_cons_self
  exact ⟨fun _ => .inl ⟨_, hmem, trivial⟩, fun _ => .inl ⟨_, hmem, fun h => by cases h⟩⟩

/-- **A job is queued** where somebody looks. -/
theorem enqueue (h : Inv s) {job : Nat} (hc : s.caller c = .enqueuing job)
    (hlooked : s.running = true ∨ s.Alive ∨ s.Starting) (queue : List Nat) :
    Inv { s.setCaller c .idle with queue := queue } := by
  have hnot : ¬ (s.caller c).starting := by
    rw [hc]
    exact id
  refine ⟨fun hrunning => (h.fresh hrunning).imp_right fun hstart => hstart.setCaller hnot _,
    fun _ => ?_⟩
  have hseen : s.Alive ∨ s.Starting := by
    rcases hlooked with hrunning | hor
    · exact (h.fresh hrunning).imp_left Sys.Fresh.alive
    · exact hor
  exact hseen.imp_right fun hstart => hstart.setCaller hnot _

/-- A worker moves on, and takes jobs out of the queue or not. -/
theorem setWorker (h : Inv s) {old new : Worker} (hw : s.workers[w]? = some old)
    (hfresh : s.running = true → old.fresh → new.fresh)
    {queue : List Nat} (hqueue : queue ≠ [] → s.queue ≠ [] ∧ new ≠ .exited) :
    Inv { s.setWorker w new with queue := queue } where
  fresh := fun hrunning =>
    (h.fresh hrunning).imp_left fun hsome => exists_mem_set hsome hw (hfresh hrunning)
  held := fun hne => (h.held (hqueue hne).1).imp_left fun hsome =>
    exists_mem_set hsome hw fun _ => (hqueue hne).2

/-- **One step keeps the invariant.** -/
theorem step (h : Inv s) {a : Action} (hlooked : Looked s a) (hstep : s.step a = some s') :
    Inv s' := by
  cases Sys.step_cases hstep with
  | moved hold hnew => exact h.setCaller hold _
  | swapped hc => exact h.swap hc
  | stored hc => exact h.store hc
  | spawned hc => exact spawn s _ _
  | enqueued hc queue => exact h.enqueue hc hlooked queue
  | stopped => exact ⟨fun hrunning => (by cases hrunning), h.held⟩
  | worked hw hold hfresh hqueue => exact h.setWorker hw hfresh hqueue

theorem noStrandedJob (h : Inv s) : NoStrandedJob s := by
  intro hne hidle
  refine (h.held hne).resolve_right ?_
  intro ⟨c, hc⟩
  apply hidle c
  revert hc
  cases s.caller c with
  | storing n after => exact fun _ => trivial
  | spawning left after => exact fun _ => trivial
  | idle => exact fun hc => hc.elim
  | initChecking n => exact fun hc => hc.elim
  | submitChecking job => exact fun hc => hc.elim
  | swapping n after => exact fun hc => hc.elim
  | enqueuing job => exact fun hc => hc.elim

end Inv

end

/-- **No job is stranded** in a run that queues its jobs where somebody looks. -/
theorem pool_no_stranded_job (queueMax defaultThreads : Nat) (s : Sys)
    (hrun : Run Sys.step Looked (Sys.init queueMax defaultThreads) s) : NoStrandedJob s := by
  have hinv : Inv s := hrun.invariant
    ⟨fun h => (by cases h), fun h => absurd rfl h⟩ fun _ _ _ h hl hstep => h.step hl hstep
  exact hinv.noStrandedJob

/-- A job that is queued after a shutdown, while the worker has not exited. -/
theorem pool_no_stranded_job_raced :
    ∃ s : Sys, NoStrandedJob s ∧ s.queue = [7] ∧ s.running = false := by
  have hrun : Run Sys.step Looked (Sys.init 4 1) _ :=
    .tail (.tail (.tail (.tail (.tail (.tail (.tail (.tail (.tail .refl trivial (a := .init 0 1) rfl)
      trivial (a := .check 0) rfl) trivial (a := .swap 0) rfl) trivial (a := .store 0) rfl)
      trivial (a := .spawn 0) rfl) trivial (a := .submit 0 7) rfl) trivial (a := .check 0) rfl)
      trivial (a := .shutdown) rfl) (.inr (.inl ⟨.looping 0, by decide, by decide⟩)) (a := .enqueue 0) rfl
  exact ⟨_, pool_no_stranded_job 4 1 _ hrun, by decide, by decide⟩

/-- **A submit that raced the shutdown flag**: it sees the flag up, the worker exits, and then the job
is queued. -/
theorem pool_strands_job :
    ¬ ∀ (queueMax defaultThreads : Nat) (s : Sys),
      Run Sys.step (fun _ _ => True) (Sys.init queueMax defaultThreads) s → NoStrandedJob s := by
  intro h
  have hrun : Run Sys.step (fun _ _ => True) (Sys.init 4 1) _ :=
    Run.of_exec [.init 0 1, .check 0, .swap 0, .store 0, .spawn 0, .submit 0 7, .check 0, .shutdown,
      .pop 0, .load 0, .look 0, .enqueue 0] rfl
  have hstranded := h 4 1 _ hrun (by decide) fun c => by
    simp [Sys.setCaller, Sys.setWorker, Sys.init, Caller.midway]
  obtain ⟨wk, hwk, hne⟩ := hstranded
  exact hne (List.mem_singleton.mp hwk)

/-! ## The number of workers -/

/-- Starts do not overlap, and a pool that starts has no worker left, so what has been spawned and
what has still to be spawned is within the thread count. -/
structure Bounded (s : Sys) : Prop where
  bound : s.live ≤ s.threads
  alone : ∀ c c', (s.caller c).starting → (s.caller c').starting → c = c'
  storing : ∀ c n after, s.caller c = .storing n after → s.live = 0 ∧ 0 < n
  spawning : ∀ c left after, s.caller c = .spawning left after → s.live + left ≤ s.threads ∧ 0 < left

/-- **A pool starts where none is left**: no worker is alive, and no other start is midway. -/
def Cleared (s : Sys) : Action → Prop
  | .swap c => (∃ n after, s.caller c = .swapping n after) → s.running = false →
      s.live = 0 ∧ ¬ s.Starting
  | _ => True

section

variable {s s' : Sys} {w c : Nat}

/-- A worker that moves on is no further worker. -/
theorem live_setWorker_le {old : Worker} (hw : s.workers[w]? = some old) (hold : old ≠ .exited)
    (new : Worker) : (s.setWorker w new).live ≤ s.live := by
  obtain ⟨hlt, hget⟩ := List.getElem?_eq_some_iff.mp hw
  have hone : 0 < s.workers.countP (· ≠ .exited) := by
    rw [List.countP_pos_iff]
    exact ⟨old, List.mem_of_getElem? hw, by simpa using hold⟩
  show (s.workers.set w new).countP (· ≠ .exited) ≤ s.workers.countP (· ≠ .exited)
  rw [List.countP_set hlt, hget, if_pos (by simpa using hold)]
  split
  · omega
  · omega

namespace Bounded

/-- A caller that is in a start is the one. -/
theorem eq_of_inside (h : Bounded s) {c' : Nat} (hc : (s.caller c).starting)
    (hc' : ¬ (s.caller c').Outside) : c' = c := by
  refine h.alone c' c ?_ hc
  by_contra hnot
  apply hc'
  intro n after
  constructor
  · intro heq
    apply hnot
    rw [heq]
    exact (h.storing c' n after heq).2
  · intro heq
    apply hnot
    rw [heq]
    exact (h.spawning c' n after heq).2

theorem caller_cases {pc : Caller} {c' : Nat} {q : Caller} (hq : (s.setCaller c pc).caller c' = q) :
    c' = c ∧ pc = q ∨ c' ≠ c ∧ s.caller c' = q := by
  change Function.update s.caller c pc c' = q at hq
  by_cases heq : c' = c
  · rw [heq, Function.update_self] at hq
    exact .inl ⟨heq, hq⟩
  · rw [Function.update_of_ne heq] at hq
    exact .inr ⟨heq, hq⟩

/-- While `c` is inside a start, it is the only caller that can be. -/
theorem alone_setCaller (hc : ∀ c', (s.caller c').starting → c' = c) {pc : Caller}
    {c₁ c₂ : Nat} (h₁ : ((s.setCaller c pc).caller c₁).starting)
    (h₂ : ((s.setCaller c pc).caller c₂).starting) : c₁ = c₂ := by
  have hself : ∀ c', ((s.setCaller c pc).caller c').starting → c' = c := by
    intro c' hc'
    by_contra hne
    change (Function.update s.caller c _ c').starting at hc'
    rw [Function.update_of_ne hne] at hc'
    exact hne (hc c' hc')
  rw [hself c₁ h₁, hself c₂ h₂]

/-- A caller moves outside of a start. -/
theorem setCaller (h : Bounded s) {pc : Caller} (hpc : pc.Outside) : Bounded (s.setCaller c pc) where
  bound := h.bound
  alone := by
    have hold : ∀ c', ((s.setCaller c pc).caller c').starting → (s.caller c').starting := by
      intro c' hc'
      have hself : (s.setCaller c pc).caller c' = (s.setCaller c pc).caller c' := rfl
      rcases caller_cases hself with ⟨-, heq⟩ | ⟨-, heq⟩
      · rw [← heq] at hc'
        exact absurd hc' hpc.not_starting
      · rw [heq]
        exact hc'
    exact fun c₁ c₂ h₁ h₂ => h.alone c₁ c₂ (hold c₁ h₁) (hold c₂ h₂)
  storing := by
    intro c' n after hc'
    rcases caller_cases hc' with ⟨-, heq⟩ | ⟨-, heq⟩
    · exact absurd heq (hpc n after).1
    · exact h.storing c' n after heq
  spawning := by
    intro c' left after hc'
    rcases caller_cases hc' with ⟨-, heq⟩ | ⟨-, heq⟩
    · exact absurd heq (hpc left after).2
    · exact h.spawning c' left after heq

/-- A worker moves on, and takes jobs out of the queue or not. -/
theorem setWorker (h : Bounded s) {old new : Worker} (hw : s.workers[w]? = some old)
    (hold : old ≠ .exited) (queue : List Nat) : Bounded { s.setWorker w new with queue := queue } := by
  have hle : (s.setWorker w new).live ≤ s.live := live_setWorker_le hw hold new
  refine ⟨Nat.le_trans hle h.bound, h.alone, fun c n after hc => ?_, fun c left after hc => ?_⟩
  · have hstoring := h.storing c n after hc
    refine ⟨?_, hstoring.2⟩
    show (s.setWorker w new).live = 0
    omega
  · have hspawning := h.spawning c left after hc
    refine ⟨?_, hspawning.2⟩
    show (s.setWorker w new).live + left ≤ s.threads
    omega

/-- **The swap of a start**: no other start is midway, and no worker is left. -/
theorem swap (h : Bounded s) {n : Nat} {after : After}
    (hcleared : s.running = false → s.live = 0 ∧ ¬ s.Starting) :
    Bounded { s.setCaller c (if s.running then after.next else .storing (max n 1) after) with
      running := true } := by
  cases hrunning : s.running with
  | true =>
    rw [if_pos rfl]
    have hmoved : Bounded (s.setCaller c after.next) := h.setCaller after.outside
    exact ⟨hmoved.bound, hmoved.alone, hmoved.storing, hmoved.spawning⟩
  | false =>
    obtain ⟨hlive, hnone⟩ := hcleared hrunning
    rw [if_neg Bool.false_ne_true]
    refine ⟨h.bound, fun c₁ c₂ h₁ h₂ => ?_, fun c' m after' hc' => ?_, fun c' left after' hc' => ?_⟩
    · exact alone_setCaller (fun c' hc' => absurd ⟨c', hc'⟩ hnone) h₁ h₂
    · rcases caller_cases hc' with ⟨-, heq⟩ | ⟨-, heq⟩
      · injection heq with hm
        exact ⟨hlive, hm ▸ Nat.lt_of_lt_of_le Nat.one_pos (Nat.le_max_right n 1)⟩
      · exact h.storing c' m after' heq
    · rcases caller_cases hc' with ⟨-, heq⟩ | ⟨-, heq⟩
      · cases heq
      · exact h.spawning c' left after' heq

theorem store (h : Bounded s) {n : Nat} {after : After} (hc : s.caller c = .storing n after) :
    Bounded { s.setCaller c (.spawning n after) with threads := n } := by
  obtain ⟨hlive, hpos⟩ := h.storing c n after hc
  have hstarting : (s.caller c).starting := by
    rw [hc]
    exact hpos
  refine ⟨?_, fun c₁ c₂ h₁ h₂ => ?_, fun c' m after' hc' => ?_, fun c' left after' hc' => ?_⟩
  · show s.live ≤ n
    omega
  · exact alone_setCaller (fun c' hc' => h.alone c' c hc' hstarting) h₁ h₂
  · rcases caller_cases hc' with ⟨-, heq⟩ | ⟨hne, heq⟩
    · cases heq
    · exact absurd (h.eq_of_inside hstarting fun hout => (hout m after').1 heq) hne
  · rcases caller_cases hc' with ⟨-, heq⟩ | ⟨hne, heq⟩
    · injection heq with hleft
      show s.live + left ≤ n ∧ 0 < left
      omega
    · exact absurd (h.eq_of_inside hstarting fun hout => (hout left after').2 heq) hne

/-- **A worker is spawned**, which the start still had to its credit. -/
theorem spawn (h : Bounded s) {left : Nat} {after : After}
    (hc : s.caller c = .spawning (left + 1) after) :
    Bounded { s.setCaller c (if left = 0 then after.next else .spawning left after) with
      workers := s.workers ++ [.looping 0] } := by
  obtain ⟨hcredit, -⟩ := h.spawning c (left + 1) after hc
  have hstarting : (s.caller c).starting := by
    rw [hc]
    exact Nat.succ_pos left
  have hlive : (s.workers ++ [Worker.looping 0]).countP (· ≠ .exited) = s.live + 1 := by
    rw [List.countP_append]
    rfl
  refine ⟨?_, fun c₁ c₂ h₁ h₂ => ?_, fun c' m after' hc' => ?_, fun c' left' after' hc' => ?_⟩
  · show (s.workers ++ [Worker.looping 0]).countP (· ≠ .exited) ≤ s.threads
    omega
  · exact alone_setCaller (fun c' hc' => h.alone c' c hc' hstarting) h₁ h₂
  · rcases caller_cases hc' with ⟨-, heq⟩ | ⟨hne, heq⟩
    · split at heq
      · exact absurd heq (after.outside m after').1
      · cases heq
    · exact absurd (h.eq_of_inside hstarting fun hout => (hout m after').1 heq) hne
  · rcases caller_cases hc' with ⟨-, heq⟩ | ⟨hne, heq⟩
    · split at heq
      · exact absurd heq (after.outside left' after').2
      · next hleft =>
        injection heq with heq
        show (s.workers ++ [Worker.looping 0]).countP (· ≠ .exited) + left' ≤ s.threads ∧ 0 < left'
        omega
    · exact absurd (h.eq_of_inside hstarting fun hout => (hout left' after').2 heq) hne

/-- **One step keeps the bound**, where a pool starts with nothing left of the last one. -/
theorem step (h : Bounded s) {a : Action} (hcleared : Cleared s a) (hstep : s.step a = some s') :
    Bounded s' := by
  cases Sys.step_cases hstep with
  | moved hold hnew => exact h.setCaller hnew
  | @swapped c n after hc => exact h.swap (hcleared ⟨n, after, hc⟩)
  | stored hc => exact h.store hc
  | spawned hc => exact h.spawn hc
  | @enqueued c job hc queue =>
    have hmoved : Bounded (s.setCaller c .idle) := h.setCaller (Caller.outside_of trivial)
    exact ⟨hmoved.bound, hmoved.alone, hmoved.storing, hmoved.spawning⟩
  | stopped => exact ⟨h.bound, h.alone, h.storing, h.spawning⟩
  | @worked _ w old new queue hw hold hfresh hqueue => exact h.setWorker hw hold queue

end Bounded

end

/-- **There are no more workers than threads** in a run in which a pool starts only where no worker and
no other start is left. -/
theorem pool_worker_bound (queueMax defaultThreads : Nat) (s : Sys)
    (hrun : Run Sys.step Cleared (Sys.init queueMax defaultThreads) s) : WorkerBound s := by
  have hinv : Bounded s := hrun.invariant
    ⟨Nat.le_refl 0, fun _ _ h => h.elim, fun _ _ _ h => (by cases h), fun _ _ _ h => (by cases h)⟩
    fun _ _ _ h hc hstep => h.step hc hstep
  exact hinv.bound

/-- A pool that is started again after its worker has exited. -/
theorem pool_worker_bound_restarted :
    ∃ s : Sys, WorkerBound s ∧ s.workers = [.exited, .looping 0] ∧ s.threads = 1 := by
  -- The caller that swaps is the only one that is not idle, so no other is starting a pool.
  have hcleared : ∀ (s : Sys) (c : Nat), s.live = 0 → (∀ c', s.caller c' = .idle ∨ c' = c) →
      (∃ n after, s.caller c = .swapping n after) → s.live = 0 ∧ ¬ s.Starting := by
    intro s c hlive hidle hswap
    refine ⟨hlive, fun hstart => ?_⟩
    obtain ⟨c', hc'⟩ := hstart
    obtain ⟨n, after, hpc⟩ := hswap
    rcases hidle c' with heq | heq
    · rw [heq] at hc'
      exact hc'
    · rw [heq, hpc] at hc'
      exact hc'
  have hothers : ∀ (pc : Caller) (c' : Nat),
      Function.update (fun _ => Caller.idle) 0 pc c' = .idle ∨ c' = 0 := by
    intro pc c'
    by_cases hc : c' = 0
    · exact .inr hc
    · exact .inl (Function.update_of_ne hc _ _)
  -- The run: a pool of one worker, its shutdown and the exit of the worker, and a second pool.
  have hrun : Run Sys.step Cleared (Sys.init 4 1) _ :=
    .tail (.tail (.tail (.tail (.tail .refl trivial (a := .init 0 1) rfl) trivial (a := .check 0) rfl)
      (fun hswap _ => hcleared _ 0 rfl (fun c' => by simp [Sys.setCaller, Sys.init, hothers]) hswap)
      (a := .swap 0) rfl) trivial (a := .store 0) rfl) trivial (a := .spawn 0) rfl
  have hexited : Run Sys.step Cleared (Sys.init 4 1) _ :=
    .tail (.tail (.tail (.tail (.tail (.tail hrun trivial (a := .shutdown) rfl) trivial (a := .pop 0) rfl)
      trivial (a := .load 0) rfl) trivial (a := .look 0) rfl) trivial (a := .init 0 1) rfl)
      trivial (a := .check 0) rfl
  have hagain : Run Sys.step Cleared (Sys.init 4 1) _ :=
    .tail (.tail (.tail hexited
      (fun hswap _ => hcleared _ 0 rfl (fun c' => by simp [Sys.setCaller, Sys.setWorker, Sys.init, hothers]) hswap)
      (a := .swap 0) rfl) trivial (a := .store 0) rfl) trivial (a := .spawn 0) rfl
  exact ⟨_, pool_worker_bound 4 1 _ hagain, by decide, by decide⟩

/-- **A restart doubles the pool**: the old worker is still there when the new one is spawned. -/
theorem pool_doubles :
    ¬ ∀ (queueMax defaultThreads : Nat) (s : Sys),
      Run Sys.step (fun _ _ => True) (Sys.init queueMax defaultThreads) s → WorkerBound s := by
  intro h
  have hrun : Run Sys.step (fun _ _ => True) (Sys.init 4 1) _ :=
    Run.of_exec [.init 0 1, .check 0, .swap 0, .store 0, .spawn 0, .shutdown, .init 0 1, .check 0,
      .swap 0, .store 0, .spawn 0] rfl
  exact absurd (h 4 1 _ hrun) (by decide : ¬ 2 ≤ 1)

end Castrum.Pool
