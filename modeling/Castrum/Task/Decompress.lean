import Castrum.Lib.Runs
import Castrum.Task.Runtime

/-!
# Castrum — the decompression calls (`src/task/runtime.ts`, `rust/task/ops.rs`)

`gzipDecompress` and `brotliDecompress` answer with a chain of promises: a first attempt, and two
`catch` handlers that each make one more. An attempt is one native task. Completions, aborts and
shutdowns come in any order between the handlers.

* `Call.step` — the attempts of one call, and what its environment answers;
* `Runtime.step` — every call of the runtime, and the shutdown they share;
* `decompress_final` — where every failure meets a chain that may go on, nothing is submitted after an
  abort or a shutdown, and the input is decompressed at most twice.
-/

namespace Castrum.Decompress

open Castrum.Task (Status)

/-! ## The attempts -/

/-- Outputs of at least this size are written into a buffer of the caller (`ZERO_COPY_MIN`). -/
def zeroCopyMin : Nat := 64 * 1024

def brotliCapacityGuess (compressedLen : Nat) : Nat := max (64 * 1024) (compressedLen * 8)

/-- What is called: `gzipDecompress` knows the size that the input's trailer states, `0` if none. -/
inductive Op where
  | gzipDecompress (isize : Nat)
  | brotliDecompress (compressedLen : Nat)
  deriving DecidableEq

/-- The capacity of the first attempt's output buffer; `none` for `copyPath`. -/
def Op.firstCap : Op → Option Nat
  | .gzipDecompress isize => if isize < zeroCopyMin then none else some isize
  | .brotliDecompress compressedLen => some (brotliCapacityGuess compressedLen)

/-- The handlers that follow the first attempt: a small `gzipDecompress` has none. -/
def Op.handlers (op : Op) : Nat := if op.firstCap = none then 0 else 2

/-- What an attempt is rejected with: `isTooSmall` carries the size it needs. -/
inductive Failure where
  | tooSmall (needed : Nat)
  | other
  deriving DecidableEq

/-- What the handler with `ahead` handlers from it on submits: the first one tries once more with the
exact size, and every other one falls back to `copyPath`. -/
def handlerCap : Nat → Failure → Option Nat
  | 2, .tooSmall needed => some needed
  | _, _ => none

/-- A task on the native side: waiting, marked as cancelled or not, or past the check for the mark. -/
inductive Native where
  | queued (marked : Bool)
  | executing
  deriving DecidableEq

/-- Where a call is: it waits for the task of an attempt, or for the handler of a failed one. `ahead`
handlers are left. -/
inductive Stage where
  | idle
  | pending (ahead : Nat) (cap : Option Nat) (native : Native)
  | rejected (ahead : Nat) (err : Failure)
  | settled
  deriving DecidableEq

/-- How a submission ends. A worker may start on an accepted task before JavaScript goes on; `threw` is
an exception before there is a promise. -/
inductive Submission where
  | accepted (started : Bool)
  | refused
  | threw
  deriving DecidableEq

/-- One call: besides its stage, whether its signal has been aborted, whether the runtime has been shut
down since it was made, how often its input has been decompressed, and whether a task was submitted
after an abort or a shutdown. -/
structure Call where
  stage : Stage
  aborted : Bool
  shut : Bool
  executions : Nat
  late : Bool
  deriving DecidableEq

def Call.init : Call := ⟨.idle, false, false, 0, false⟩

/-- A rejection goes to the next handler, or to the caller. -/
def Call.reject (s : Call) (ahead : Nat) (err : Failure) : Call :=
  { s with stage := if ahead = 0 then .settled else .rejected ahead err }

/-- `submit` and `submitInto`: native refuses an empty output buffer, and the task is marked at once if
the signal is aborted already. -/
def Call.attempt (s : Call) (ahead : Nat) (cap : Option Nat) : Submission → Option Call
  | .accepted started =>
    if cap = some 0 then none
    else some { s with
      stage := .pending ahead cap (if started then .executing else .queued s.aborted)
      executions := s.executions + if started then 1 else 0
      late := s.late || s.aborted || s.shut }
  | .refused => some (s.reject ahead .other)
  | .threw => some (s.reject ahead .other)

/-- The statuses a task can complete with. A marked task is not executed; an addon without the zero-copy
form of an operation does not execute it either. -/
def Native.completes : Native → Option Nat → Status → Bool
  | .executing, _, .ok => true
  | .executing, _, .error => true
  | .executing, some _, .tooSmall => true
  | .queued _, some _, .unsupported => true
  | .queued true, _, .cancelled => true
  | _, _, _ => false

def failureOf (needed : Nat) : Status → Failure
  | .tooSmall => .tooSmall needed
  | _ => .other

/-- A completion that is drained: it resolves the attempt, and with it the call, or rejects it. -/
def Call.complete (s : Call) (ahead : Nat) (needed : Nat) : Status → Call
  | .ok => { s with stage := .settled }
  | st => s.reject ahead (failureOf needed st)

inductive CallAction where
  | call (op : Op) (aborted : Bool) (sub : Submission)
  | execute
  | complete (st : Status) (needed : Nat)
  | react (sub : Submission)
  | abort

/-- One step of a call or of its environment. -/
def Call.step (s : Call) : CallAction → Option Call
  | .call op aborted sub =>
    match s.stage, sub with
    | .idle, .threw => some { s with aborted := aborted, stage := .settled }
    | .idle, sub => { s with aborted := aborted }.attempt op.handlers op.firstCap sub
    | _, _ => none
  | .execute =>
    match s.stage with
    | .pending ahead cap (.queued false) =>
      some { s with stage := .pending ahead cap .executing, executions := s.executions + 1 }
    | _ => none
  | .complete st needed =>
    match s.stage with
    | .pending ahead cap native =>
      if native.completes cap st then some (s.complete ahead needed st) else none
    | _ => none
  | .react sub =>
    match s.stage with
    | .rejected (ahead + 1) err => s.attempt ahead (handlerCap (ahead + 1) err) sub
    | _ => none
  | .abort =>
    match s.stage with
    | .idle => none
    | .pending ahead cap (.queued _) =>
      some { s with aborted := true, stage := .pending ahead cap (.queued true) }
    | _ => some { s with aborted := true }

/-- `shutdown()` rejects the attempt that is in flight. Its task is marked, so that it is not executed
any more unless it is being executed already. -/
def Call.shutdown (s : Call) : Call :=
  match s.stage with
  | .idle => s
  | .pending ahead _ _ => { s.reject ahead .other with shut := true }
  | _ => { s with shut := true }

/-! ## The runtime -/

structure Runtime where
  calls : Nat → Call

def Runtime.init : Runtime where
  calls := fun _ => Call.init

inductive Action where
  | move (c : Nat) (a : CallAction)
  | shutdown

def Runtime.step (s : Runtime) : Action → Option Runtime
  | .move c a => ((s.calls c).step a).map fun call => { s with calls := Function.update s.calls c call }
  | .shutdown => some { s with calls := fun c => (s.calls c).shutdown }

/-! ## What a step does -/

/-- The steps of a call, with what each one finds and leaves. -/
inductive Call.Moves (s : Call) : CallAction → Call → Prop where
  | throws (op : Op) (aborted : Bool) (hidle : s.stage = .idle) :
      Moves s (.call op aborted .threw) { s with aborted := aborted, stage := .settled }
  | call (op : Op) (aborted : Bool) (sub : Submission) (t : Call) (hidle : s.stage = .idle)
      (h : { s with aborted := aborted }.attempt op.handlers op.firstCap sub = some t) :
      Moves s (.call op aborted sub) t
  | execute (ahead : Nat) (cap : Option Nat) (hst : s.stage = .pending ahead cap (.queued false)) :
      Moves s .execute
        { s with stage := .pending ahead cap .executing, executions := s.executions + 1 }
  | complete (ahead needed : Nat) (cap : Option Nat) (native : Native) (st : Status)
      (hst : s.stage = .pending ahead cap native) (h : native.completes cap st = true) :
      Moves s (.complete st needed) (s.complete ahead needed st)
  | react (ahead : Nat) (err : Failure) (sub : Submission) (t : Call)
      (hst : s.stage = .rejected (ahead + 1) err)
      (h : s.attempt ahead (handlerCap (ahead + 1) err) sub = some t) : Moves s (.react sub) t
  | mark (ahead : Nat) (cap : Option Nat) (marked : Bool)
      (hst : s.stage = .pending ahead cap (.queued marked)) :
      Moves s .abort { s with aborted := true, stage := .pending ahead cap (.queued true) }
  | abort (hst : s.stage ≠ .idle) : Moves s .abort { s with aborted := true }

section

variable {s t : Call} {ahead : Nat} {cap : Option Nat} {sub : Submission}

theorem Call.step_moves {a : CallAction} (h : s.step a = some t) : s.Moves a t := by
  -- One case for each action; which move it makes depends on the state of the call.
  cases a with
  | call op aborted sub =>
    simp only [Call.step] at h
    split at h
    · next hidle => cases h; exact .throws op aborted hidle
    · next hidle _ => exact .call op aborted _ t hidle h
    · cases h
  | execute =>
    simp only [Call.step] at h
    split at h
    · next k c hst => cases h; exact .execute k c hst
    · cases h
  | complete st needed =>
    simp only [Call.step] at h
    split at h
    · next k c native hst =>
      obtain ⟨hcompletes, rfl⟩ := guard_eq_some h
      exact .complete k needed c native st hst hcompletes
    · cases h
  | react sub =>
    simp only [Call.step] at h
    split at h
    · next k err hst => exact .react k err sub t hst h
    · cases h
  | abort =>
    simp only [Call.step] at h
    split at h
    · cases h
    · next k c marked hst => cases h; exact .mark k c marked hst
    · next hidle _ => cases h; exact .abort hidle

/-- What a submission leads to: a task, or a rejection. -/
theorem Call.attempt_cases (h : s.attempt ahead cap sub = some t) :
    (∃ started : Bool, t = { s with
      stage := .pending ahead cap (if started then .executing else .queued s.aborted)
      executions := s.executions + if started then 1 else 0
      late := s.late || s.aborted || s.shut }) ∨ t = s.reject ahead .other := by
  cases sub with
  | accepted started =>
    rw [attempt] at h
    split at h
    · cases h
    · exact .inl ⟨started, (Option.some.inj h).symm⟩
  | refused => exact .inr (Option.some.inj h).symm
  | threw => exact .inr (Option.some.inj h).symm

theorem Op.handlers_le (op : Op) : op.handlers ≤ 2 := by
  unfold handlers
  split <;> omega

end

/-- A step of the runtime leaves each call alone, moves it or shuts it down. -/
theorem Runtime.step_calls {s t : Runtime} {a : Action} (h : s.step a = some t) (c : Nat) :
    t.calls c = s.calls c ∧ (∀ b, a ≠ .move c b) ∧ a ≠ .shutdown ∨
      (∃ b, a = .move c b ∧ (s.calls c).Moves b (t.calls c)) ∨
      a = .shutdown ∧ t.calls c = (s.calls c).shutdown := by
  cases a with
  | move c' b =>
    obtain ⟨call, hcall, rfl⟩ := Option.map_eq_some_iff.mp h
    by_cases hc : c = c'
    · refine .inr (.inl ⟨b, by rw [hc], ?_⟩)
      show (s.calls c).Moves b (Function.update s.calls c' call c)
      rw [hc, Function.update_self]
      exact Call.step_moves hcall
    · refine .inl ⟨Function.update_of_ne hc call s.calls, fun b' heq => ?_, fun heq => by cases heq⟩
      cases heq
      exact hc rfl
  | shutdown =>
    cases h
    exact .inr (.inr ⟨rfl, rfl⟩)

/-! ## Failures the chain may answer -/

/-- The executions that a task in flight may still add. -/
def Native.owed : Native → Nat
  | .queued _ => 1
  | .executing => 0

/-- A handler is still to run, or may still have to. -/
def Call.HandlerLeft (s : Call) : Prop :=
  (∃ ahead cap native, s.stage = .pending (ahead + 1) cap native) ∨
    ∃ ahead err, s.stage = .rejected ahead err

/-- The moves of a call whose failures its handlers may answer with one more task: the signal is not
aborted when the call is made, nor between a failure and its handler, and no attempt with a handler
behind it fails on an aborted signal. The attempt before the last one does not fail when the input
has been decompressed twice by then. -/
def Call.Answerable (s : Call) : CallAction → Prop
  | .call _ aborted _ => aborted = false
  | .complete st _ => ∀ ahead cap native, st ≠ .ok → s.stage = .pending (ahead + 1) cap native →
      s.aborted = false ∧ (ahead = 0 → s.executions < 2)
  | .abort => ∀ ahead err, s.stage ≠ .rejected ahead err
  | _ => True

/-- The same for every move of call `c`, with every shutdown after its last handler. -/
def Answerable (c : Nat) (s : Runtime) : Action → Prop
  | .move c' a => c' = c → (s.calls c).Answerable a
  | .shutdown => ¬ (s.calls c).HandlerLeft

/-- No task is submitted for the call after an abort or a shutdown, and without an abort its input is
decompressed at most twice. -/
def Call.Final (s : Call) : Prop := s.late = false ∧ (s.aborted = false → s.executions ≤ 2)

/-- While a handler is left nothing has been shut down, and while it is due nothing has been aborted;
the handlers left and the executions go together. -/
structure Call.Calm (s : Call) : Prop where
  late : s.late = false
  idle : s.stage = .idle → s.shut = false ∧ s.executions = 0
  pending : ∀ ahead cap native, s.stage = .pending ahead cap native →
    s.shut = false ∧ s.executions + (native.owed) + (ahead - 1) ≤ 2
  rejected : ∀ ahead err, s.stage = .rejected ahead err →
    s.aborted = false ∧ s.shut = false ∧ s.executions ≤ 1 ∧ s.executions + (ahead - 1) ≤ 2
  bound : s.executions ≤ 2

section

variable {s t : Call} {ahead : Nat} {cap : Option Nat} {sub : Submission}

namespace Call.Calm

theorem init : Call.init.Calm :=
  ⟨rfl, fun _ => ⟨rfl, rfl⟩, fun _ _ _ h => (by cases h), fun _ _ h => (by cases h), Nat.zero_le 2⟩

theorem final (h : s.Calm) : s.Final := ⟨h.late, fun _ => h.bound⟩

theorem settled (hlate : t.late = false) (hst : t.stage = .settled) (hle : t.executions ≤ 2) :
    t.Calm := by
  refine ⟨hlate, fun h => ?_, fun _ _ _ h => ?_, fun _ _ h => ?_, hle⟩ <;>
    · rw [hst] at h
      cases h

theorem of_pending {native : Native} (hlate : t.late = false) (hshut : t.shut = false)
    (hst : t.stage = .pending ahead cap native)
    (hle : t.executions + (native.owed) + (ahead - 1) ≤ 2) : t.Calm := by
  refine ⟨hlate, fun h => ?_, fun k c n h => ?_, fun _ _ h => ?_, by omega⟩ <;> rw [hst] at h <;>
    cases h
  exact ⟨hshut, hle⟩

/-- The last attempt may fail at any time, one before it only while the next one may be made. -/
theorem reject (hlate : s.late = false) (hle : s.executions ≤ 2)
    (hleft : ahead ≠ 0 →
      s.aborted = false ∧ s.shut = false ∧ s.executions ≤ 1 ∧ s.executions + (ahead - 1) ≤ 2)
    (err : Failure) : (s.reject ahead err).Calm := by
  unfold Call.reject
  by_cases hzero : ahead = 0
  · rw [if_pos hzero]
    exact settled hlate rfl hle
  · rw [if_neg hzero]
    refine ⟨hlate, fun h => (by cases h), fun _ _ _ h => (by cases h), fun k e h => ?_, hle⟩
    cases h
    exact hleft hzero

theorem attempt (hlate : s.late = false) (haborted : s.aborted = false) (hshut : s.shut = false)
    (hle : s.executions ≤ 1) (hahead : s.executions + ahead ≤ 2)
    (h : s.attempt ahead cap sub = some t) : t.Calm := by
  obtain ⟨started, rfl⟩ | rfl := Call.attempt_cases h
  · have hnotLate : (s.late || s.aborted || s.shut) = false := by
      rw [hlate, haborted, hshut]
      rfl
    cases started with
    | true =>
      refine of_pending hnotLate hshut rfl ?_
      show s.executions + 1 + 0 + (ahead - 1) ≤ 2
      omega
    | false =>
      refine of_pending hnotLate hshut rfl ?_
      show s.executions + 0 + 1 + (ahead - 1) ≤ 2
      omega
  · exact reject hlate (by omega) (fun _ => ⟨haborted, hshut, hle, by omega⟩) .other

theorem complete {native : Native} (h : s.Calm) (hst : s.stage = .pending ahead cap native)
    {needed : Nat} {st : Status} (ha : s.Answerable (.complete st needed)) :
    (s.complete ahead needed st).Calm := by
  obtain ⟨hshut, hle⟩ := h.pending ahead cap native hst
  have hfails : st ≠ .ok → (s.reject ahead (failureOf needed st)).Calm := by
    intro hok
    refine reject h.late h.bound (fun hzero => ?_) _
    obtain ⟨k, rfl⟩ := Nat.exists_eq_succ_of_ne_zero hzero
    obtain ⟨haborted, hsecond⟩ := ha k cap native hok hst
    refine ⟨haborted, hshut, ?_, by omega⟩
    by_cases hk : k = 0
    · have := hsecond hk
      omega
    · omega
  cases st with
  | ok => exact settled h.late rfl h.bound
  | error => exact hfails (by decide)
  | cancelled => exact hfails (by decide)
  | tooSmall => exact hfails (by decide)
  | unsupported => exact hfails (by decide)

theorem moves {a : CallAction} (h : s.Calm) (ha : s.Answerable a) (hm : s.Moves a t) : t.Calm := by
  cases hm with
  | throws op aborted hidle => exact settled h.late rfl h.bound
  | call op aborted sub _ hidle hattempt =>
    obtain ⟨hshut, hzero⟩ := h.idle hidle
    have hhandlers := op.handlers_le
    refine attempt (s := { s with aborted := aborted }) h.late ha hshut ?_ ?_ hattempt
    · show s.executions ≤ 1
      omega
    · show s.executions + op.handlers ≤ 2
      omega
  | execute k c hst =>
    obtain ⟨hshut, hle⟩ := h.pending k c (.queued false) hst
    exact of_pending h.late hshut rfl hle
  | complete k needed c native st hst _ => exact h.complete hst ha
  | react k err sub _ hst hattempt =>
    obtain ⟨haborted, hshut, hle, hahead⟩ := h.rejected (k + 1) err hst
    exact attempt h.late haborted hshut hle (by omega) hattempt
  | mark k c marked hst =>
    obtain ⟨hshut, hle⟩ := h.pending k c (.queued marked) hst
    exact of_pending h.late hshut rfl hle
  | abort hst => exact ⟨h.late, h.idle, h.pending, fun k err h' => absurd h' (ha k err), h.bound⟩

theorem shutdown (h : s.Calm) (hleft : ¬ s.HandlerLeft) : s.shutdown.Calm := by
  unfold Call.shutdown
  split
  · exact h
  · next k c native hst =>
    -- the handlers of this attempt have all run
    have hzero : k = 0 := by
      by_contra hne
      obtain ⟨k', rfl⟩ := Nat.exists_eq_succ_of_ne_zero hne
      exact hleft (.inl ⟨k', c, native, hst⟩)
    rw [hzero]
    exact settled h.late rfl h.bound
  · next hidle hpending =>
    exact ⟨h.late, fun h' => absurd h' hidle, fun k c n h' => absurd h' (hpending k c n),
      fun k err h' => absurd (.inr ⟨k, err, h'⟩) hleft, h.bound⟩

end Call.Calm

end

/-- **Cancellation and shutdown are final** for a call whose failures all come where its handlers may
answer them with one more task. -/
theorem decompress_final (c : Nat) (s : Runtime)
    (hrun : Run Runtime.step (Answerable c) Runtime.init s) : (s.calls c).Final := by
  have hcalm : (s.calls c).Calm := by
    refine hrun.invariant (P := fun s => (s.calls c).Calm) Call.Calm.init ?_
    intro s a t h ha hstep
    rcases Runtime.step_calls hstep c with ⟨heq, -, -⟩ | ⟨b, rfl, hmoves⟩ | ⟨rfl, heq⟩
    · rw [heq]
      exact h
    · exact h.moves (ha rfl) hmoves
    · rw [heq]
      exact h.shutdown ha
  exact hcalm.final

/-- A buffer that was guessed too small, an exact one, and an abort after it was filled. -/
theorem decompress_final_retried : ∃ s : Runtime, (s.calls 0).Final ∧
    s.calls 0 = ⟨.settled, true, false, 2, false⟩ := by
  have hrun : Run Runtime.step (Answerable 0) Runtime.init _ :=
    .tail (.tail (.tail (.tail (.tail (.tail .refl
      (fun _ => rfl) (a := .move 0 (.call (.brotliDecompress 10) false (.accepted false))) rfl)
      (fun _ => trivial) (a := .move 0 .execute) rfl)
      (fun _ k cap n _ hst => by cases hst; exact ⟨rfl, fun h => by cases h⟩)
      (a := .move 0 (.complete .tooSmall 70000)) rfl)
      (fun _ => trivial) (a := .move 0 (.react (.accepted true))) rfl)
      (fun _ k err h => by cases h) (a := .move 0 .abort) rfl)
      (fun _ k cap n hok _ => absurd rfl hok) (a := .move 0 (.complete .ok 0)) rfl
  exact ⟨_, decompress_final 0 _ hrun, rfl⟩

/-- **The fallback answers every failure**: the rejection that a shutdown makes has the task submitted
again, to a pool that it starts again. -/
theorem decompress_resubmits :
    ¬ ∀ s : Runtime, Run Runtime.step (fun _ _ => True) Runtime.init s → ∀ c, (s.calls c).Final := by
  intro h
  have hshutdown : Run Runtime.step (fun _ _ => True) Runtime.init _ :=
    Run.of_exec [.move 0 (.call (.gzipDecompress 65536) false (.accepted false)), .shutdown,
      .move 0 (.react (.accepted false))] rfl
  have hlate := (h _ hshutdown 0).1
  cases hlate

end Castrum.Decompress
