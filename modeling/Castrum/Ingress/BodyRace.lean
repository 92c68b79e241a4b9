import Castrum.Ingress.Body
import Castrum.Lib.Output
import Castrum.Lib.Runs

/-!
# Castrum — body reads that race (`src/ingress/body.ts`)

`readBodyWithLimit` as the environment drives it: chunks arrive, the body ends or fails, the watchdog
sweeps, the client disconnects, and between any two of these the reader may take a turn. A race is
decided by the first of its promises that settles; among those that have settled when it is entered,
by the first in the list, which is the read. A sweep is a timer, and runs when no continuation waits.

* `Call.step` — one event, and `Lawful` — what the read promises in every state;
* `Inv` — what the reader has taken so far is what has arrived so far;
* `readBody_lawful_iff` — the steps that keep the promise, in any run;
* `readBody_returns_error` — one that does not.
-/

namespace Castrum.BodyRace

/-! ## The watchdog -/

/-- The reads with a deadline: the identity of an entry, and `deadlineWall`. The interval timer runs
while there are any. -/
structure Watchdog where
  inflight : List (Nat × Nat)
  ticking : Bool
  ticking_iff : ticking = true ↔ inflight ≠ []

namespace Watchdog

def empty : Watchdog where
  inflight := []
  ticking := false
  ticking_iff := iff_of_false Bool.false_ne_true fun h => h rfl

/-- The timer is cleared when nothing is left. -/
def keep (w : Watchdog) (p : Nat × Nat → Bool) : Watchdog where
  inflight := w.inflight.filter p
  ticking := if w.inflight.filter p = [] then false else w.ticking
  ticking_iff := by
    by_cases h : w.inflight.filter p = []
    · simp [h]
    · rw [if_neg h, w.ticking_iff]
      refine iff_of_true ?_ h
      rintro hnil
      rw [hnil] at h
      exact h rfl

def track (w : Watchdog) (entry : Nat × Nat) : Watchdog where
  inflight := w.inflight ++ [entry]
  ticking := true
  ticking_iff := iff_of_true rfl (List.append_ne_nil_of_right_ne_nil _ (List.cons_ne_nil _ _))

def untrack (w : Watchdog) (id : Nat) : Watchdog := w.keep fun e => e.1 != id

/-- Every entry whose time has come is deleted and rejected. -/
def sweep (w : Watchdog) (now : Nat) : Watchdog := w.keep fun e => now < e.2

/-- The entry has its time come. -/
def Due (w : Watchdog) (id now : Nat) : Prop := ∃ e ∈ w.inflight, e.1 = id ∧ e.2 ≤ now

instance (w : Watchdog) (id now : Nat) : Decidable (w.Due id now) :=
  inferInstanceAs (Decidable (∃ e ∈ w.inflight, e.1 = id ∧ e.2 ≤ now))

def Tracks (w : Watchdog) (id : Nat) : Prop := ∃ e ∈ w.inflight, e.1 = id

instance (w : Watchdog) (id : Nat) : Decidable (w.Tracks id) :=
  inferInstanceAs (Decidable (∃ e ∈ w.inflight, e.1 = id))

theorem not_tracks_untrack (w : Watchdog) (id : Nat) : ¬ (w.untrack id).Tracks id := by
  rintro ⟨e, he, rfl⟩
  have hne := (List.mem_filter.mp he).2
  simp at hne

theorem Tracks.of_keep {w : Watchdog} {p : Nat × Nat → Bool} {id : Nat} (h : (w.keep p).Tracks id) :
    w.Tracks id := by
  obtain ⟨e, he, rfl⟩ := h
  exact ⟨e, List.mem_of_mem_filter he, rfl⟩

theorem Tracks.of_track {w : Watchdog} {e : Nat × Nat} {id : Nat} (h : (w.track e).Tracks id)
    (hne : e.1 ≠ id) : w.Tracks id := by
  obtain ⟨e', he', rfl⟩ := h
  rcases List.mem_append.mp he' with he' | he'
  · exact ⟨e', he', rfl⟩
  · rw [List.mem_singleton.mp he'] at hne
    exact absurd rfl hne

end Watchdog

/-! ## The reader -/

/-- What a promise is rejected with: an object, one that has a `byteLength`, or nothing. -/
inductive Reason where
  | error
  | sized (byteLength : Nat)
  | nullish
  deriving DecidableEq

/-- How the body stands. -/
inductive Ending where
  | open
  | closed
  | failed (r : Reason)
  deriving DecidableEq

/-- How `readBodyWithLimit` ends; `reason` is a value that another promise was rejected with. -/
inductive Exit where
  | bytes (b : Bytes)
  | reason (r : Reason)
  | rejected (e : BodyError)
  deriving DecidableEq

/-- What `reader.read()` settles with, or a guard in its place. -/
inductive StreamRead where
  | chunk (value : Option Bytes)
  | done
  | failed (e : BodyError)
  deriving DecidableEq

/-- Where the reader stands: it waits for a race, its race is decided, it waits for
`reader.cancel()`, or it has ended. -/
inductive Phase where
  | idle
  | whole
  | wholeWon (r : Except BodyError Bytes)
  | stream (total : Nat) (chunks : List Bytes)
  | streamWon (total : Nat) (chunks : List Bytes) (r : StreamRead)
  | cancelling (e : BodyError)
  | exited (x : Exit)

/-- A request and the arguments of the read; `declared` is `Number(..)` of its `content-length`, where
that is there and finite, `deadline` is `0` for none. -/
structure Call where
  declared : Option ℚ
  maxBytes : Nat
  guard : Bool
  deadline : Nat
  isBun : Bool
  hasBytes : Bool
  hasSignal : Bool
  isNull : Bool

/-- The chunks in the stream and all that were ever put there, the promise of the read in one piece,
the signal, the deadline, and the reader. -/
structure State where
  queue : List (Option Bytes)
  sent : List Bytes
  ending : Ending
  delivered : Bool
  aborted : Bool
  watchdog : Watchdog
  entry : Option Nat
  expired : Bool
  listening : Bool
  phase : Phase

/-- Before the call. A body that is `null` has nothing to come. -/
def Call.init (call : Call) (watchdog : Watchdog) : State where
  queue := []
  sent := []
  ending := if call.isNull then .closed else .open
  delivered := false
  aborted := false
  watchdog := watchdog
  entry := none
  expired := false
  listening := false
  phase := .idle

def concatFrom : List Bytes → Nat → Bytes → Bytes
  | [], _, out => out
  | chunk :: chunks, offset, out => concatFrom chunks (offset + chunk.length) (placed out offset chunk)

def concatUint8Arrays (chunks : List Bytes) (total : Nat) : Bytes :=
  match chunks with
  | [] => []
  | [chunk] => chunk
  | chunks => concatFrom chunks 0 (List.replicate total 0)

def State.exit (s : State) (x : Exit) : State := { s with phase := .exited x }

/-- `dl.cancel()` and `abort?.cancel()`. -/
def State.cleanup (s : State) : State :=
  { s with
    watchdog := match s.entry with
      | some id => s.watchdog.untrack id
      | none => s.watchdog
    listening := false }

/-- The guard of the size: `buffered.bytes.byteLength > maxBytes` is false without a `byteLength`. -/
def Call.exceeds (call : Call) (byteLength : Nat) : Bool := call.guard && call.maxBytes < byteLength

/-- A read that was rejected before `Bun.peek`. -/
def Call.peekedReason (call : Call) (r : Reason) : Exit :=
  match r with
  | .error => .reason r
  | .sized n => if call.exceeds n then .rejected .bodyTooLarge else .reason r
  | .nullish => if call.guard then .rejected .other else .reason r

def Call.checked (call : Call) (b : Bytes) : Exit :=
  if call.exceeds b.length then .rejected .bodyTooLarge else .bytes b

/-- `peekBufferedBody`: the exit of a read that had settled before, `none` for one to wait for. -/
def Call.peek (call : Call) (s : State) : Option Exit :=
  if call.isBun && call.hasBytes && s.delivered then
    match s.ending with
    | .open => none
    | .closed => some (call.checked s.sent.flatten)
    | .failed r => some (call.peekedReason r)
  else none

/-- What the promise of the read in one piece settles with. -/
def State.wholeRead (s : State) : Except BodyError Bytes :=
  match s.ending with
  | .failed _ => .error .other
  | _ => .ok s.sent.flatten

/-- `createDeadline` and `createAbortGuard`. -/
def Call.guards (call : Call) (s : State) (now id : Nat) : State :=
  { s with
    watchdog := if 0 < call.deadline then s.watchdog.track (id, now + call.deadline) else s.watchdog
    entry := if 0 < call.deadline then some id else none
    listening := call.hasSignal }

/-- `raceRead(reader.read(), guards)`: a chunk or an end that is there already wins, then the deadline,
then the signal. -/
def State.nextRead (s : State) (total : Nat) (chunks : List Bytes) : State :=
  match s.queue, s.ending with
  | value :: queue, _ => { s with queue, phase := .streamWon total chunks (.chunk value) }
  | [], .closed => { s with phase := .streamWon total chunks .done }
  | [], .failed _ => { s with phase := .streamWon total chunks (.failed .other) }
  | [], .open =>
    if s.expired then { s with phase := .streamWon total chunks (.failed .requestTimeout) }
    else if s.aborted then { s with phase := .streamWon total chunks (.failed .requestAborted) }
    else { s with phase := .stream total chunks }

/-- `readBodyWithLimit` up to its first `await`. -/
def Call.begin (call : Call) (s : State) (now id : Nat) : State :=
  if s.aborted then s.exit (.rejected .requestAborted)
  else
    match call.declared with
    | some declaredLen =>
      if call.guard && (call.maxBytes : ℚ) < declaredLen then s.exit (.rejected .bodyTooLarge)
      else
        match call.peek s with
        | some x => s.exit x
        | none =>
          let s := call.guards s now id
          { s with phase := if s.delivered then .wholeWon s.wholeRead else .whole }
    | none =>
      if call.isNull then s.exit (.bytes [])
      else (call.guards s now id).nextRead 0 []

/-- A guard settles: it wins a race that is open. -/
def State.interrupt (s : State) (e : BodyError) : State :=
  match s.phase with
  | .whole => { s with phase := .wholeWon (.error e) }
  | .stream total chunks => { s with phase := .streamWon total chunks (.failed e) }
  | _ => s

/-- The continuation behind a race that is decided. -/
def Call.turn (call : Call) (s : State) : Option State :=
  match s.phase with
  | .wholeWon (.error e) => some (s.cleanup.exit (.rejected e))
  | .wholeWon (.ok b) =>
    some (s.cleanup.exit (if s.aborted then .rejected .requestAborted else call.checked b))
  | .streamWon _ _ (.failed e) => some { s.cleanup with phase := .cancelling e }
  | .streamWon total chunks .done => some (s.cleanup.exit (.bytes (concatUint8Arrays chunks total)))
  | .streamWon total chunks (.chunk none) => some (s.nextRead total chunks)
  | .streamWon total chunks (.chunk (some value)) =>
    if call.exceeds (total + value.length) then
      some { s.cleanup with phase := .cancelling .bodyTooLarge }
    else some (s.nextRead (total + value.length) (chunks ++ [value]))
  | _ => none

inductive Event where
  | start (now id : Nat)
  | chunk (value : Option Bytes)
  | close
  | fail (r : Reason)
  | deliver
  | sweep (now : Nat)
  | abort
  | turn
  | cancelled
  | track (id deadlineWall : Nat)
  | untrack (id : Nat)

/-- The reader has ended. What comes later is not its own. -/
def State.ended (s : State) : Bool :=
  match s.phase with
  | .exited _ => true
  | _ => false

/-- A continuation is queued. -/
def State.resuming (s : State) : Bool :=
  match s.phase with
  | .wholeWon _ | .streamWon _ _ _ => true
  | _ => false

def State.receive (s : State) (value : Option Bytes) : State :=
  let s := { s with sent := s.sent ++ value.toList }
  match s.phase with
  | .stream total chunks => { s with phase := .streamWon total chunks (.chunk value) }
  | _ => { s with queue := s.queue ++ [value] }

def State.close (s : State) : State :=
  let s := { s with ending := .closed }
  match s.phase with
  | .stream total chunks => { s with phase := .streamWon total chunks .done }
  | _ => s

/-- An error discards the chunks that wait in the stream. -/
def State.fail (s : State) (r : Reason) : State :=
  let s := { s with ending := .failed r, queue := [] }
  match s.phase with
  | .stream total chunks => { s with phase := .streamWon total chunks (.failed .other) }
  | _ => s

def State.deliver (s : State) : State :=
  let s := { s with delivered := true }
  match s.phase with
  | .whole => { s with phase := .wholeWon s.wholeRead }
  | _ => s

def State.sweep (s : State) (now : Nat) : State :=
  match s.entry with
  | some id =>
    if s.watchdog.Due id now then
      { s with watchdog := s.watchdog.sweep now, expired := true }.interrupt .requestTimeout
    else { s with watchdog := s.watchdog.sweep now }
  | none => { s with watchdog := s.watchdog.sweep now }

/-- The listener was added with `once`. -/
def State.abort (s : State) : State :=
  if s.listening then { s with aborted := true, listening := false }.interrupt .requestAborted
  else { s with aborted := true }

/-- One event of the environment, or one turn of the reader. Other reads have entries of their own. -/
def Call.step (call : Call) (s : State) (e : Event) : Option State :=
  if s.ended then none
  else
    match e with
    | .start now id =>
      match s.phase with
      | .idle => if s.watchdog.Tracks id then none else some (call.begin s now id)
      | _ => none
    | .chunk value => if s.ending = .open then some (s.receive value) else none
    | .close => if s.ending = .open then some s.close else none
    | .fail r => if s.ending = .open then some (s.fail r) else none
    | .deliver => if s.ending ≠ .open ∧ s.delivered = false then some s.deliver else none
    | .sweep now => if s.watchdog.ticking ∧ s.resuming = false then some (s.sweep now) else none
    | .abort => if call.hasSignal ∧ s.aborted = false then some s.abort else none
    | .turn => call.turn s
    | .cancelled =>
      match s.phase with
      | .cancelling e => some (s.exit (.rejected e))
      | _ => none
    | .track id deadlineWall =>
      if s.watchdog.Tracks id ∨ s.entry = some id then none
      else some { s with watchdog := s.watchdog.track (id, deadlineWall) }
    | .untrack id =>
      if s.entry = some id then none else some { s with watchdog := s.watchdog.untrack id }

/-! ## The promise -/

/-- The deadline entry is untracked and the abort listener removed. -/
def State.Cleaned (s : State) : Prop :=
  (∀ id, s.entry = some id → ¬ s.watchdog.Tracks id) ∧ s.listening = false

/-- What is returned is the whole body, within the limit, of a read that did not fail, whose deadline
did not pass and whose signal was not aborted; nothing else is returned; and an exit cleans up. -/
structure Lawful (call : Call) (s : State) : Prop where
  bytes : ∀ b, s.phase = .exited (.bytes b) → s.ending = .closed ∧ b = s.sent.flatten ∧
    b.length ≤ call.maxBytes ∧ s.expired = false ∧ s.aborted = false
  reason : ∀ r, s.phase ≠ .exited (.reason r)
  cleaned : s.ended = true → s.Cleaned

/-- On Bun, the read in one piece has already been rejected when it is peeked at, with a reason that has
no `byteLength` beyond the limit. -/
def Call.PeeksRejected (call : Call) (s : State) : Prop :=
  s.aborted = false ∧ (∃ n, call.declared = some n ∧ n ≤ call.maxBytes) ∧ call.isBun = true ∧
    call.hasBytes = true ∧ s.delivered = true ∧
    ∃ r, s.ending = .failed r ∧ (r = .error ∨ ∃ n ≤ call.maxBytes, r = .sized n)

/-- The step is neither a call that peeks at a rejected read nor the turn in which a stream read takes the
end of the body after the signal was aborted. -/
def Call.Calm (call : Call) (s : State) (e : Event) : Prop :=
  match e with
  | .start _ _ => ¬ call.PeeksRejected s
  | .turn => ∀ total chunks, s.phase = .streamWon total chunks .done → s.aborted = false
  | _ => True

/-! ## The invariant -/

/-- The bytes that wait in the stream. -/
def State.waiting (s : State) : Bytes := (s.queue.filterMap id).flatten

/-- What the reader has taken, what it takes next and what waits are what was sent, unless the stream has
failed. -/
structure Reading (call : Call) (s : State) (total : Nat) (chunks : List Bytes) (next : Bytes) :
    Prop where
  length : chunks.flatten.length = total
  limit : total ≤ call.maxBytes
  expired : s.expired = false
  sent : (∀ r, s.ending ≠ .failed r) → chunks.flatten ++ (next ++ s.waiting) = s.sent.flatten

/-- What holds in each phase. -/
def Call.Sound (call : Call) (s : State) : Prop :=
  match s.phase with
  | .idle => s.entry = none ∧ s.listening = false ∧ Reading call s 0 [] []
  | .whole => s.expired = false
  | .wholeWon (.ok b) => s.ending = .closed ∧ b = s.sent.flatten ∧ s.expired = false
  | .stream total chunks => Reading call s total chunks [] ∧ s.queue = [] ∧ s.ending = .open
  | .streamWon total chunks (.chunk value) => Reading call s total chunks (value.getD [])
  | .streamWon total chunks .done => Reading call s total chunks [] ∧ s.queue = [] ∧ s.ending = .closed
  | .cancelling _ => s.Cleaned
  | _ => True

structure Inv (call : Call) (s : State) : Prop where
  delivered : s.delivered = true → s.ending ≠ .open
  null : call.isNull = true → s.ending = .closed ∧ s.sent = []
  sound : call.Sound s

/-! ## Pieces in one array -/

theorem concatFrom_eq (chunks : List Bytes) {offset : Nat} {out : Bytes}
    (h : offset + chunks.flatten.length ≤ out.length) :
    concatFrom chunks offset out = placed out offset chunks.flatten := by
  induction chunks generalizing offset out with
  | nil => rw [concatFrom, List.flatten_nil, placed_nil]
  | cons chunk chunks ih =>
    rw [List.flatten_cons, List.length_append] at h
    have hlength : (placed out offset chunk).length = out.length := length_placed (by omega)
    rw [concatFrom, ih (by omega), placed_placed (by omega), List.flatten_cons]

theorem concatUint8Arrays_eq {chunks : List Bytes} {total : Nat}
    (h : chunks.flatten.length = total) : concatUint8Arrays chunks total = chunks.flatten := by
  unfold concatUint8Arrays
  split
  · rfl
  · rw [List.flatten_singleton]
  · rw [concatFrom_eq _ (by rw [List.length_replicate]; omega), placed, List.take_zero,
      List.drop_of_length_le (by rw [List.length_replicate]; omega), List.nil_append,
      List.append_nil]

/-! ## One step -/

section

variable {call : Call} {s t : State} {total : Nat} {chunks : List Bytes} {next : Bytes}

theorem filterMap_flatten_cons (value : Option Bytes) (queue : List (Option Bytes)) :
    ((value :: queue).filterMap id).flatten = value.getD [] ++ (queue.filterMap id).flatten := by
  cases value <;> rfl

theorem filterMap_flatten_concat (value : Option Bytes) (queue : List (Option Bytes)) :
    ((queue ++ [value]).filterMap id).flatten = (queue.filterMap id).flatten ++ value.getD [] := by
  rw [List.filterMap_append, List.flatten_append]
  cases value with
  | none => rfl
  | some b => exact congrArg _ List.flatten_singleton

theorem flatten_append_toList (sent : List Bytes) (value : Option Bytes) :
    (sent ++ value.toList).flatten = sent.flatten ++ value.getD [] := by
  rw [List.flatten_append]
  cases value with
  | none => rfl
  | some b => exact congrArg _ List.flatten_singleton

/-- The next read takes what the reader takes next. -/
theorem nextRead_sound (h : Reading call s total chunks []) :
    call.Sound (s.nextRead total chunks) := by
  unfold State.nextRead
  split
  · next value queue _ hqueue =>
    refine ⟨h.length, h.limit, h.expired, fun hfailed => ?_⟩
    have hsent := h.sent hfailed
    rw [State.waiting, hqueue, filterMap_flatten_cons] at hsent
    exact hsent
  · next hqueue hending => exact ⟨⟨h.length, h.limit, h.expired, h.sent⟩, hqueue, hending⟩
  · trivial
  · next hqueue hending =>
    rw [if_neg (Bool.not_eq_true _ ▸ h.expired)]
    split
    · trivial
    · exact ⟨⟨h.length, h.limit, h.expired, h.sent⟩, hqueue, hending⟩

theorem nextRead_frame (s : State) (total : Nat) (chunks : List Bytes) :
    (s.nextRead total chunks).ending = s.ending ∧ (s.nextRead total chunks).sent = s.sent ∧
      (s.nextRead total chunks).delivered = s.delivered ∧
      (s.nextRead total chunks).ended = false := by
  unfold State.nextRead
  split
  · exact ⟨rfl, rfl, rfl, rfl⟩
  · exact ⟨rfl, rfl, rfl, rfl⟩
  · exact ⟨rfl, rfl, rfl, rfl⟩
  · split
    · exact ⟨rfl, rfl, rfl, rfl⟩
    · split
      · exact ⟨rfl, rfl, rfl, rfl⟩
      · exact ⟨rfl, rfl, rfl, rfl⟩

/-- A guard that settles ends no read with a body. -/
theorem interrupt_sound {e : BodyError} (h : call.Sound s) : call.Sound (s.interrupt e) := by
  unfold State.interrupt
  split
  · trivial
  · trivial
  · exact h

theorem cleanup_cleaned (s : State) : s.cleanup.Cleaned := by
  refine ⟨fun id hid => ?_, rfl⟩
  have hid : s.entry = some id := hid
  show ¬ (match s.entry with
    | some id => s.watchdog.untrack id
    | none => s.watchdog).Tracks id
  rw [hid]
  exact s.watchdog.not_tracks_untrack id

theorem Reading.frame (h : Reading call s total chunks next) (hqueue : t.queue = s.queue)
    (hsent : t.sent = s.sent) (hending : t.ending = s.ending) (hexpired : t.expired = s.expired) :
    Reading call t total chunks next where
  length := h.length
  limit := h.limit
  expired := hexpired.trans h.expired
  sent := by rw [hending, State.waiting, hqueue, hsent]; exact h.sent

/-- What the reader relies on is in these fields, a cleaned entry does not come back, and nothing
arrives in a body that has ended or that a race waits for. -/
theorem Sound.moves (h : call.Sound s) (hphase : t.phase = s.phase) (hexpired : t.expired = s.expired)
    (hreading : ∀ {total chunks next}, Reading call s total chunks next →
      Reading call t total chunks next)
    (hsettled : (s.ending = .open → ∃ total chunks, s.phase = .stream total chunks) →
      t.queue = s.queue ∧ t.sent = s.sent ∧ t.ending = s.ending)
    (hentry : t.entry = s.entry)
    (htracks : ∀ id, s.entry = some id → t.watchdog.Tracks id → s.watchdog.Tracks id)
    (hlistening : s.listening = false → t.listening = false) : call.Sound t := by
  unfold Call.Sound at h ⊢
  rw [hphase]
  -- Each phase relies on some of the fields only, and those are the ones the hypotheses keep.
  cases hs : s.phase with
  | idle =>
    simp only [hs] at h ⊢
    exact ⟨hentry.trans h.1, hlistening h.2.1, hreading h.2.2⟩
  | whole =>
    simp only [hs] at h ⊢
    exact hexpired.trans h
  | wholeWon r =>
    cases r with
    | error e => trivial
    | ok b =>
      simp only [hs] at h ⊢
      obtain ⟨-, hsent, hending⟩ := hsettled fun hopen => nomatch hopen.symm.trans h.1
      exact ⟨hending.trans h.1, hsent ▸ h.2.1, hexpired.trans h.2.2⟩
  | stream total chunks =>
    simp only [hs] at h ⊢
    obtain ⟨hqueue, -, hending⟩ := hsettled fun _ => ⟨total, chunks, hs⟩
    exact ⟨hreading h.1, hqueue.trans h.2.1, hending.trans h.2.2⟩
  | streamWon total chunks r =>
    cases r with
    | chunk value =>
      simp only [hs] at h ⊢
      exact hreading h
    | done =>
      simp only [hs] at h ⊢
      obtain ⟨hqueue, -, hending⟩ := hsettled fun hopen => nomatch hopen.symm.trans h.2.2
      exact ⟨hreading h.1, hqueue.trans h.2.1, hending.trans h.2.2⟩
    | failed e => trivial
  | cancelling e =>
    simp only [hs] at h ⊢
    exact ⟨fun id hid htrack => h.1 id (hentry ▸ hid) (htracks id (hentry ▸ hid) htrack),
      hlistening h.2⟩
  | exited x => trivial

theorem Sound.frame (h : call.Sound s) (hphase : t.phase = s.phase) (hqueue : t.queue = s.queue)
    (hsent : t.sent = s.sent) (hending : t.ending = s.ending) (hexpired : t.expired = s.expired)
    (hentry : t.entry = s.entry)
    (htracks : ∀ id, s.entry = some id → t.watchdog.Tracks id → s.watchdog.Tracks id)
    (hlistening : s.listening = false → t.listening = false) : call.Sound t :=
  Sound.moves h hphase hexpired (fun h => h.frame hqueue hsent hending hexpired)
    (fun _ => ⟨hqueue, hsent, hending⟩) hentry htracks hlistening

/-- What arrives where no race waits for it. -/
theorem Sound.arrives (h : call.Sound s) (hopen : s.ending = .open)
    (hidle : ∀ total chunks, s.phase = .stream total chunks → False) {queue sent ending}
    (hreading : ∀ {total chunks next}, Reading call s total chunks next →
      Reading call { s with queue, sent, ending } total chunks next) :
    call.Sound { s with queue, sent, ending } :=
  Sound.moves h rfl rfl hreading (fun hs => (hs hopen).elim fun _ hc => hc.elim fun _ hp => (hidle _ _ hp).elim)
    rfl (fun _ _ htrack => htrack) fun hl => hl

/-- A chunk that arrives is taken by the race that waits for it, or waits itself. -/
theorem receive_sound {value : Option Bytes} (h : call.Sound s) (hopen : s.ending = .open) :
    call.Sound (s.receive value) := by
  have hreading : ∀ {total chunks next}, Reading call s total chunks next →
      chunks.flatten ++ (next ++ ((s.queue ++ [value]).filterMap id).flatten) =
        (s.sent ++ value.toList).flatten := by
    intro total chunks next h
    have hsent := h.sent fun r hr => nomatch hopen.symm.trans hr
    rw [filterMap_flatten_concat, flatten_append_toList, ← hsent, List.append_assoc,
      List.append_assoc]
    rfl
  unfold State.receive
  dsimp only
  split
  · next total chunks hphase =>
    unfold Call.Sound at h ⊢
    simp only [hphase] at h ⊢
    obtain ⟨h, hqueue, -⟩ := h
    have hsent := hreading h
    rw [hqueue, List.nil_append, List.nil_append, filterMap_flatten_cons] at hsent
    refine ⟨h.length, h.limit, h.expired, fun _ => ?_⟩
    rw [State.waiting, hqueue]
    exact hsent
  · next hidle =>
    exact Sound.arrives h hopen hidle fun h => ⟨h.length, h.limit, h.expired, fun _ => hreading h⟩

/-- The race that waits is won by the end; elsewhere the end is seen by the next one. -/
theorem close_sound (h : call.Sound s) (hopen : s.ending = .open) : call.Sound s.close := by
  have hsent : ∀ {total chunks next}, Reading call s total chunks next →
      chunks.flatten ++ (next ++ s.waiting) = s.sent.flatten :=
    fun h => h.sent fun r hr => nomatch hopen.symm.trans hr
  unfold State.close
  dsimp only
  split
  · next total chunks hphase =>
    unfold Call.Sound at h ⊢
    simp only [hphase] at h ⊢
    obtain ⟨h, hqueue, -⟩ := h
    exact ⟨⟨h.length, h.limit, h.expired, fun _ => hsent h⟩, hqueue, trivial⟩
  · next hidle =>
    exact Sound.arrives h hopen hidle fun h => ⟨h.length, h.limit, h.expired, fun _ => hsent h⟩

theorem fail_sound {r : Reason} (h : call.Sound s) (hopen : s.ending = .open) :
    call.Sound (s.fail r) := by
  unfold State.fail
  dsimp only
  split
  · trivial
  · next hidle =>
    exact Sound.arrives h hopen hidle fun h =>
      ⟨h.length, h.limit, h.expired, fun hne => absurd rfl (hne r)⟩

theorem wholeRead_sound (hopen : s.ending ≠ .open) (hexpired : s.expired = false) :
    call.Sound { s with phase := .wholeWon s.wholeRead } := by
  unfold Call.Sound State.wholeRead
  cases hending : s.ending with
  | «open» => exact absurd hending hopen
  | closed => exact ⟨rfl, rfl, hexpired⟩
  | failed r => trivial

theorem deliver_sound (h : call.Sound s) (hopen : s.ending ≠ .open) : call.Sound s.deliver := by
  unfold State.deliver
  dsimp only
  split
  · next hphase =>
    refine wholeRead_sound (s := { s with delivered := true }) hopen ?_
    unfold Call.Sound at h
    simp only [hphase] at h
    exact h
  · exact Sound.frame h rfl rfl rfl rfl rfl rfl (fun _ _ htrack => htrack) (fun hl => hl)

/-- The time of an entry that is there comes while the reader waits, and the race is lost. -/
theorem sweep_sound {now : Nat} (h : call.Sound s) (hresuming : s.resuming = false) :
    call.Sound (s.sweep now) := by
  have hkept : call.Sound { s with watchdog := s.watchdog.sweep now } :=
    Sound.frame h rfl rfl rfl rfl rfl rfl (fun _ _ htrack => htrack.of_keep) (fun hl => hl)
  unfold State.sweep
  split
  · next id hentry =>
    split
    · unfold State.resuming at hresuming
      unfold Call.Sound at hkept
      unfold Call.Sound State.interrupt
      cases hphase : s.phase with
      | idle =>
        simp only [hphase] at hkept
        exact nomatch hentry.symm.trans hkept.1
      | whole => trivial
      | wholeWon r =>
        simp only [hphase] at hresuming
        exact nomatch hresuming
      | stream total chunks => trivial
      | streamWon total chunks r =>
        simp only [hphase] at hresuming
        exact nomatch hresuming
      | cancelling e =>
        simp only [hphase] at hkept ⊢
        exact hkept
      | exited x => trivial
    · exact hkept
  · exact hkept

theorem abort_sound (h : call.Sound s) : call.Sound s.abort := by
  unfold State.abort
  split
  · exact interrupt_sound
      (Sound.frame h rfl rfl rfl rfl rfl rfl (fun _ _ htrack => htrack) fun _ => rfl)
  · exact Sound.frame h rfl rfl rfl rfl rfl rfl (fun _ _ htrack => htrack) (fun hl => hl)

/-- The guards are set up around a read that has not begun. -/
theorem guards_reading {now id : Nat} (h : Reading call s total chunks next) :
    Reading call (call.guards s now id) total chunks next :=
  h.frame rfl rfl rfl rfl

/-- Up to the first `await`. -/
theorem begin_sound {now id : Nat} (hidle : Reading call s 0 [] [])
    (hdelivered : s.delivered = true → s.ending ≠ .open) : call.Sound (call.begin s now id) := by
  unfold Call.begin
  split
  · trivial
  · split
    · split
      · trivial
      · split
        · trivial
        · dsimp only
          split
          · next hdel =>
            exact wholeRead_sound (s := call.guards s now id) (hdelivered hdel) hidle.expired
          · exact hidle.expired
    · split
      · trivial
      · exact nextRead_sound (guards_reading hidle)

/-- A turn keeps to what was sent: a chunk that is taken goes to the end of what was taken before. -/
theorem turn_sound (hguard : call.guard = true) (h : call.Sound s) (hturn : call.turn s = some t) :
    call.Sound t := by
  unfold Call.turn at hturn
  unfold Call.Sound at h
  -- One case for each phase, in the order of `turn`.
  split at hturn
  · cases hturn
    trivial
  · cases hturn
    trivial
  · cases hturn
    exact cleanup_cleaned s
  · cases hturn
    trivial
  · next total chunks hphase =>
    cases hturn
    simp only [hphase] at h
    exact nextRead_sound h
  · next total chunks value hphase =>
    simp only [hphase] at h
    split at hturn
    · cases hturn
      exact cleanup_cleaned s
    · next hfits =>
      cases hturn
      rw [Call.exceeds, hguard, Bool.true_and, decide_eq_true_iff, Nat.not_lt] at hfits
      refine nextRead_sound ⟨?_, hfits, h.expired, fun hne => ?_⟩
      · rw [List.flatten_append, List.length_append, h.length, List.flatten_singleton]
      · rw [List.flatten_append, List.flatten_singleton, List.append_assoc]
        exact h.sent hne
  · exact nomatch hturn

/-- Steps that leave the body as it is. -/
def SameBody (s t : State) : Prop :=
  t.ending = s.ending ∧ t.sent = s.sent ∧ t.delivered = s.delivered

theorem nextRead_sameBody (s : State) (total : Nat) (chunks : List Bytes) :
    SameBody s (s.nextRead total chunks) :=
  have h := nextRead_frame s total chunks
  ⟨h.1, h.2.1, h.2.2.1⟩

theorem interrupt_sameBody (s : State) (e : BodyError) : SameBody s (s.interrupt e) := by
  unfold State.interrupt
  split
  · exact ⟨rfl, rfl, rfl⟩
  · exact ⟨rfl, rfl, rfl⟩
  · exact ⟨rfl, rfl, rfl⟩

theorem interrupt_ended (s : State) (e : BodyError) : (s.interrupt e).ended = s.ended := by
  unfold State.interrupt State.ended
  cases hphase : s.phase with
  | _ => simp only [hphase]

theorem begin_sameBody (call : Call) (s : State) (now id : Nat) :
    SameBody s (call.begin s now id) := by
  unfold Call.begin
  split
  · exact ⟨rfl, rfl, rfl⟩
  · split
    · split
      · exact ⟨rfl, rfl, rfl⟩
      · split
        · exact ⟨rfl, rfl, rfl⟩
        · exact ⟨rfl, rfl, rfl⟩
    · split
      · exact ⟨rfl, rfl, rfl⟩
      · exact nextRead_sameBody (call.guards s now id) 0 []

theorem turn_sameBody (hturn : call.turn s = some t) : SameBody s t := by
  unfold Call.turn at hturn
  split at hturn
  · cases hturn
    exact ⟨rfl, rfl, rfl⟩
  · cases hturn
    exact ⟨rfl, rfl, rfl⟩
  · cases hturn
    exact ⟨rfl, rfl, rfl⟩
  · cases hturn
    exact ⟨rfl, rfl, rfl⟩
  · cases hturn
    exact nextRead_sameBody s _ _
  · split at hturn
    · cases hturn
      exact ⟨rfl, rfl, rfl⟩
    · cases hturn
      exact nextRead_sameBody s _ _
  · exact nomatch hturn

theorem sweep_frame (s : State) (now : Nat) :
    SameBody s (s.sweep now) ∧ (s.sweep now).ended = s.ended := by
  unfold State.sweep
  split
  · split
    · exact ⟨interrupt_sameBody _ _, interrupt_ended _ _⟩
    · exact ⟨⟨rfl, rfl, rfl⟩, rfl⟩
  · exact ⟨⟨rfl, rfl, rfl⟩, rfl⟩

theorem abort_frame (s : State) : SameBody s s.abort ∧ s.abort.ended = s.ended := by
  unfold State.abort
  split
  · exact ⟨interrupt_sameBody _ _, interrupt_ended _ _⟩
  · exact ⟨⟨rfl, rfl, rfl⟩, rfl⟩

theorem Inv.of_sameBody (h : Inv call s) (hbody : SameBody s t) (hsound : call.Sound t) :
    Inv call t where
  delivered hdelivered := hbody.1 ▸ h.delivered (hbody.2.2 ▸ hdelivered)
  null hnull := ⟨hbody.1.trans (h.null hnull).1, hbody.2.1.trans (h.null hnull).2⟩
  sound := hsound

/-- A body that is still open is not `null`, and its read has not settled. -/
theorem Inv.of_open (h : Inv call s) (hopen : s.ending = .open) :
    s.delivered = false ∧ call.isNull = false := by
  refine ⟨?_, ?_⟩
  · rw [Bool.eq_false_iff]
    exact fun hdelivered => h.delivered hdelivered hopen
  · rw [Bool.eq_false_iff]
    exact fun hnull => nomatch hopen.symm.trans (h.null hnull).1

theorem receive_frame (s : State) (value : Option Bytes) :
    (s.receive value).ending = s.ending ∧ (s.receive value).delivered = s.delivered ∧
      (s.receive value).ended = s.ended := by
  unfold State.receive State.ended
  cases hphase : s.phase with
  | _ => simp only [and_self]

theorem close_frame (s : State) :
    s.close.ending = .closed ∧ s.close.sent = s.sent ∧ s.close.ended = s.ended := by
  unfold State.close State.ended
  cases hphase : s.phase with
  | _ => simp only [and_self]

theorem fail_frame (s : State) (r : Reason) :
    (s.fail r).ending = .failed r ∧ (s.fail r).ended = s.ended := by
  unfold State.fail State.ended
  cases hphase : s.phase with
  | _ => simp only [and_self]

theorem deliver_frame (s : State) :
    s.deliver.ending = s.ending ∧ s.deliver.sent = s.sent ∧ s.deliver.ended = s.ended := by
  unfold State.deliver State.ended
  cases hphase : s.phase with
  | _ => simp only [and_self]

/-- A read that has not begun has nothing to clean up. -/
theorem Inv.idle (h : Inv call s) (hidle : s.phase = .idle) :
    s.entry = none ∧ s.listening = false ∧ Reading call s 0 [] [] := by
  have hsound := h.sound
  unfold Call.Sound at hsound
  simp only [hidle] at hsound
  exact hsound

/-- **One step.** -/
theorem step_inv {e : Event} (hguard : call.guard = true) (h : Inv call s)
    (hstep : call.step s e = some t) : Inv call t := by
  unfold Call.step at hstep
  split at hstep
  · exact nomatch hstep
  -- `chunk`, `close`, `fail` and `deliver` change what has arrived; the others leave the body alone
  cases e with
  | start now id =>
    dsimp only at hstep
    split at hstep
    · next hidle =>
      obtain ⟨-, hstep⟩ := Option.ite_none_left_eq_some.mp hstep
      cases hstep
      exact h.of_sameBody (begin_sameBody call s now id) (begin_sound (h.idle hidle).2.2 h.delivered)
    · exact nomatch hstep
  | chunk value =>
    obtain ⟨hopen, rfl⟩ := guard_eq_some hstep
    obtain ⟨hdelivered, hnull⟩ := h.of_open hopen
    have hframe := receive_frame s value
    exact ⟨fun hd => (nomatch (hframe.2.1.trans hdelivered).symm.trans hd),
      fun hn => (nomatch hnull.symm.trans hn), receive_sound h.sound hopen⟩
  | close =>
    obtain ⟨hopen, rfl⟩ := guard_eq_some hstep
    have hending := (close_frame s).1
    exact ⟨fun _ hopen' => (nomatch hending.symm.trans hopen'),
      fun hn => (nomatch (h.of_open hopen).2.symm.trans hn), close_sound h.sound hopen⟩
  | fail r =>
    obtain ⟨hopen, rfl⟩ := guard_eq_some hstep
    have hending := (fail_frame s r).1
    exact ⟨fun _ hopen' => (nomatch hending.symm.trans hopen'),
      fun hn => (nomatch (h.of_open hopen).2.symm.trans hn), fail_sound h.sound hopen⟩
  | deliver =>
    obtain ⟨⟨hopen, -⟩, rfl⟩ := guard_eq_some hstep
    obtain ⟨hending, hsent, -⟩ := deliver_frame s
    exact ⟨fun _ => hending ▸ hopen,
      fun hn => ⟨hending.trans (h.null hn).1, hsent.trans (h.null hn).2⟩,
      deliver_sound h.sound hopen⟩
  | sweep now =>
    obtain ⟨⟨-, hresuming⟩, rfl⟩ := guard_eq_some hstep
    exact h.of_sameBody (sweep_frame s now).1 (sweep_sound h.sound hresuming)
  | abort =>
    obtain ⟨-, rfl⟩ := guard_eq_some hstep
    exact h.of_sameBody (abort_frame s).1 (abort_sound h.sound)
  | turn => exact h.of_sameBody (turn_sameBody hstep) (turn_sound hguard h.sound hstep)
  | cancelled =>
    dsimp only at hstep
    split at hstep
    · cases hstep
      exact h.of_sameBody ⟨rfl, rfl, rfl⟩ trivial
    · exact nomatch hstep
  | track id deadlineWall =>
    obtain ⟨hother, hstep⟩ := Option.ite_none_left_eq_some.mp hstep
    cases hstep
    refine h.of_sameBody ⟨rfl, rfl, rfl⟩ (Sound.frame h.sound rfl rfl rfl rfl rfl rfl ?_ fun hl => hl)
    rintro id' hid' htrack
    refine htrack.of_track ?_
    rintro rfl
    exact hother (.inr hid')
  | untrack id =>
    obtain ⟨-, hstep⟩ := Option.ite_none_left_eq_some.mp hstep
    cases hstep
    exact h.of_sameBody ⟨rfl, rfl, rfl⟩
      (Sound.frame h.sound rfl rfl rfl rfl rfl rfl (fun _ _ htrack => htrack.of_keep) fun hl => hl)

theorem init_inv (call : Call) (watchdog : Watchdog) : Inv call (call.init watchdog) where
  delivered h := nomatch h
  null h := ⟨if_pos h, rfl⟩
  sound := ⟨rfl, rfl, rfl, Nat.zero_le _, rfl, fun _ => rfl⟩

end

/-! ## Exits -/

section

variable {call : Call} {s t : State}

/-- What a read may end with. -/
def Call.Allows (call : Call) (s : State) : Exit → Prop
  | .bytes b => s.ending = .closed ∧ b = s.sent.flatten ∧ b.length ≤ call.maxBytes ∧
      s.expired = false ∧ s.aborted = false
  | .reason _ => False
  | .rejected _ => True

theorem lawful_of_not_ended (h : s.ended = false) : Lawful call s where
  bytes b hb := by rw [State.ended, hb] at h; exact nomatch h
  reason r hr := by rw [State.ended, hr] at h; exact nomatch h
  cleaned hended := nomatch h.symm.trans hended

theorem lawful_exit {x : Exit} (h : s.Cleaned) : Lawful call (s.exit x) ↔ call.Allows s x := by
  cases x with
  | bytes b =>
    refine ⟨fun hl => hl.bytes b rfl, fun hl => ⟨?_, fun r hr => (nomatch hr), fun _ => h⟩⟩
    rintro b' hb'
    cases hb'
    exact hl
  | reason r => exact iff_of_false (fun hl => hl.reason r rfl) id
  | rejected e =>
    exact iff_of_true ⟨fun b hb => (nomatch hb), fun r hr => (nomatch hr), fun _ => h⟩ trivial

theorem checked_allows {b : Bytes} (hguard : call.guard = true)
    (h : s.ending = .closed ∧ b = s.sent.flatten ∧ s.expired = false ∧ s.aborted = false) :
    call.Allows s (call.checked b) := by
  unfold Call.checked
  split
  · trivial
  · next hfits =>
    rw [Call.exceeds, hguard, Bool.true_and, decide_eq_true_iff, Nat.not_lt] at hfits
    exact ⟨h.1, h.2.1, hfits, h.2.2⟩

/-- A rejection that is not noticed is a return, unless the guard of the size notices it. -/
theorem peekedReason_allows {r : Reason} (hguard : call.guard = true) :
    call.Allows s (call.peekedReason r) ↔
      ¬ (r = .error ∨ ∃ n ≤ call.maxBytes, r = .sized n) := by
  cases r with
  | error => exact iff_of_false id (not_not_intro (.inl rfl))
  | sized n =>
    unfold Call.peekedReason Call.exceeds
    dsimp only
    rw [hguard, Bool.true_and]
    by_cases hn : n ≤ call.maxBytes
    · rw [if_neg (by simpa using hn)]
      exact iff_of_false id (not_not_intro (.inr ⟨n, hn, rfl⟩))
    · rw [if_pos (by simpa using hn)]
      refine iff_of_true trivial ?_
      rintro (h | ⟨n', hn', h⟩)
      · exact nomatch h
      · cases h
        exact hn hn'
  | nullish =>
    unfold Call.peekedReason
    rw [hguard]
    refine iff_of_true trivial ?_
    rintro (h | ⟨n, -, h⟩)
    · exact nomatch h
    · exact nomatch h

/-- The reason of a rejected read is all that `Bun.peek` may put in the place of the body. -/
theorem peek_allows {x : Exit} {n : ℚ} (hguard : call.guard = true) (haborted : s.aborted = false)
    (hexpired : s.expired = false) (hdeclared : call.declared = some n) (hn : n ≤ call.maxBytes)
    (h : call.peek s = some x) : call.Allows s x ↔ ¬ call.PeeksRejected s := by
  unfold Call.peek at h
  split at h
  · next hpeeks =>
    rw [Bool.and_eq_true, Bool.and_eq_true] at hpeeks
    split at h
    · exact nomatch h
    · next hending =>
      cases h
      refine iff_of_true (checked_allows hguard ⟨hending, rfl, hexpired, haborted⟩) ?_
      rintro ⟨-, -, -, -, -, r, hr, -⟩
      exact nomatch hending.symm.trans hr
    · next r hending =>
      cases h
      rw [peekedReason_allows hguard]
      refine not_congr ⟨fun hr => ?_, ?_⟩
      · exact ⟨haborted, ⟨n, hdeclared, hn⟩, hpeeks.1.1, hpeeks.1.2, hpeeks.2, r, hending, hr⟩
      · rintro ⟨-, -, -, -, -, r', hr', hreason⟩
        cases hending.symm.trans hr'
        exact hreason
  · exact nomatch h

/-- A rejected read that is there is peeked at. -/
theorem peek_ne_none (h : call.PeeksRejected s) : call.peek s ≠ none := by
  obtain ⟨-, -, hbun, hbytes, hdelivered, r, hr, -⟩ := h
  unfold Call.peek
  rw [hbun, hbytes, hdelivered, hr]
  exact fun hnone => nomatch hnone

theorem begin_lawful_iff {now id : Nat} (hguard : call.guard = true) (h : Inv call s)
    (hidle : s.phase = .idle) :
    Lawful call (call.begin s now id) ↔ ¬ call.PeeksRejected s := by
  obtain ⟨hentry, hlistening, hreading⟩ := h.idle hidle
  have hcleaned : s.Cleaned := ⟨fun id hid => (nomatch hentry.symm.trans hid), hlistening⟩
  unfold Call.begin
  split
  · next haborted =>
    refine iff_of_true ((lawful_exit hcleaned).mpr trivial) ?_
    rintro ⟨hnot, -⟩
    exact nomatch haborted.symm.trans hnot
  · next haborted =>
    rw [Bool.not_eq_true] at haborted
    split
    · next n hdeclared =>
      rw [hguard, Bool.true_and]
      split
      · next hn =>
        rw [decide_eq_true_iff] at hn
        refine iff_of_true ((lawful_exit hcleaned).mpr trivial) ?_
        rintro ⟨-, ⟨n', hn', hle⟩, -⟩
        cases hdeclared.symm.trans hn'
        exact absurd hn (not_lt.mpr hle)
      · next hn =>
        rw [decide_eq_true_iff, not_lt] at hn
        split
        · next x hpeek =>
            -- the body is there already and is delivered at once, unless the runtime rejects the look at it
          rw [lawful_exit hcleaned]
          exact peek_allows hguard haborted hreading.expired hdeclared hn hpeek
        · next hpeek =>
          refine iff_of_true (lawful_of_not_ended ?_) fun hpeeks => peek_ne_none hpeeks hpeek
          dsimp only [State.ended]
          split
          · next hphase =>
            split at hphase
            · exact nomatch hphase
            · exact nomatch hphase
          · rfl
    · next hdeclared =>
      have hnot : ¬ call.PeeksRejected s := by
        rintro ⟨-, ⟨n, hn, -⟩, -⟩
        exact nomatch hdeclared.symm.trans hn
      split
      · next hnull =>
        obtain ⟨hending, hsent⟩ := h.null hnull
        refine iff_of_true ((lawful_exit hcleaned).mpr ⟨hending, ?_, Nat.zero_le _, hreading.expired,
          haborted⟩) hnot
        rw [hsent, List.flatten_nil]
      · exact iff_of_true (lawful_of_not_ended (nextRead_frame _ 0 []).2.2.2) hnot

/-- A turn ends the read with its whole body, but for the end of a stream nothing looks at the signal
again. -/
theorem turn_lawful_iff (hguard : call.guard = true) (h : Inv call s)
    (hturn : call.turn s = some t) :
    Lawful call t ↔ ∀ total chunks, s.phase = .streamWon total chunks .done → s.aborted = false := by
  have hsound := h.sound
  unfold Call.Sound at hsound
  unfold Call.turn at hturn
  split at hturn
  · next hphase =>
    cases hturn
    exact iff_of_true ((lawful_exit (cleanup_cleaned s)).mpr trivial)
      fun total chunks hp => nomatch hphase.symm.trans hp
  · next b hphase =>
    cases hturn
    simp only [hphase] at hsound
    refine iff_of_true ((lawful_exit (cleanup_cleaned s)).mpr ?_)
      fun total chunks hp => nomatch hphase.symm.trans hp
    split
    · trivial
    · next haborted =>
      rw [Bool.not_eq_true] at haborted
      exact checked_allows hguard ⟨hsound.1, hsound.2.1, hsound.2.2, haborted⟩
  · next hphase =>
    cases hturn
    exact iff_of_true (lawful_of_not_ended rfl) fun total chunks hp => nomatch hphase.symm.trans hp
  · next total chunks hphase =>
      -- the stream has ended: the whole body is delivered, without a look at the signal
    cases hturn
    simp only [hphase] at hsound
    obtain ⟨hreading, hqueue, hending⟩ := hsound
    have hbody : concatUint8Arrays chunks total = s.sent.flatten := by
      have hsent := hreading.sent fun r hr => nomatch hending.symm.trans hr
      rw [State.waiting, hqueue] at hsent
      rw [concatUint8Arrays_eq hreading.length, ← hsent]
      exact (List.append_nil _).symm
    rw [lawful_exit (cleanup_cleaned s)]
    constructor
    · rintro hallows total' chunks' -
      exact hallows.2.2.2.2
    · rintro haborted
      refine ⟨hending, hbody, ?_, hreading.expired, haborted total chunks hphase⟩
      rw [concatUint8Arrays_eq hreading.length, hreading.length]
      exact hreading.limit
  · next hphase =>
    cases hturn
    exact iff_of_true (lawful_of_not_ended (nextRead_frame _ _ _).2.2.2)
      fun total chunks hp => nomatch hphase.symm.trans hp
  · next hphase =>
    refine iff_of_true (lawful_of_not_ended ?_) fun total chunks hp => nomatch hphase.symm.trans hp
    split at hturn
    · cases hturn
      rfl
    · cases hturn
      exact (nextRead_frame _ _ _).2.2.2
  · exact nomatch hturn

/-- **One step** keeps the promise unless it is one of the two that do not. -/
theorem step_lawful_iff {e : Event} (hguard : call.guard = true) (h : Inv call s)
    (hstep : call.step s e = some t) : Lawful call t ↔ call.Calm s e := by
  unfold Call.step at hstep
  split at hstep
  · exact nomatch hstep
  next hended =>
  rw [Bool.not_eq_true] at hended
  -- only `start`, `turn` and `cancelled` can end the read
  cases e with
  | start now id =>
    dsimp only at hstep
    split at hstep
    · next hidle =>
      obtain ⟨-, hstep⟩ := Option.ite_none_left_eq_some.mp hstep
      cases hstep
      exact begin_lawful_iff hguard h hidle
    · exact nomatch hstep
  | chunk value =>
    obtain ⟨-, rfl⟩ := guard_eq_some hstep
    exact iff_of_true (lawful_of_not_ended ((receive_frame s value).2.2.trans hended)) trivial
  | close =>
    obtain ⟨-, rfl⟩ := guard_eq_some hstep
    exact iff_of_true (lawful_of_not_ended ((close_frame s).2.2.trans hended)) trivial
  | fail r =>
    obtain ⟨-, rfl⟩ := guard_eq_some hstep
    exact iff_of_true (lawful_of_not_ended ((fail_frame s r).2.trans hended)) trivial
  | deliver =>
    obtain ⟨-, rfl⟩ := guard_eq_some hstep
    exact iff_of_true (lawful_of_not_ended ((deliver_frame s).2.2.trans hended)) trivial
  | sweep now =>
    obtain ⟨-, rfl⟩ := guard_eq_some hstep
    exact iff_of_true (lawful_of_not_ended ((sweep_frame s now).2.trans hended)) trivial
  | abort =>
    obtain ⟨-, rfl⟩ := guard_eq_some hstep
    exact iff_of_true (lawful_of_not_ended ((abort_frame s).2.trans hended)) trivial
  | turn => exact turn_lawful_iff hguard h hstep
  | cancelled =>
    dsimp only at hstep
    split at hstep
    · next hphase =>
      cases hstep
      have hsound := h.sound
      unfold Call.Sound at hsound
      simp only [hphase] at hsound
      exact iff_of_true ((lawful_exit hsound).mpr trivial) trivial
    · exact nomatch hstep
  | track id deadlineWall =>
    obtain ⟨-, hstep⟩ := Option.ite_none_left_eq_some.mp hstep
    cases hstep
    exact iff_of_true (lawful_of_not_ended hended) trivial
  | untrack id =>
    obtain ⟨-, hstep⟩ := Option.ite_none_left_eq_some.mp hstep
    cases hstep
    exact iff_of_true (lawful_of_not_ended hended) trivial

end

/-! ## Runs -/

/-- **A guarded read** keeps its promise in every state of a run without the two steps, and either of the
two breaks it, in any run. -/
theorem readBody_lawful_iff (call : Call) (watchdog : Watchdog) (hguard : call.guard = true) :
    (∀ s, Run call.step call.Calm (call.init watchdog) s → Lawful call s) ∧
      ∀ s e t, Run call.step (fun _ _ => True) (call.init watchdog) s → call.step s e = some t →
        (Lawful call t ↔ call.Calm s e) := by
  constructor
  · rintro s hrun
    refine (hrun.invariant (P := fun s => Inv call s ∧ Lawful call s)
      ⟨init_inv call watchdog, lawful_of_not_ended rfl⟩ ?_).2
    rintro t e u ⟨hinv, -⟩ hcalm hstep
    exact ⟨step_inv hguard hinv hstep, (step_lawful_iff hguard hinv hstep).mpr hcalm⟩
  · rintro s e t hrun hstep
    have hinv : Inv call s := hrun.invariant (init_inv call watchdog)
      fun _ _ _ hinv _ hstep => step_inv hguard hinv hstep
    exact step_lawful_iff hguard hinv hstep

/-- A request on Bun, with a signal, to be read up to ten bytes. -/
def bunCall (declared : Option ℚ) : Call where
  declared := declared
  maxBytes := 10
  guard := true
  deadline := 0
  isBun := true
  hasBytes := true
  hasSignal := true
  isNull := false

theorem readBody_lawful_bun : (bunCall (some 2)).guard = true ∧
    ∀ s e t, Run (bunCall (some 2)).step (fun _ _ => True) ((bunCall (some 2)).init .empty) s →
      (bunCall (some 2)).step s e = some t →
        (Lawful (bunCall (some 2)) t ↔ (bunCall (some 2)).Calm s e) :=
  ⟨rfl, (readBody_lawful_iff (bunCall (some 2)) .empty rfl).2⟩

/-- The body failed before the call: its error is returned as bytes. -/
theorem readBody_returns_error :
    ¬ ∀ s, Run (bunCall (some 2)).step (fun _ _ => True) ((bunCall (some 2)).init .empty) s →
      Lawful (bunCall (some 2)) s := by
  rintro h
  obtain ⟨s, hs, hphase⟩ : ∃ s, exec (bunCall (some 2)).step ((bunCall (some 2)).init .empty)
      [.fail .error, .deliver, .start 0 0] = some s ∧ s.phase = .exited (.reason .error) :=
    ⟨_, rfl, rfl⟩
  exact (h s (Run.of_exec _ hs)).reason .error hphase

end Castrum.BodyRace
