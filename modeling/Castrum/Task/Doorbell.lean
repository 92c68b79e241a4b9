import Castrum.Lib.Runs
import Castrum.Task.Completion

/-!
# Castrum — the doorbell (`rust/task/completion.rs`, `rust/ffi/task.rs`, `src/task/runtime.ts`)

Workers push completions and ring JavaScript at most once before it drains; the flag, the doorbell
pointer and the ring are three pieces of state, written in separate steps. JavaScript registers a
doorbell when its runtime is made, and again when a task is submitted after a shutdown. Only the first
time it schedules a drain as well.

* `Sys.step` — each store, swap and lock section of a push, a drain, a registration and a shutdown;
* `Inv` — while a doorbell is registered, what is in the ring will be drained;
* `doorbell_no_lost_wakeup` — no run loses a wakeup whose registrations find nothing left behind;
* `doorbell_loses_wakeup` — a completion that lands after a shutdown is left behind for good.
-/

namespace Castrum.Doorbell

open Completions (Completion needed)

/-- A push: it holds the ring's lock, has to ring, or has read the doorbell pointer. -/
inductive Push where
  | idle
  | locked
  | ringing
  | calling
  deriving DecidableEq

/-- The JavaScript thread. `drainNow` runs rounds; in each it drains into its pooled buffer, and once
more into one of the exact size if that is too small. `shutdown` stops the bell, then the pool, then
drops the ring. -/
inductive Js where
  | idle
  | round (guard : Nat)
  | disarmed (guard cap : Nat)
  | grown (guard cap : Nat)
  | disarmedGrown (guard cap : Nat)
  | bellZeroed
  | poolStopped
  | ringDropped
  deriving DecidableEq

structure Sys where
  ring : List Completion
  lock : Option Nat
  armed : Bool
  doorbell : Bool
  push : Nat → Push
  js : Js
  jsDoorbell : Bool
  created : Bool
  drainBuf : Nat
  calls : Nat
  microtasks : Nat

/-- Before the runtime is made. -/
def Sys.init : Sys where
  ring := []
  lock := none
  armed := false
  doorbell := false
  push := fun _ => .idle
  js := .idle
  jsDoorbell := false
  created := false
  drainBuf := 64 * 1024
  calls := 0
  microtasks := 0

/-- The largest buffer that a drain keeps for the next one. -/
def maxPooledDrain : Nat := 256 * 1024

/-- The rounds of one `drainNow`. -/
def maxRounds : Nat := 1024

/-! ## The steps -/

def Sys.setPush (s : Sys) (w : Nat) (p : Push) : Sys := { s with push := Function.update s.push w p }

/-- The lock section of `drain`, into a buffer of `cap` bytes: an empty ring ends `drainNow`, a buffer
that is too small is replaced once in each round, and everything is taken otherwise. -/
def Sys.take (s : Sys) (guard cap : Nat) (retried : Bool) : Sys :=
  if s.ring = [] then { s with js := .idle }
  else if cap < needed s.ring then
    if retried then { s with js := .round guard }
    else
      { s with
        js := .grown guard (needed s.ring)
        drainBuf := if needed s.ring ≤ maxPooledDrain then needed s.ring else s.drainBuf }
  else { s with ring := [], js := .round guard }

inductive Action where
  | pushLock (w : Nat) (c : Completion)
  | pushSwap (w : Nat)
  | pushLoad (w : Nat)
  | pushCall (w : Nat)
  | bell
  | microtask
  | disarm
  | take
  | create
  | ensureDoorbell
  | shutdown
  | stopPool
  | dropRing
  | disarmLast

/-- One atomic step of a worker or of JavaScript. -/
def Sys.step (s : Sys) : Action → Option Sys
  | .pushLock w c =>
    if s.push w = .idle ∧ s.lock = none then
      some { s.setPush w .locked with ring := s.ring ++ [c], lock := some w }
    else none
  | .pushSwap w =>
    if s.push w = .locked then
      some { s.setPush w (if s.armed then .idle else .ringing) with armed := true, lock := none }
    else none
  | .pushLoad w =>
    if s.push w = .ringing then some (s.setPush w (if s.doorbell then .calling else .idle)) else none
  | .pushCall w =>
    if s.push w = .calling then some { s.setPush w .idle with calls := s.calls + 1 } else none
  | .bell =>
    if s.js = .idle ∧ 0 < s.calls then some { s with calls := s.calls - 1, js := .round 0 } else none
  | .microtask =>
    if s.js = .idle ∧ 0 < s.microtasks then
      some { s with microtasks := s.microtasks - 1, js := .round 0 }
    else none
  | .disarm =>
    match s.js with
    | .round guard =>
      if guard < maxRounds then
        some { s with armed := false, js := .disarmed (guard + 1) s.drainBuf }
      else some { s with js := .idle }
    | .grown guard cap => some { s with armed := false, js := .disarmedGrown guard cap }
    | _ => none
  | .take =>
    if s.lock = none then
      match s.js with
      | .disarmed guard cap => some (s.take guard cap false)
      | .disarmedGrown guard cap => some (s.take guard cap true)
      | _ => none
    else none
  | .create =>
    if s.js = .idle ∧ s.created = false then
      some { s with
        created := true
        jsDoorbell := true
        doorbell := true
        microtasks := s.microtasks + 1 }
    else none
  | .ensureDoorbell =>
    if s.js = .idle ∧ s.created = true ∧ s.jsDoorbell = false then
      some { s with jsDoorbell := true, doorbell := true }
    else none
  | .shutdown =>
    if s.js = .idle ∧ s.created = true then some { s with doorbell := false, js := .bellZeroed }
    else none
  | .stopPool =>
    if s.js = .bellZeroed then some { s with doorbell := false, js := .poolStopped } else none
  | .dropRing =>
    if s.js = .poolStopped ∧ s.lock = none then some { s with ring := [], js := .ringDropped } else none
  | .disarmLast =>
    if s.js = .ringDropped then some { s with armed := false, jsDoorbell := false, js := .idle }
    else none

/-! ## What is outstanding -/

/-- A call of the doorbell, or a scheduled drain, has still to run. -/
def Sys.Due (s : Sys) : Prop := 0 < s.calls + s.microtasks

/-- **No wakeup is lost**: between the pushes and the drains, a ring that is not empty will be drained
by a doorbell that is registered. -/
def NoLostWakeup (s : Sys) : Prop :=
  s.ring ≠ [] → s.doorbell = true → (∀ w, s.push w = .idle) → s.js = .idle → s.Due

/-- A push has still to ring. -/
def Sys.Rings (s : Sys) : Prop := ∃ w, s.push w = .ringing ∨ s.push w = .calling

/-- A push is midway. -/
def Sys.Pushing (s : Sys) : Prop := ∃ w, s.push w ≠ .idle

/-- `drainNow` has still to take the ring. -/
def Js.takes : Js → Prop
  | .round guard => guard = 0
  | .disarmed _ _ | .grown _ _ | .disarmedGrown _ _ => True
  | .idle | .bellZeroed | .poolStopped | .ringDropped => False

/-- While a doorbell is registered: the flag is only set while JavaScript is going to run, what is in
the ring is going to be taken, and a ring that outgrew the exact buffer was pushed to. -/
structure Inv (s : Sys) : Prop where
  armed : s.armed = true → s.Due ∨ s.Rings ∨ s.js = .round 0
  ring : s.ring ≠ [] → s.armed = true ∨ s.Due ∨ s.Pushing ∨ s.js.takes
  grown : ∀ guard cap, s.js = .grown guard cap ∨ s.js = .disarmedGrown guard cap →
    needed s.ring ≤ cap ∨ s.Due ∨ s.Pushing

/-- **Nothing is left behind** where a doorbell is registered without a drain being scheduled: if the
flag is set, somebody is going to ring, and if the ring is not empty, somebody is going to look. -/
def Caught (s : Sys) : Action → Prop
  | .ensureDoorbell => (s.armed = true → s.Due ∨ s.Rings) ∧
      (s.ring ≠ [] → s.armed = true ∨ s.Due ∨ s.Pushing)
  | _ => True

/-! ## What one push changes -/

section

variable {s s' : Sys} {w : Nat}

/-- A push that does not ring itself may move on. -/
theorem Sys.Rings.setPush (h : s.Rings) (hring : s.push w ≠ .ringing) (hcall : s.push w ≠ .calling)
    (p : Push) : (s.setPush w p).Rings := by
  obtain ⟨w', hw'⟩ := h
  have hne : w' ≠ w := by
    intro heq
    rw [heq] at hw'
    exact hw'.elim hring hcall
  refine ⟨w', ?_⟩
  show Function.update s.push w p w' = .ringing ∨ Function.update s.push w p w' = .calling
  rw [Function.update_of_ne hne]
  exact hw'

theorem rings_setPush {p : Push} (h : p = .ringing ∨ p = .calling) : (s.setPush w p).Rings := by
  refine ⟨w, ?_⟩
  show Function.update s.push w p w = .ringing ∨ Function.update s.push w p w = .calling
  rw [Function.update_self]
  exact h

theorem pushing_setPush {p : Push} (h : p ≠ .idle) : (s.setPush w p).Pushing := by
  refine ⟨w, ?_⟩
  show Function.update s.push w p w ≠ .idle
  rw [Function.update_self]
  exact h

theorem Sys.Rings.pushing (h : s.Rings) : s.Pushing := by
  obtain ⟨w, hw⟩ := h
  refine ⟨w, fun hidle => ?_⟩
  rw [hidle] at hw
  exact hw.elim (fun h => by cases h) fun h => by cases h

/-! ## Each step -/

namespace Inv

theorem pushLock (h : Inv s) (hidle : s.push w = .idle) (c : Completion) :
    Inv { s.setPush w .locked with ring := s.ring ++ [c], lock := some w } where
  armed := by
    intro harmed
    rcases h.armed harmed with hdue | hrings | hjs
    · exact .inl hdue
    · exact .inr (.inl (hrings.setPush (by rw [hidle]; decide) (by rw [hidle]; decide) .locked))
    · exact .inr (.inr hjs)
  ring := fun _ => .inr (.inr (.inl (pushing_setPush (by decide))))
  grown := fun _ _ _ => .inr (.inr (pushing_setPush (by decide)))

/-- The swap: who finds the flag clear has to ring, and who finds it set relies on another. -/
theorem pushSwap (h : Inv s) (hlocked : s.push w = .locked) :
    Inv { s.setPush w (if s.armed then .idle else .ringing) with armed := true, lock := none } := by
  cases harmed : s.armed with
  | true =>
    have hother : s.Rings → (s.setPush w .idle).Rings := fun hrings =>
      hrings.setPush (by rw [hlocked]; decide) (by rw [hlocked]; decide) .idle
    rw [if_pos rfl]
    refine ⟨fun _ => ?_, fun _ => .inl rfl, fun guard cap hjs => ?_⟩
    · exact (h.armed harmed).imp_right (Or.imp_left hother)
    · rcases h.armed harmed with hdue | hrings | hround
      · exact .inr (.inl hdue)
      · exact .inr (.inr (hother hrings).pushing)
      · change s.js = .grown guard cap ∨ s.js = .disarmedGrown guard cap at hjs
        rw [hround] at hjs
        exact hjs.elim (fun h => by cases h) fun h => by cases h
  | false =>
    have hrings : (s.setPush w .ringing).Rings := rings_setPush (.inl rfl)
    rw [if_neg Bool.false_ne_true]
    exact ⟨fun _ => .inr (.inl hrings), fun _ => .inl rfl, fun _ _ _ => .inr (.inr hrings.pushing)⟩

theorem pushLoad : Inv (s.setPush w .calling) :=
  have hrings : (s.setPush w .calling).Rings := rings_setPush (.inr rfl)
  ⟨fun _ => .inr (.inl hrings), fun _ => .inr (.inr (.inl hrings.pushing)),
    fun _ _ _ => .inr (.inr hrings.pushing)⟩

/-- Whatever else holds, nothing is lost while a call or a drain is outstanding. -/
theorem of_due (h : s.Due) : Inv s :=
  ⟨fun _ => .inl h, fun _ => .inr (.inl h), fun _ _ _ => .inr (.inl h)⟩

/-- JavaScript moves on, and neither the flag nor the ring is touched. -/
theorem disarm (h : Inv s) {js : Js} (hround : s.js = .round 0 → js = .round 0)
    (htakes : s.js.takes → js.takes) (hgrown : ∀ guard cap, js = .grown guard cap ∨
      js = .disarmedGrown guard cap → needed s.ring ≤ cap ∨ s.Due ∨ s.Pushing) (drainBuf : Nat) :
    Inv { s with js := js, drainBuf := drainBuf } where
  armed := fun harmed => (h.armed harmed).imp_right (Or.imp_right hround)
  ring := fun hne => (h.ring hne).imp_right (Or.imp_right (Or.imp_right htakes))
  grown := hgrown

/-- The flag is cleared, and the ring is going to be taken. -/
theorem disarmed {js : Js} (htakes : js.takes) (hgrown : ∀ guard cap, js = .grown guard cap ∨
      js = .disarmedGrown guard cap → needed s.ring ≤ cap ∨ s.Due ∨ s.Pushing) :
    Inv { s with armed := false, js := js } where
  armed := fun h => by cases h
  ring := fun _ => .inr (.inr (.inr htakes))
  grown := hgrown

theorem doorbell_take (guard cap : Nat) (retried : Bool) :
    (s.take guard cap retried).doorbell = s.doorbell := by
  unfold Sys.take
  split
  · rfl
  split
  · split
    · rfl
    · rfl
  · rfl

/-- **The lock section of a drain.** -/
theorem take (h : Inv s) {guard cap : Nat} {retried : Bool}
    (hjs : s.js = if retried then .disarmedGrown guard cap else .disarmed guard cap) :
    Inv (s.take guard cap retried) := by
  have hnotRound : s.js ≠ .round 0 := by
    intro hround
    rw [hjs] at hround
    cases retried with
    | true => cases hround
    | false => cases hround
  have harmed : s.armed = true → s.Due ∨ s.Rings := fun harmed =>
    (h.armed harmed).imp_right fun hor => hor.resolve_right hnotRound
  unfold Sys.take
  split
  · next hnil =>
    refine ⟨fun ha => (harmed ha).imp_right .inl, fun hne => absurd hnil hne, fun guard' cap' hjs' => ?_⟩
    exact hjs'.elim (fun h => by cases h) fun h => by cases h
  split
  · next hsmall =>
    split
    · -- the ring outgrew the exact size, so there was a push
      next hretried =>
      rw [hretried] at hjs
      refine ⟨fun ha => (harmed ha).imp_right .inl, fun _ => ?_, fun guard' cap' hjs' => ?_⟩
      · rcases h.grown guard cap (.inr hjs) with hle | hdue | hpush
        · exact absurd hle (Nat.not_le.mpr hsmall)
        · exact .inr (.inl hdue)
        · exact .inr (.inr (.inl hpush))
      · exact hjs'.elim (fun h => by cases h) fun h => by cases h
    · refine ⟨fun ha => (harmed ha).imp_right .inl, fun _ => .inr (.inr (.inr trivial)),
        fun guard' cap' hjs' => ?_⟩
      rcases hjs' with heq | heq
      · injection heq with _ hcap
        exact .inl (Nat.le_of_eq hcap)
      · cases heq
  · refine ⟨fun ha => (harmed ha).imp_right .inl, fun hne => absurd rfl hne, fun guard' cap' hjs' => ?_⟩
    exact hjs'.elim (fun h => by cases h) fun h => by cases h

/-- **One step keeps the invariant**, where a registration finds nothing left behind. -/
theorem step (h : s.doorbell = true → Inv s) {a : Action} (hcaught : Caught s a)
    (hstep : s.step a = some s') : s'.doorbell = true → Inv s' := by
  cases a with
  | pushLock w c =>
    obtain ⟨⟨hidle, -⟩, rfl⟩ := guard_eq_some hstep
    exact fun hbell => (h hbell).pushLock hidle c
  | pushSwap w =>
    obtain ⟨hlocked, rfl⟩ := guard_eq_some hstep
    exact fun hbell => (h hbell).pushSwap hlocked
  | pushLoad w =>
    obtain ⟨-, rfl⟩ := guard_eq_some hstep
    intro hbell
    rw [if_pos (show s.doorbell = true from hbell)]
    exact pushLoad
  | pushCall w =>
    obtain ⟨-, rfl⟩ := guard_eq_some hstep
    intro _
    apply of_due
    show 0 < s.calls + 1 + s.microtasks
    omega
  | bell =>
    obtain ⟨-, rfl⟩ := guard_eq_some hstep
    intro _
    refine ⟨fun _ => .inr (.inr rfl), fun _ => .inr (.inr (.inr rfl)), fun guard cap hjs => ?_⟩
    exact hjs.elim (fun h => by cases h) fun h => by cases h
  | microtask =>
    obtain ⟨-, rfl⟩ := guard_eq_some hstep
    intro _
    refine ⟨fun _ => .inr (.inr rfl), fun _ => .inr (.inr (.inr rfl)), fun guard cap hjs => ?_⟩
    exact hjs.elim (fun h => by cases h) fun h => by cases h
  | disarm =>
    simp only [Sys.step] at hstep
    split at hstep
    · next guard hjs =>
      split at hstep
      · injection hstep with hstep
        rw [← hstep]
        intro hbell
        refine disarmed trivial fun guard' cap' hjs' => ?_
        exact hjs'.elim (fun h => by cases h) fun h => by cases h
      · next hend =>
        -- the rounds are over, and this was not the first
        injection hstep with hstep
        rw [← hstep]
        have hzero : guard ≠ 0 := fun hzero => hend (by rw [hzero]; decide)
        intro hbell
        refine (h hbell).disarm (fun hround => ?_) (fun htakes => ?_) (fun guard' cap' hjs' => ?_)
          s.drainBuf
        · rw [hjs] at hround
          injection hround with hround
          exact absurd hround hzero
        · rw [hjs] at htakes
          exact absurd htakes hzero
        · exact hjs'.elim (fun h => by cases h) fun h => by cases h
    · next guard cap hjs =>
      injection hstep with hstep
      rw [← hstep]
      intro hbell
      refine disarmed trivial fun guard' cap' hjs' => ?_
      rcases hjs' with heq | heq
      · cases heq
      · injection heq with _ hcap
        rw [← hcap]
        exact (h hbell).grown guard cap (.inl hjs)
    · cases hstep
  | take =>
    simp only [Sys.step] at hstep
    split at hstep
    · split at hstep
      · next guard cap hjs =>
        injection hstep with hstep
        rw [← hstep]
        intro hbell
        rw [doorbell_take] at hbell
        have hfirst : s.js = if false then .disarmedGrown guard cap else .disarmed guard cap := hjs
        exact (h hbell).take hfirst
      · next guard cap hjs =>
        injection hstep with hstep
        rw [← hstep]
        intro hbell
        rw [doorbell_take] at hbell
        have hagain : s.js = if true then .disarmedGrown guard cap else .disarmed guard cap := hjs
        exact (h hbell).take hagain
      · cases hstep
    · cases hstep
  | create =>
    obtain ⟨-, rfl⟩ := guard_eq_some hstep
    intro _
    apply of_due
    show 0 < s.calls + (s.microtasks + 1)
    omega
  | ensureDoorbell =>
    obtain ⟨⟨hidle, -⟩, rfl⟩ := guard_eq_some hstep
    intro _
    refine ⟨fun harmed => (hcaught.1 harmed).imp_right .inl,
      fun hne => (hcaught.2 hne).imp_right (Or.imp_right .inl), fun guard cap hjs => ?_⟩
    change s.js = .grown guard cap ∨ s.js = .disarmedGrown guard cap at hjs
    rw [hidle] at hjs
    exact hjs.elim (fun h => by cases h) fun h => by cases h
  | shutdown =>
    obtain ⟨-, rfl⟩ := guard_eq_some hstep
    intro hbell
    cases hbell
  | stopPool =>
    obtain ⟨-, rfl⟩ := guard_eq_some hstep
    intro hbell
    cases hbell
  | dropRing =>
    obtain ⟨⟨hjs, -⟩, rfl⟩ := guard_eq_some hstep
    intro hbell
    refine ⟨fun harmed => ?_, fun hne => absurd rfl hne, fun guard cap hjs' => ?_⟩
    · refine ((h hbell).armed harmed).imp_right fun hor => .inl (hor.resolve_right fun hround => ?_)
      rw [hjs] at hround
      cases hround
    · exact hjs'.elim (fun h => by cases h) fun h => by cases h
  | disarmLast =>
    obtain ⟨hjs, rfl⟩ := guard_eq_some hstep
    intro hbell
    refine ⟨fun harmed => (by cases harmed), fun hne => ?_, fun guard cap hjs' => ?_⟩
    · rcases (h hbell).ring hne with harmed | hdue | hpush | htakes
      · rcases (h hbell).armed harmed with hdue | hrings | hround
        · exact .inr (.inl hdue)
        · exact .inr (.inr (.inl hrings.pushing))
        · rw [hjs] at hround
          cases hround
      · exact .inr (.inl hdue)
      · exact .inr (.inr (.inl hpush))
      · rw [hjs] at htakes
        exact htakes.elim
    · exact hjs'.elim (fun h => by cases h) fun h => by cases h

theorem noLostWakeup (h : s.doorbell = true → Inv s) : NoLostWakeup s := by
  intro hne hbell hidle hjs
  have hrings : ¬ s.Rings := by
    intro ⟨w, hw⟩
    rw [hidle w] at hw
    exact hw.elim (fun h => by cases h) fun h => by cases h
  rcases (h hbell).ring hne with harmed | hdue | ⟨w, hw⟩ | htakes
  · rcases (h hbell).armed harmed with hdue | hr | hround
    · exact hdue
    · exact absurd hr hrings
    · rw [hjs] at hround
      cases hround
  · exact hdue
  · exact absurd (hidle w) hw
  · rw [hjs] at htakes
    exact htakes.elim

end Inv

end

/-! ## Every run -/

/-- **No wakeup is lost** in a run in which every doorbell that is registered after a shutdown finds
nothing left behind. -/
theorem doorbell_no_lost_wakeup (s : Sys) (hrun : Run Sys.step Caught Sys.init s) :
    NoLostWakeup s := by
  have hinv : s.doorbell = true → Inv s :=
    hrun.invariant (P := fun s => s.doorbell = true → Inv s) (fun h => by cases h)
      fun _ _ _ h hc hstep => Inv.step h hc hstep
  exact Inv.noLostWakeup hinv

/-- A completion that is pushed behind the first drain. -/
theorem doorbell_no_lost_wakeup_pushed :
    ∃ s : Sys, NoLostWakeup s ∧ s.ring ≠ [] ∧ s.Due := by
  have hrun : Run Sys.step Caught Sys.init _ :=
    .tail (.tail (.tail (.tail (.tail (.tail (.tail (.tail .refl trivial (a := .create) rfl)
      trivial (a := .microtask) rfl) trivial (a := .disarm) rfl) trivial (a := .take) rfl)
      trivial (a := .pushLock 0 ⟨1, .ok, []⟩) rfl) trivial (a := .pushSwap 0) rfl)
      trivial (a := .pushLoad 0) rfl) trivial (a := .pushCall 0) rfl
  exact ⟨_, doorbell_no_lost_wakeup _ hrun, by decide, (by decide : 0 < 1 + 0)⟩

/-- **A completion that lands after a shutdown** sets the flag and rings nobody; the doorbell that the
next submission registers is then never rung. -/
theorem doorbell_loses_wakeup :
    ¬ ∀ s : Sys, Run Sys.step (fun _ _ => True) Sys.init s → NoLostWakeup s := by
  intro h
  have hrun : Run Sys.step (fun _ _ => True) Sys.init _ :=
    Run.of_exec [.create, .microtask, .disarm, .take, .shutdown, .stopPool, .dropRing, .disarmLast,
      .pushLock 0 ⟨1, .cancelled, []⟩, .pushSwap 0, .pushLoad 0, .ensureDoorbell] rfl
  have hidle : ∀ w, (Function.update (Function.update (Function.update (fun _ => Push.idle) 0 .locked) 0
      .ringing) 0 .idle) w = .idle := by
    intro w
    rw [Function.update_idem, Function.update_idem, Function.update_eq_self]
  exact absurd (h _ hrun (by decide) rfl hidle rfl) (by decide : ¬ 0 < 0)

end Castrum.Doorbell
