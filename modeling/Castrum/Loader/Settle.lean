import Castrum.Lib.Runs
import Castrum.Loader.Parked

/-!
# Castrum — every load is answered once (`load`, `src/loader/index.ts`)

What holds of every settled promise is a predicate `G`, and what holds of every cache entry a
predicate `C`; both may speak of the calls made so far. A move of a user, of the cost model or of
the microtask queue keeps them when they allow what a call may get and write: the value of its own
input, an error of a native call that carried it, and an entry under its key if it was made with
caching. A scalar loop that throws is the exception: all requests of its burst get the error of the
one call.

* `Answered.step` — one move keeps `G` and `C`, and settled promises stay as they are;
* `Answered.drain` — the microtasks of the queue settle everything;
* `loads_settle` — every promise is settled once, with its own result, in every run in which no
  scalar loop throws.
-/

namespace Castrum.Loader

section

variable {V E : Type}

/-! ## Answers -/

/-- `G` and `C` allow what a call may get and write, and later calls do not change them. -/
structure Answering (apply : LoaderOpName → Bytes → V)
    (G : List Call → Nat → Outcome V E → Prop) (C : List Call → String → V → Prop) : Prop where
  later : ∀ calls more p out, G calls p out → G (calls ++ more) p out
  kept : ∀ calls more k v, C calls k v → C (calls ++ more) k v
  refused : ∀ (calls : List Call) (p : Nat) (call : Call), calls[p]? = some call →
    call.op.hasRequiredRest = true → G calls p .refused
  hit : ∀ (calls : List Call) (p : Nat) (call : Call), calls[p]? = some call →
    call.caching = true → ∀ v, C calls call.cacheKey v → G calls p (.resolved v)
  computed : ∀ (calls : List Call) (p : Nat) (call : Call), calls[p]? = some call →
    G calls p (.resolved (apply call.op call.input))
  written : ∀ (calls : List Call) (p : Nat) (call : Call), calls[p]? = some call →
    call.caching = true → C calls call.cacheKey (apply call.op call.input)
  thrown : ∀ (calls : List Call) (p : Nat) (call : Call), calls[p]? = some call →
    ∀ t, p ∈ t.carried → G calls p (.rejected t)

/-- `G` allows an error of any native call. -/
def RejectsAny (G : List Call → Nat → Outcome V E → Prop) : Prop :=
  ∀ (calls : List Call) (p : Nat) (call : Call), calls[p]? = some call →
    ∀ t, G calls p (.rejected t)

/-- Everything that is not settled waits, `G` holds of everything that is, and `C` of the cache. -/
structure Answered (G : List Call → Nat → Outcome V E → Prop) (C : List Call → String → V → Prop)
    (s : State V E) : Prop where
  parked : Parked s
  sound : Sound (G s.calls) (C s.calls) s

section

variable {apply : LoaderOpName → Bytes → V} {G : List Call → Nat → Outcome V E → Prop}
variable {C : List Call → String → V → Prop} {s s' : State V E}

/-- Requests of an op form a group that keeps both. -/
theorem Answering.group (hG : Answering apply G C) {calls : List Call} {op : LoaderOpName}
    {reqs : List LoadRequest} (hreqs : ∀ r ∈ reqs, r.Of calls op) :
    Group apply (G calls) (C calls) (C calls) op reqs where
  hit := by
    intro r hr k v huses hentry
    obtain ⟨call, hcall, -, -, hcaching, rfl⟩ := (hreqs r hr).uses huses
    exact hG.hit calls _ call hcall hcaching v hentry
  computed := by
    intro r hr
    obtain ⟨call, hcall, hop, hinput, -⟩ := hreqs r hr
    rw [← hop, ← hinput]
    exact hG.computed calls _ call hcall
  written := by
    intro r hr k huses
    obtain ⟨call, hcall, hop, hinput, hcaching, rfl⟩ := (hreqs r hr).uses huses
    rw [← hop, ← hinput]
    exact hG.written calls _ call hcall hcaching
  thrown := by
    intro r hr t ht
    obtain ⟨call, hcall, -⟩ := hreqs r hr
    exact hG.thrown calls _ call hcall t ht
  mono := fun _ _ h => h

/-! ## Moves -/

/-- The native calls of a move are faithful. -/
def Action.Faithful (apply : LoaderOpName → Bytes → V) : Action V E → Prop
  | .microtask natives => natives.Faithful apply
  | _ => True

/-- No scalar loop of a flush throws: where the threshold sends a burst into the loop, every call
of the loop returns. -/
def State.LoopsReturn (s : State V E) : Action V E → Prop
  | .microtask natives => s.queue.head? = some .flush → ∀ op reqs, (op, reqs) ∈ s.buffer →
      op.fast = false → 2 ≤ reqs.length → reqs.length < s.batchMinOf op →
        ∀ r ∈ reqs, ∃ v, natives.scalar op r.input = .ok v
  | _ => True

theorem scalarLoopBulk_returns {N : Natives V E} {op : LoaderOpName} {reqs : List LoadRequest}
    (h : ∀ r ∈ reqs, ∃ v, N.scalar op r.input = .ok v) :
    ∃ values, scalarLoopBulk N op reqs = .ok values := by
  induction reqs with
  | nil => exact ⟨[], rfl⟩
  | cons r reqs ih =>
    obtain ⟨v, hv⟩ := h r List.mem_cons_self
    obtain ⟨vs, hvs⟩ := ih fun r' hr' => h r' (List.mem_cons_of_mem r hr')
    refine ⟨v :: vs, ?_⟩
    rw [scalarLoopBulk, dispatchSingle, hv, hvs]
    rfl

/-- What a microtask leaves. -/
theorem Served.answered {queue : List Task}
    (h : Served (G s.calls) (C s.calls) s queue s') : Answered G C s' where
  parked := h.parked
  sound := by
    rw [h.calls]
    exact h.sound

/-- A call of `load`. -/
theorem Answered.load (hG : Answering apply G C) (h : Answered G C s) (op : LoaderOpName)
    (input : Bytes) (opts : LoadOptions) :
    Answered G C (s.loadOne op input opts) ∧
      ∀ p out, s.outcome p = some out → (s.loadOne op input opts).outcome p = some out := by
  have hcall : (s.calls ++ [s.callOf op input opts])[s.calls.length]? =
      some (s.callOf op input opts) := by simp
  have hsound : Sound (G (s.calls ++ [s.callOf op input opts]))
      (C (s.calls ++ [s.callOf op input opts])) s :=
    ⟨fun p out hp => hG.later _ _ p out (h.sound.outcomes p out hp),
      fun k v hkv => hG.kept _ _ k v (h.sound.cached k v hkv)⟩
  obtain ⟨hparked, hs, hcalls, hkeep⟩ := State.loadOne_spec h.parked hsound op input opts
    (hG.refused _ _ _ hcall) (hG.hit _ _ _ hcall)
  rw [← hcalls] at hs
  exact ⟨⟨hparked, hs⟩, hkeep⟩

/-- **One microtask** settles what it finds, and keeps `G`. -/
theorem Answered.microtask (hG : Answering apply G C) (h : Answered G C s) {N : Natives V E}
    (hN : N.Faithful apply) {task : Task} {queue : List Task} (hq : s.queue = task :: queue)
    (hloop : s.LoopsReturn (.microtask N) ∨ RejectsAny G) :
    Served (G s.calls) (C s.calls) s queue
      (State.runTask N { s with queue := queue } task) := by
  cases task with
  | flushSingle c =>
    refine State.flushSingle_spec hN h.parked h.sound hq (fun r hr => ?_) fun _ _ hkv => hkv
    refine hG.group fun r' hr' => ?_
    rw [List.mem_singleton.mp hr']
    exact (h.parked.slot c r hr).2
  | flush =>
    refine State.flush_spec hN (fun _ => C s.calls) h.parked h.sound hq ?_ ?_
    · intro pre op reqs rest hbuffer
      refine hG.group fun r hr => h.parked.group op r ⟨reqs, ?_, hr⟩
      rw [hbuffer]
      exact List.mem_append_right pre List.mem_cons_self
    · intro op reqs hmem hslow htwo hlt t ht r hr
      rcases hloop with hreturn | hany
      · obtain ⟨values, hvalues⟩ :=
          scalarLoopBulk_returns (hreturn (by rw [hq]; rfl) op reqs hmem hslow htwo hlt)
        rw [hvalues] at ht
        cases ht
      · obtain ⟨call, hcall, -⟩ := h.parked.group op r ⟨reqs, hmem, hr⟩
        exact hany s.calls r.promise call hcall t

/-- **One move** keeps what holds of settled promises, and the promises themselves. -/
theorem Answered.step (hG : Answering apply G C) (h : Answered G C s) {a : Action V E}
    (ha : a.Faithful apply) (hloop : s.LoopsReturn a ∨ RejectsAny G)
    (hstep : s.step a = some s') :
    Answered G C s' ∧ ∀ p out, s.outcome p = some out → s'.outcome p = some out := by
  cases a with
  | load op input opts =>
    cases hstep
    exact h.load hG op input opts
  | configure next =>
    cases hstep
    exact ⟨⟨h.parked.configure next, h.sound.configure next⟩, fun _ _ hp => hp⟩
  | clear =>
    cases hstep
    exact ⟨⟨h.parked.frame (s.cache_frame _), h.sound.outcomes,
      fun k v hkv => absurd hkv List.not_mem_nil⟩, fun _ _ hp => hp⟩
  | learn c batchMin =>
    obtain ⟨-, rfl⟩ := guard_eq_some hstep
    exact ⟨⟨h.parked.learn c batchMin, h.sound.setCtx c _⟩, fun _ _ hp => hp⟩
  | microtask natives =>
    cases hq : s.queue with
    | nil =>
      rw [State.step, hq] at hstep
      cases hstep
    | cons task queue =>
      rw [State.step, hq] at hstep
      cases hstep
      have hserved := h.microtask hG ha hq hloop
      exact ⟨hserved.answered, hserved.settled⟩

/-- Before the first call there is nothing to settle. -/
theorem Answered.init (options : LoaderOptions) : Answered G C (State.init options : State V E) where
  parked :=
    { ctxOk := ⟨fun op c hc => absurd hc (by simp [State.init]), fun _ _ => rfl⟩
      slot := fun c r hc => absurd hc (by simp [State.init])
      group := fun op r ⟨_, hmem, _⟩ => absurd hmem List.not_mem_nil
      scheduled := rfl
      flushing := fun hne => absurd rfl hne
      waits := fun p hp => absurd hp (Nat.not_lt_zero p) }
  sound := ⟨fun p out hp => absurd hp (by simp [State.init]),
    fun k v hkv => absurd hkv List.not_mem_nil⟩

/-- **The queue drains.** A microtask queues no other, so as many microtasks as are queued leave
none, and then every promise is settled: what is not settled waits for a queued microtask. -/
theorem Answered.drain (hG : Answering apply G C) (hany : RejectsAny G)
    {natives : List (Natives V E)} (h : Answered G C s) (hlength : natives.length = s.queue.length)
    (hN : ∀ N ∈ natives, N.Faithful apply) :
    ∃ t, exec State.step s (natives.map .microtask) = some t ∧ t.queue = [] ∧
      t.calls = s.calls ∧ ∀ p < t.calls.length, (t.outcome p).isSome := by
  induction natives generalizing s with
  | nil =>
    have hempty : s.queue = [] := List.length_eq_zero_iff.mp hlength.symm
    refine ⟨s, rfl, hempty, rfl, fun p hp => ?_⟩
    rcases h.parked.waits p hp with hfalse | hsome | ⟨c, r, hc, -⟩ | ⟨op, r, ⟨reqs, hmem, -⟩, -⟩
    · exact hfalse.elim
    · exact hsome
    · have hqueued := (h.parked.slot c r hc).1
      rw [hempty] at hqueued
      exact absurd hqueued List.not_mem_nil
    · -- what is buffered has the flush queued
      have hcount := h.parked.scheduled
      rw [h.parked.flushing (List.ne_nil_of_mem hmem), hempty] at hcount
      exact absurd hcount (by simp)
  | cons N natives ih =>
    cases hq : s.queue with
    | nil =>
      rw [hq] at hlength
      exact absurd hlength (by simp)
    | cons task queue =>
      have hserved := h.microtask hG (hN N List.mem_cons_self) hq (.inr hany)
      rw [hq, List.length_cons, List.length_cons, Nat.add_right_cancel_iff] at hlength
      obtain ⟨t, hexec, hempty, hcalls, hall⟩ := ih hserved.answered
        (by rw [hserved.queue]; exact hlength) fun N' hN' => hN N' (List.mem_cons_of_mem N hN')
      refine ⟨t, ?_, hempty, hcalls.trans hserved.calls, hall⟩
      rw [List.map_cons, exec, State.step, hq]
      exact hexec

end

/-! ## Every promise is settled once, with its own result -/

/-- What a promise of the call may be settled with: without caching the value of its own input, or
an error of a native call that carried it. An op that needs extra arguments is not loadable. -/
def Own (apply : LoaderOpName → Bytes → V) (call : Call) (p : Nat) : Outcome V E → Prop
  | .resolved v => call.caching = false → v = apply call.op call.input
  | .rejected t => p ∈ t.carried
  | .refused => call.op.hasRequiredRest = true

/-- The promise is that of a call, and `P` holds of the call, the promise and the outcome. -/
def Answers (P : Call → Nat → Outcome V E → Prop) (calls : List Call) (p : Nat)
    (out : Outcome V E) : Prop :=
  ∃ call, calls[p]? = some call ∧ P call p out

theorem getElem?_append_some {calls : List Call} {p : Nat} {call : Call}
    (h : calls[p]? = some call) (more : List Call) : (calls ++ more)[p]? = some call := by
  rw [List.getElem?_append_left (List.getElem?_eq_some_iff.mp h).1]
  exact h

theorem Own.answering (apply : LoaderOpName → Bytes → V) :
    Answering apply (Answers (Own apply) : List Call → Nat → Outcome V E → Prop)
      fun _ _ _ => True where
  later := fun _ more _ _ ⟨call, hcall, hown⟩ => ⟨call, getElem?_append_some hcall more, hown⟩
  kept := fun _ _ _ _ h => h
  refused := fun _ _ call hcall hrest => ⟨call, hcall, hrest⟩
  hit := fun _ _ call hcall hcaching _ _ =>
    ⟨call, hcall, fun hoff => absurd (hcaching.symm.trans hoff) (by simp)⟩
  computed := fun _ _ call hcall => ⟨call, hcall, fun _ => rfl⟩
  written := fun _ _ _ _ _ => trivial
  thrown := fun _ _ call hcall _ ht => ⟨call, hcall, ht⟩

theorem Answering.trivial (apply : LoaderOpName → Bytes → V) :
    Answering apply (fun _ _ _ => True : List Call → Nat → Outcome V E → Prop)
      fun _ _ _ => True := by
  constructor <;> intros <;> exact True.intro

/-- **Every load is answered once, with its own result**, in every run in which no scalar loop of a
flush throws: a settled promise has the value of its own input or an error of a native call that
carried it, it never changes, and when the queued microtasks have run every promise is settled. -/
theorem loads_settle (apply : LoaderOpName → Bytes → V) (options : LoaderOptions) {s : State V E}
    (hrun : Run State.step (fun s a => a.Faithful apply ∧ s.LoopsReturn a) (State.init options) s) :
    (∀ p out, s.outcome p = some out → Answers (Own apply) s.calls p out) ∧
      (∀ a s', a.Faithful apply → s.step a = some s' → ∀ p out, s.outcome p = some out →
        s'.outcome p = some out) ∧
      ∀ natives : List (Natives V E), natives.length = s.queue.length →
        (∀ N ∈ natives, N.Faithful apply) → ∃ t,
          exec State.step s (natives.map .microtask) = some t ∧ t.queue = [] ∧
            t.calls = s.calls ∧ ∀ p < t.calls.length, (t.outcome p).isSome := by
  have hown : Answered (Answers (Own apply)) (fun _ _ _ => True) s :=
    hrun.invariant (.init options) fun t a u ht ha hstep =>
      (ht.step (Own.answering apply) ha.1 (.inl ha.2) hstep).1
  -- what is settled plays no part in the other two
  have hany : Answered (fun _ _ _ => True) (fun _ _ _ => True) s :=
    hrun.invariant (.init options) fun t a u ht ha hstep =>
      (ht.step (.trivial apply) ha.1 (.inl ha.2) hstep).1
  refine ⟨hown.sound.outcomes, fun a s' ha hstep => ?_, fun natives hlength hN => ?_⟩
  · exact (hany.step (.trivial apply) ha (.inr fun _ _ _ _ _ => trivial) hstep).2
  · exact hany.drain (.trivial apply) (fun _ _ _ _ _ => trivial) hlength hN

end

/-- The op that measures its input. One call at a time it throws on an empty input, where packed
inputs get a placeholder. -/
def lengthNatives : Natives Nat Unit where
  scalar := fun _ x => if x = [] then .error () else .ok x.length
  batch := fun _ xs => .ok fun i => (xs.getD i []).length
  fastBatch := fun _ xs => .ok fun i => (xs.getD i []).length

theorem lengthNatives_faithful : lengthNatives.Faithful fun _ x => x.length where
  scalar := by
    intro op x v h
    rw [lengthNatives] at h
    dsimp only at h
    split at h
    · cases h
    · exact (Except.ok.inj h).symm
  batch := by
    intro op xs f h i hi
    rw [← Except.ok.inj h]
    simp [hi]
  fastBatch := by
    intro op xs f h i hi
    rw [← Except.ok.inj h]
    simp [hi]

/-- Two loads in one tick, the first malformed, above the threshold: both promises get the value of
the packed call. -/
theorem loads_settle_packed :
    ∃ s : State Nat Unit, s.outcome 0 = some (.resolved 0) ∧ s.outcome 1 = some (.resolved 1) ∧
      Answers (Own fun _ x => x.length) s.calls 1
        (.resolved 1 : Outcome Nat Unit) := by
  have hrun : Run State.step
      (fun s a => a.Faithful (fun _ x => x.length) ∧ s.LoopsReturn a)
      (State.init ⟨2, 256, false, .auto⟩ : State Nat Unit) _ :=
    .tail (.tail (.tail .refl ⟨trivial, trivial⟩ (a := .load .gzipDecompress [] ⟨none, none⟩) rfl)
      ⟨trivial, trivial⟩ (a := .load .gzipDecompress [1] ⟨none, none⟩) rfl)
      ⟨lengthNatives_faithful, fun _ op reqs hmem _ _ hlt => by
        cases List.mem_singleton.mp hmem
        exact absurd hlt (by decide)⟩ (a := .microtask lengthNatives) rfl
  exact ⟨_, rfl, rfl, (loads_settle _ _ hrun).1 1 _ rfl⟩

/-- Below the threshold the scalar loop throws at the first: the second, well-formed, is rejected
with an error of a native call that did not carry it. -/
theorem load_rejected_by_another :
    ¬ ∀ (apply : LoaderOpName → Bytes → Nat) (options : LoaderOptions) (s : State Nat Unit),
      Run State.step (fun _ a => a.Faithful apply) (State.init options) s →
        ∀ p out, s.outcome p = some out → Answers (Own apply) s.calls p out := by
  intro h
  have hrun : Run State.step (fun _ a => a.Faithful (fun _ x => x.length))
      (State.init ⟨8, 256, false, .auto⟩ : State Nat Unit) _ :=
    .tail (.tail (.tail .refl trivial (a := .load .gzipDecompress [] ⟨none, none⟩) rfl)
      trivial (a := .load .gzipDecompress [1] ⟨none, none⟩) rfl)
      lengthNatives_faithful (a := .microtask lengthNatives) rfl
  obtain ⟨call, -, hcarried⟩ := h _ _ _ hrun 1 (.rejected ⟨[0], ()⟩) rfl
  exact absurd hcarried (by simp [Own])

end Castrum.Loader
