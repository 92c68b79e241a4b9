import Castrum.Loader.Flush

/-!
# Castrum — where loads wait (`loadOne`, `flushSingle`, `src/loader/index.ts`)

A request that is not settled waits in the slot of a context whose microtask is queued, or in the
buffer of the coalescer whose flush is queued. Switching modes moves it from the one to the other,
`configure` leaves both alone, and a microtask settles everything it finds.

* `Parked` — where the unsettled promises are;
* `State.loadOne_spec` — a call of `load` settles its promise or parks its request;
* `State.flushSingle_spec`, `State.flush_spec` — a microtask settles what it finds.
-/

namespace Castrum.Loader

section

variable {V E : Type}

/-! ## Where requests wait -/

/-- The cache key of a call. -/
def Call.cacheKey (call : Call) : String :=
  Loader.cacheKey call.op (call.key.getD (defaultRaw call.input))

/-- The request is one of the op, made by the call whose promise it holds. -/
def LoadRequest.Of (calls : List Call) (op : LoaderOpName) (r : LoadRequest) : Prop :=
  ∃ call, calls[r.promise]? = some call ∧ call.op = op ∧ call.input = r.input ∧
    (∀ k, r.key = some k → call.caching = true ∧ k = call.cacheKey) ∧
    (r.needsDefaultKey = true → call.caching = true ∧ call.key = none)

/-- The request is in the group of the op. -/
def State.Buffered (s : State V E) (op : LoaderOpName) (r : LoadRequest) : Prop :=
  ∃ reqs, (op, reqs) ∈ s.buffer ∧ r ∈ reqs

/-- The promise waits in a slot or in the buffer. -/
def State.Waits (s : State V E) (p : Nat) : Prop :=
  (∃ c r, (s.ctx c).pendingSingle = some r ∧ r.promise = p) ∨
    ∃ op r, s.Buffered op r ∧ r.promise = p

/-- Every unsettled promise waits, but for those of `free`, and what waits has its microtask
queued. -/
structure ParkedBut (free : Nat → Prop) (s : State V E) : Prop where
  ctxOk : CtxOk s
  slot : ∀ c r, (s.ctx c).pendingSingle = some r →
    .flushSingle c ∈ s.queue ∧ r.Of s.calls (s.ctx c).op
  group : ∀ op r, s.Buffered op r → r.Of s.calls op
  scheduled : s.queue.count .flush = if s.scheduled then 1 else 0
  flushing : s.buffer ≠ [] → s.scheduled = true
  waits : ∀ p < s.calls.length, free p ∨ (s.outcome p).isSome ∨ s.Waits p

/-- Every unsettled promise waits. -/
def Parked (s : State V E) : Prop := ParkedBut (fun _ => False) s

theorem LoadRequest.Of.append {calls : List Call} {op : LoaderOpName} {r : LoadRequest}
    (h : r.Of calls op) (more : List Call) : r.Of (calls ++ more) op := by
  obtain ⟨call, hcall, hfacts⟩ := h
  have hlt : r.promise < calls.length := (List.getElem?_eq_some_iff.mp hcall).1
  exact ⟨call, by rw [List.getElem?_append_left hlt]; exact hcall, hfacts⟩

/-- The key that a request uses is that of its call, which was made with caching. -/
theorem LoadRequest.Of.uses {calls : List Call} {op : LoaderOpName} {r : LoadRequest}
    (h : r.Of calls op) {k : String} (huses : r.Uses op k) :
    ∃ call, calls[r.promise]? = some call ∧ call.op = op ∧ call.input = r.input ∧
      call.caching = true ∧ k = call.cacheKey := by
  obtain ⟨call, hcall, hop, hinput, hkey, hdefault⟩ := h
  rcases huses with hk | ⟨hneeds, rfl⟩
  · exact ⟨call, hcall, hop, hinput, hkey k hk⟩
  · obtain ⟨hcaching, hnone⟩ := hdefault hneeds
    refine ⟨call, hcall, hop, hinput, hcaching, ?_⟩
    rw [Call.cacheKey, hnone, hop, hinput]
    rfl

namespace ParkedBut

variable {free : Nat → Prop} {s s' : State V E}

theorem lt_next (h : ParkedBut free s) {c : Nat} {r : LoadRequest}
    (hc : (s.ctx c).pendingSingle = some r) : c < s.nextCtx := by
  by_contra hge
  rw [h.ctxOk.fresh c (not_lt.mp hge)] at hc
  cases hc

/-- Settling, caching and counting park nothing. -/
theorem frame (h : ParkedBut free s) (hf : Frame s s') : ParkedBut free s' where
  ctxOk := hf.ctxOk h.ctxOk
  slot := by
    intro c r hc
    rw [hf.pending] at hc
    rw [hf.queue, hf.calls, hf.op c (h.lt_next hc)]
    exact h.slot c r hc
  group := by
    unfold State.Buffered
    rw [hf.buffer, hf.calls]
    exact h.group
  scheduled := by
    rw [hf.queue, hf.scheduled]
    exact h.scheduled
  flushing := by
    rw [hf.buffer, hf.scheduled]
    exact h.flushing
  waits := by
    intro p hp
    rw [hf.calls] at hp
    refine (h.waits p hp).imp_right fun hrest => hrest.imp hf.isSome ?_
    rintro (⟨c, r, hc, hr⟩ | ⟨op, r, hbuffered, hr⟩)
    · exact .inl ⟨c, r, by rw [hf.pending]; exact hc, hr⟩
    · exact .inr ⟨op, r, by unfold State.Buffered; rw [hf.buffer]; exact hbuffered, hr⟩

/-- The promises left out are settled. -/
theorem parked (h : ParkedBut free s) (hfree : ∀ p, free p → (s.outcome p).isSome) : Parked s where
  ctxOk := h.ctxOk
  slot := h.slot
  group := h.group
  scheduled := h.scheduled
  flushing := h.flushing
  waits := fun p hp => .inr ((h.waits p hp).elim (fun hf => .inl (hfree p hf)) id)

/-- A call is noted; its promise is not settled yet. -/
theorem called (h : Parked s) (call : Call) :
    ParkedBut (· = s.calls.length) (s.called call) where
  ctxOk := ⟨h.ctxOk.own, h.ctxOk.fresh⟩
  slot := fun c r hc => ⟨(h.slot c r hc).1, (h.slot c r hc).2.append [call]⟩
  group := fun op r hr => (h.group op r hr).append [call]
  scheduled := h.scheduled
  flushing := h.flushing
  waits := by
    intro p hp
    change p < (s.calls ++ [call]).length at hp
    rw [List.length_append, List.length_singleton] at hp
    by_cases heq : p = s.calls.length
    · exact .inl heq
    · exact .inr ((h.waits p (by omega)).resolve_left id)

end ParkedBut

/-! ## Parking a request -/

theorem mem_enqueueIn {op : LoaderOpName} {req : LoadRequest}
    {buffer : List (LoaderOpName × List LoadRequest)} {op' : LoaderOpName} {r : LoadRequest} :
    (∃ reqs, (op', reqs) ∈ State.enqueueIn op req buffer ∧ r ∈ reqs) ↔
      (op' = op ∧ r = req) ∨ ∃ reqs, (op', reqs) ∈ buffer ∧ r ∈ reqs := by
  induction buffer with
  | nil => simp [State.enqueueIn]
  | cons group buffer ih =>
    obtain ⟨op₀, reqs₀⟩ := group
    unfold State.enqueueIn
    -- The group of the operation takes the request at its end; else a later group does, or a new
    -- one.
    split
    · next heq =>
      subst heq
      simp only [List.mem_cons, Prod.mk.injEq]
      constructor
      · rintro ⟨reqs, ⟨rfl, rfl⟩ | hmem, hr⟩
        · rcases List.mem_append.mp hr with hr | hr
          · exact .inr ⟨reqs₀, .inl ⟨rfl, rfl⟩, hr⟩
          · exact .inl ⟨rfl, List.mem_singleton.mp hr⟩
        · exact .inr ⟨reqs, .inr hmem, hr⟩
      · rintro (⟨rfl, rfl⟩ | ⟨reqs, ⟨rfl, rfl⟩ | hmem, hr⟩)
        · exact ⟨_, .inl ⟨rfl, rfl⟩, List.mem_append_right _ List.mem_cons_self⟩
        · exact ⟨_, .inl ⟨rfl, rfl⟩, List.mem_append_left _ hr⟩
        · exact ⟨reqs, .inr hmem, hr⟩
    · simp only [List.mem_cons, Prod.mk.injEq]
      constructor
      · rintro ⟨reqs, ⟨rfl, rfl⟩ | hmem, hr⟩
        · exact .inr ⟨_, .inl ⟨rfl, rfl⟩, hr⟩
        · refine (ih.mp ⟨reqs, hmem, hr⟩).imp_right ?_
          rintro ⟨reqs', hmem', hr'⟩
          exact ⟨reqs', .inr hmem', hr'⟩
      · rintro (hnew | ⟨reqs, ⟨rfl, rfl⟩ | hmem, hr⟩)
        · obtain ⟨reqs, hmem, hr⟩ := ih.mpr (.inl hnew)
          exact ⟨reqs, .inr hmem, hr⟩
        · exact ⟨_, .inl ⟨rfl, rfl⟩, hr⟩
        · obtain ⟨reqs', hmem', hr'⟩ := ih.mpr (.inr ⟨reqs, hmem, hr⟩)
          exact ⟨reqs', .inr hmem', hr'⟩

namespace ParkedBut

variable {free : Nat → Prop} {s : State V E}

theorem enqueue (h : ParkedBut free s) {op : LoaderOpName} {req : LoadRequest}
    (hreq : req.Of s.calls op) :
    ParkedBut (fun p => free p ∧ p ≠ req.promise) (s.enqueue op req) where
  ctxOk := ⟨h.ctxOk.own, h.ctxOk.fresh⟩
  slot := by
    intro c r hc
    refine ⟨?_, (h.slot c r hc).2⟩
    have hmem := (h.slot c r hc).1
    show Task.flushSingle c ∈ if s.scheduled then s.queue else s.queue ++ [.flush]
    split
    · exact hmem
    · exact List.mem_append_left _ hmem
  group := by
    intro op' r hr
    rcases mem_enqueueIn.mp hr with ⟨rfl, rfl⟩ | hold
    · exact hreq
    · exact h.group op' r hold
  scheduled := by
    show (if s.scheduled then s.queue else s.queue ++ [.flush]).count .flush = 1
    have hcount := h.scheduled
    split
    · next hs =>
      rw [if_pos hs] at hcount
      exact hcount
    · next hs =>
      rw [if_neg hs] at hcount
      rw [List.count_append, hcount]
      rfl
  flushing := fun _ => rfl
  waits := by
    intro p hp
    -- the new promise waits in the buffer, every other one where it did
    by_cases heq : p = req.promise
    · exact .inr (.inr (.inr ⟨op, req, mem_enqueueIn.mpr (.inl ⟨rfl, rfl⟩), heq.symm⟩))
    · rcases h.waits p hp with hfree | hsome | hslot | ⟨op', r, hr, hrp⟩
      · exact .inl ⟨hfree, heq⟩
      · exact .inr (.inl hsome)
      · exact .inr (.inr (.inl hslot))
      · exact .inr (.inr (.inr ⟨op', r, mem_enqueueIn.mpr (.inr hr), hrp⟩))

/-- The request in a slot is taken out. -/
theorem takeSlot (h : ParkedBut free s) {c : Nat} {r : LoadRequest}
    (hc : (s.ctx c).pendingSingle = some r) {ctx : OpDispatchCtx} (hop : ctx.op = (s.ctx c).op)
    (hempty : ctx.pendingSingle = none) :
    ParkedBut (fun p => free p ∨ p = r.promise) (s.setCtx c ctx) where
  ctxOk := by
    refine ⟨fun op c' hc' => ⟨(h.ctxOk.own op c' hc').1, ?_⟩, fun c' hc' => ?_⟩
    -- The other slots are as before.
    · by_cases heq : c' = c
      · rw [heq, State.setCtx_self, hop, ← heq]
        exact (h.ctxOk.own op c' hc').2
      · rw [State.setCtx_of_ne s heq]
        exact (h.ctxOk.own op c' hc').2
    · have hlt := h.lt_next hc
      change s.nextCtx ≤ c' at hc'
      rw [State.setCtx_of_ne s (by omega)]
      exact h.ctxOk.fresh c' hc'
  slot := by
    intro c' r' hc'
    by_cases heq : c' = c
    · rw [heq, State.setCtx_self, hempty] at hc'
      cases hc'
    · rw [State.setCtx_of_ne s heq] at hc' ⊢
      exact h.slot c' r' hc'
  group := h.group
  scheduled := h.scheduled
  flushing := h.flushing
  waits := by
    intro p hp
    rcases h.waits p hp with hfree | hsome | ⟨c', r', hc', hrp⟩ | hbuffered
    · exact .inl (.inl hfree)
    · exact .inr (.inl hsome)
    · by_cases heq : c' = c
      · rw [heq, hc, Option.some.injEq] at hc'
        exact .inl (.inr (by rw [hc', hrp]))
      · exact .inr (.inr (.inl ⟨c', r', by rw [State.setCtx_of_ne s heq]; exact hc', hrp⟩))
    · exact .inr (.inr (.inr hbuffered))

/-- The empty slot of a context in use takes a request, and its microtask is queued. -/
theorem fillSlot (h : ParkedBut free s) {c : Nat} (hc : c < s.nextCtx)
    (hempty : (s.ctx c).pendingSingle = none) {r : LoadRequest}
    (hr : r.Of s.calls (s.ctx c).op) :
    ParkedBut (fun p => free p ∧ p ≠ r.promise)
      { s.setCtx c { s.ctx c with pendingSingle := some r } with
        queue := s.queue ++ [.flushSingle c] } := by
  have hself : (s.setCtx c { s.ctx c with pendingSingle := some r }).ctx c =
      { s.ctx c with pendingSingle := some r } := s.setCtx_self c _
  have hother : ∀ c', c' ≠ c →
      (s.setCtx c { s.ctx c with pendingSingle := some r }).ctx c' = s.ctx c' :=
    fun c' hne => s.setCtx_of_ne hne _
  refine ⟨⟨fun op c' hc' => ⟨(h.ctxOk.own op c' hc').1, ?_⟩, fun c' hc' => ?_⟩, ?_, h.group, ?_,
    h.flushing, ?_⟩
  · show ((s.setCtx c _).ctx c').op = op
    by_cases heq : c' = c
    · rw [heq, hself, ← heq]
      exact (h.ctxOk.own op c' hc').2
    · rw [hother c' heq]
      exact (h.ctxOk.own op c' hc').2
  · change s.nextCtx ≤ c' at hc'
    show ((s.setCtx c _).ctx c').pendingSingle = none
    rw [hother c' (by omega)]
    exact h.ctxOk.fresh c' hc'
  · intro c' r' hc'
    change ((s.setCtx c _).ctx c').pendingSingle = some r' at hc'
    show Task.flushSingle c' ∈ s.queue ++ [.flushSingle c] ∧
      r'.Of s.calls ((s.setCtx c _).ctx c').op
    by_cases heq : c' = c
    · rw [heq, hself] at hc' ⊢
      cases hc'
      exact ⟨List.mem_append_right _ List.mem_cons_self, hr⟩
    · rw [hother c' heq] at hc' ⊢
      exact ⟨List.mem_append_left _ (h.slot c' r' hc').1, (h.slot c' r' hc').2⟩
  · show (s.queue ++ [Task.flushSingle c]).count Task.flush = _
    rw [List.count_append]
    exact h.scheduled
  · -- the request waits in the slot now; nobody waited there before
    intro p hp
    by_cases heq : p = r.promise
    · exact .inr (.inr (.inl ⟨c, r, by show ((s.setCtx c _).ctx c).pendingSingle = _; rw [hself],
        heq.symm⟩))
    · rcases h.waits p hp with hfree | hsome | ⟨c', r', hc', hrp⟩ | hbuffered
      · exact .inl ⟨hfree, heq⟩
      · exact .inr (.inl hsome)
      · have hne : c' ≠ c := by
          intro hcc
          rw [hcc, hempty] at hc'
          cases hc'
        exact .inr (.inr (.inl ⟨c', r', by
          show ((s.setCtx c _).ctx c').pendingSingle = _
          rw [hother c' hne]
          exact hc', hrp⟩))
      · exact .inr (.inr (.inr hbuffered))

end ParkedBut

/-! ## Calls of `load` -/

section

variable {G : Nat → Outcome V E → Prop} {C : String → V → Prop} {s : State V E}

/-- What `loadOne` finds out about the key: a hit is an entry under the key of the call, and only
a call without a key in a burst leaves its key to the flush. -/
structure State.Looked (C : String → V → Prop) (s : State V E) (op : LoaderOpName) (input : Bytes)
    (key : Option String) (l : State.Lookup V) : Prop where
  hit : ∀ v, l.hit = some v → C (cacheKey op (key.getD (defaultRaw input))) v
  own : ∀ k, l.key = some k → k = cacheKey op (key.getD (defaultRaw input))
  deferred : l.needsDefaultKey = true → key = none ∧ s.buffer ≠ []

theorem State.buffer_ne_nil_of_pending (h : 0 < s.pending) : s.buffer ≠ [] := by
  intro hnil
  rw [State.pending, hnil] at h
  exact absurd h (by simp)

theorem State.lookup_spec (h : Sound G C s) (c : Nat) (input : Bytes) (key : Option String) :
    Frame s (s.lookup c input key).2 ∧ Sound G C (s.lookup c input key).2 ∧
      s.Looked C (s.ctx c).op input key (s.lookup c input key).1 := by
  unfold State.lookup
  split
  · next raw =>
    obtain ⟨hhit, hsound⟩ := h.get (Loader.cacheKey (s.ctx c).op raw)
    exact ⟨s.cache_frame _, hsound, hhit, fun k hk => (Option.some.inj hk).symm,
      fun hd => absurd hd (by simp)⟩
  · split
    · next hburst =>
      exact ⟨.refl s, h, fun v hv => absurd hv (by simp), fun k hk => absurd hk (by simp),
        fun _ => ⟨rfl, buffer_ne_nil_of_pending hburst.2.2⟩⟩
    · obtain ⟨hframe, hsound, hhit, hkey⟩ := defaultLookup_spec h c input
      exact ⟨hframe, hsound, hhit, hkey, fun hd => absurd hd (by simp)⟩

/-- The promise's executor parks the request. -/
theorem ParkedBut.park {c : Nat} {req : LoadRequest} (h : ParkedBut (· = req.promise) s)
    (hc : c < s.nextCtx) (hreq : req.Of s.calls (s.ctx c).op) : Parked (s.park c req) := by
  have hplain : ({ req with needsDefaultKey := false } : LoadRequest).Of s.calls (s.ctx c).op := by
    obtain ⟨call, hcall, hop, hinput, hkey, -⟩ := hreq
    exact ⟨call, hcall, hop, hinput, hkey, fun hd => absurd hd (by simp)⟩
  unfold State.park
  dsimp only
  split
  · refine (h.enqueue hreq).parked fun p hp => absurd hp.1 hp.2
  · split
    · next hempty =>
      exact (h.fillSlot hc hempty hplain).parked fun p hp => absurd hp.1 hp.2
    · next first hfirst =>
      -- the first request leaves the slot, then both are enqueued
      have hout : ParkedBut (fun p => p = req.promise ∨ p = first.promise)
          (s.setCtx c { s.ctx c with mode := .coalesce, pendingSingle := none }) :=
        h.takeSlot hfirst rfl rfl
      refine ((hout.enqueue (h.slot c first hfirst).2).enqueue hplain).parked ?_
      rintro p ⟨⟨hp | hp, hnot⟩, hnot'⟩
      · exact absurd hp hnot'
      · exact absurd hp hnot

/-- The call that `loadOne` notes. -/
def State.callOf (s : State V E) (op : LoaderOpName) (input : Bytes) (opts : LoadOptions) : Call :=
  ⟨op, input, opts.key, !op.hasRequiredRest && s.options.caches opts⟩

theorem State.called_sound (h : Sound G C s) (call : Call) : Sound G C (s.called call) :=
  ⟨h.outcomes, h.cached⟩

theorem State.park_frame (c : Nat) (req : LoadRequest) :
    (s.park c req).calls = s.calls ∧ (s.park c req).outcome = s.outcome ∧
      (s.park c req).cache = s.cache := by
  unfold State.park
  dsimp only
  split
  · exact ⟨rfl, rfl, rfl⟩
  · split
    · exact ⟨rfl, rfl, rfl⟩
    · exact ⟨rfl, rfl, rfl⟩

/-- **A call of `load`** returns a promise that is settled at once, or parks its request. -/
theorem State.loadOne_spec (h : Parked s) (hs : Sound G C s) (op : LoaderOpName) (input : Bytes)
    (opts : LoadOptions)
    (hrefused : op.hasRequiredRest = true → G s.calls.length .refused)
    (hhit : (s.callOf op input opts).caching = true →
      ∀ v, C (s.callOf op input opts).cacheKey v → G s.calls.length (.resolved v)) :
    Parked (s.loadOne op input opts) ∧ Sound G C (s.loadOne op input opts) ∧
      (s.loadOne op input opts).calls = s.calls ++ [s.callOf op input opts] ∧
      ∀ p out, s.outcome p = some out → (s.loadOne op input opts).outcome p = some out := by
  unfold State.loadOne
  dsimp only
  split
  · next hrest =>
    have hcall : (⟨op, input, opts.key, false⟩ : Call) = s.callOf op input opts := by
      rw [State.callOf, hrest]
      rfl
    rw [hcall]
    have hframe := (s.called (s.callOf op input opts)).settle_frame s.calls.length .refused
    refine ⟨((ParkedBut.called h _).frame hframe).parked fun p hp => ?_,
      (s.called_sound hs _).settle (hrefused hrest), hframe.calls, hframe.settled⟩
    rw [hp]
    exact State.settle_isSome _ _ _
  · next hrest =>
    have hcall : (⟨op, input, opts.key, s.options.caches opts⟩ : Call) = s.callOf op input opts := by
      rw [State.callOf, Bool.eq_false_iff.mpr hrest]
      rfl
    have hcaching : (s.callOf op input opts).caching = s.options.caches opts := by rw [← hcall]
    rw [hcall]
    have hcalled := ParkedBut.called h (s.callOf op input opts)
    obtain ⟨hfor, hctxs, hout, hcache⟩ :=
      (s.called (s.callOf op input opts)).ctxFor_spec hcalled.ctxOk op
    generalize (s.called (s.callOf op input opts)).ctxFor op = f at hfor hctxs hout hcache ⊢
    obtain ⟨hc, hop⟩ := (hfor.ctxOk hcalled.ctxOk).own op f.1 hctxs
    have hsound : Sound G C f.2 := by
      refine ⟨?_, ?_⟩
      · rw [hout]
        exact hs.outcomes
      · rw [hcache]
        exact hs.cached
    -- without caching nothing is looked up
    have hlook : ∀ l : State.Lookup V × State V E, l = (if s.options.caches opts then
        f.2.lookup f.1 input opts.key else (⟨none, none, false⟩, f.2)) →
          Frame f.2 l.2 ∧ Sound G C l.2 ∧ f.2.Looked C op input opts.key l.1 ∧
            (s.options.caches opts = false → l.1 = ⟨none, none, false⟩) := by
      intro l hl
      subst hl
      split
      · next hon =>
        obtain ⟨hframe, hs', hlooked⟩ := State.lookup_spec hsound f.1 input opts.key
        rw [hop] at hlooked
        exact ⟨hframe, hs', hlooked, fun hoff => absurd (hon.symm.trans hoff) (by simp)⟩
      · exact ⟨.refl _, hsound, ⟨fun v hv => absurd hv (by simp), fun k hk => absurd hk (by simp),
          fun hd => absurd hd (by simp)⟩, fun _ => rfl⟩
    generalize (if s.options.caches opts then f.2.lookup f.1 input opts.key
      else (⟨none, none, false⟩, f.2)) = l at hlook ⊢
    obtain ⟨hlframe, hlsound, hlooked, hoff⟩ := hlook l rfl
    have hparked := (hcalled.frame hfor).frame hlframe
    have hcalls : l.2.calls = s.calls ++ [s.callOf op input opts] :=
      hlframe.calls.trans hfor.calls
    have hkeep : ∀ p out, s.outcome p = some out → l.2.outcome p = some out :=
      fun p out hp => hlframe.settled p out (hfor.settled p out hp)
    split
    · next v hv =>
      have hon : (s.callOf op input opts).caching = true := by
        rw [hcaching]
        by_contra hno
        rw [hoff (by simpa using hno)] at hv
        cases hv
      have hframe := l.2.settle_frame s.calls.length (.resolved v)
      refine ⟨(hparked.frame hframe).parked fun p hp => ?_, hlsound.settle
        (hhit hon v (hlooked.hit v hv)), hframe.calls.trans hcalls,
        fun p out hp => hframe.settled p out (hkeep p out hp)⟩
      rw [hp]
      exact State.settle_isSome _ _ _
    · have hparts := State.park_frame (s := l.2) f.1
        ⟨s.calls.length, input, l.1.key, l.1.needsDefaultKey⟩
      refine ⟨?_, ⟨?_, ?_⟩, hparts.1.trans hcalls, ?_⟩
      · refine ParkedBut.park hparked (lt_of_lt_of_le hc hlframe.next) ?_
        rw [hlframe.op f.1 hc, hop, hcalls]
        refine ⟨s.callOf op input opts, by simp, rfl, rfl, fun k hk => ?_, fun hd => ?_⟩
        · refine ⟨?_, hlooked.own k hk⟩
          rw [hcaching]
          by_contra hno
          rw [hoff (by simpa using hno)] at hk
          cases hk
        · refine ⟨?_, (hlooked.deferred hd).1⟩
          rw [hcaching]
          by_contra hno
          rw [hoff (by simpa using hno)] at hd
          cases hd
      · rw [hparts.2.1]
        exact hlsound.outcomes
      · rw [hparts.2.2]
        exact hlsound.cached
      · rw [hparts.2.1]
        exact hkeep

end

/-! ## Microtasks -/

namespace ParkedBut

variable {free : Nat → Prop} {s : State V E}

/-- The microtask of an empty slot is taken off the queue. -/
theorem popSingle (h : ParkedBut free s) {c : Nat} {queue : List Task}
    (hq : s.queue = .flushSingle c :: queue) (hempty : (s.ctx c).pendingSingle = none) :
    ParkedBut free { s with queue := queue } where
  ctxOk := ⟨h.ctxOk.own, h.ctxOk.fresh⟩
  slot := by
    intro c' r hc'
    obtain ⟨hmem, hr⟩ := h.slot c' r hc'
    refine ⟨?_, hr⟩
    rw [hq] at hmem
    rcases List.mem_cons.mp hmem with heq | hmem
    · cases heq
      exact absurd (hc'.symm.trans hempty) (by simp)
    · exact hmem
  group := h.group
  scheduled := by
    have hcount := h.scheduled
    rw [hq, List.count_cons_of_ne (by simp)] at hcount
    exact hcount
  flushing := h.flushing
  waits := h.waits

/-- The flush is taken off the queue, with everything that is buffered. -/
theorem popFlush (h : Parked s) {queue : List Task} (hq : s.queue = .flush :: queue) :
    ParkedBut (fun p => ∃ op r, s.Buffered op r ∧ r.promise = p)
      { s with queue := queue, buffer := [], scheduled := false } where
  ctxOk := ⟨h.ctxOk.own, h.ctxOk.fresh⟩
  slot := by
    intro c r hc
    obtain ⟨hmem, hr⟩ := h.slot c r hc
    refine ⟨?_, hr⟩
    rw [hq] at hmem
    exact (List.mem_cons.mp hmem).resolve_left (by simp)
  group := fun op r ⟨reqs, hmem, _⟩ => absurd hmem List.not_mem_nil
  scheduled := by
    have hcount := h.scheduled
    rw [hq, List.count_cons_self] at hcount
    show queue.count .flush = 0
    split at hcount
    · omega
    · omega
  flushing := fun hne => absurd rfl hne
  waits := by
    intro p hp
    rcases h.waits p hp with hfalse | hsome | hslot | hbuffered
    · exact hfalse.elim
    · exact .inr (.inl hsome)
    · exact .inr (.inr (.inl hslot))
    · exact .inl hbuffered

end ParkedBut

/-- What a microtask leaves, with `queue` behind it in the queue. -/
structure Served (G : Nat → Outcome V E → Prop) (C : String → V → Prop) (s : State V E)
    (queue : List Task) (s' : State V E) : Prop where
  parked : Parked s'
  sound : Sound G C s'
  calls : s'.calls = s.calls
  queue : s'.queue = queue
  settled : ∀ p out, s.outcome p = some out → s'.outcome p = some out

section

variable {G : Nat → Outcome V E → Prop} {C C' : String → V → Prop} {s : State V E}
variable {N : Natives V E} {apply : LoaderOpName → Bytes → V} (hN : N.Faithful apply)

include hN

/-- **The microtask of a slot** settles the request it finds. -/
theorem State.flushSingle_spec (h : Parked s) (hs : Sound G C s) {c : Nat} {queue : List Task}
    (hq : s.queue = .flushSingle c :: queue)
    (hslot : ∀ r, (s.ctx c).pendingSingle = some r → Group apply G C C' (s.ctx c).op [r])
    (hmono : ∀ k v, C k v → C' k v) :
    Served G C' s queue (State.flushSingle N { s with queue := queue } c) := by
  unfold State.flushSingle
  dsimp only
  split
  · next hempty =>
    exact ⟨h.popSingle hq hempty, ⟨hs.outcomes, fun k v hkv => hmono k v (hs.cached k v hkv)⟩, rfl,
      rfl, fun _ _ hp => hp⟩
  · next r hr =>
    have hgroup := hslot r hr
    have htake : ParkedBut (fun p => False ∨ p = r.promise)
        (s.setCtx c { s.ctx c with pendingSingle := none }) := h.takeSlot hr rfl rfl
    have hpop := htake.popSingle (c := c) hq (by rw [State.setCtx_self])
    have hop : ((s.setCtx c { s.ctx c with pendingSingle := none }).ctx c).op = (s.ctx c).op := by
      rw [State.setCtx_self]
    have hmem := List.mem_singleton_self r
    obtain ⟨hframe, hsound, hsome⟩ := State.flushLone_hands hN (C := C')
      (s := { s.setCtx c { s.ctx c with pendingSingle := none } with queue := queue })
      ⟨hs.outcomes, fun k v hkv => hmono k v (hs.cached k v hkv)⟩ c r
      (by rw [hop]; exact hgroup.computed r hmem)
      (fun k hk => by rw [hop]; exact hgroup.written r hmem k (.inl hk)) (hgroup.thrown r hmem)
    refine ⟨(hpop.frame hframe).parked fun p hp => ?_, hsound, hframe.calls, hframe.queue,
      hframe.settled⟩
    rw [hp.resolve_left id]
    exact hsome

/-- **The flush of the coalescer** settles everything that is buffered. -/
theorem State.flush_spec (D : List (LoaderOpName × List LoadRequest) → String → V → Prop)
    (h : Parked s) (hs : Sound G (D s.buffer) s) {queue : List Task}
    (hq : s.queue = .flush :: queue)
    (hgroups : ∀ pre op reqs rest, s.buffer = pre ++ (op, reqs) :: rest →
      Group apply G (D ((op, reqs) :: rest)) (D rest) op reqs)
    (hloop : ∀ op reqs, (op, reqs) ∈ s.buffer → op.fast = false → 2 ≤ reqs.length →
      reqs.length < s.batchMinOf op → ∀ t, scalarLoopBulk N op reqs = .error t →
        ∀ r ∈ reqs, G r.promise (.rejected t)) :
    Served G (D []) s queue (State.runTask N { s with queue := queue } .flush) := by
  have hpop := ParkedBut.popFlush h hq
  obtain ⟨hframe, hsound, hall⟩ := State.flushGroups_spec hN D
    (s := { s with queue := queue, buffer := [], scheduled := false }) hpop.ctxOk
    ⟨hs.outcomes, hs.cached⟩ hgroups hloop
  refine ⟨(hpop.frame hframe).parked ?_, hsound, hframe.calls, hframe.queue, hframe.settled⟩
  rintro p ⟨op, r, ⟨reqs, hmem, hr⟩, rfl⟩
  exact hall op reqs hmem r hr

end

/-! ## The other moves -/

section

variable {G : Nat → Outcome V E → Prop} {C : String → V → Prop} {s : State V E}

/-- `configure`, `clear` and what the cost model learns leave everything parked, and the cache
without a new entry. -/
theorem Parked.configure (h : Parked s) (next : ConfigureOptions) : Parked (s.configure next) where
  ctxOk := ⟨fun op c hc => absurd hc (by simp [State.configure]), h.ctxOk.fresh⟩
  slot := h.slot
  group := h.group
  scheduled := h.scheduled
  flushing := h.flushing
  waits := h.waits

theorem Sound.configure (h : Sound G C s) (next : ConfigureOptions) :
    Sound G C (s.configure next) := by
  refine ⟨h.outcomes, fun k v hkv => ?_⟩
  have hcache : (s.configure next).cache = s.cache ∨
      ∃ maxKeys, (s.configure next).cache = .create maxKeys := by
    rw [State.configure]
    dsimp only
    split
    · exact .inl rfl
    · exact .inr ⟨_, rfl⟩
  rcases hcache with hsame | ⟨maxKeys, hfresh⟩
  · rw [hsame] at hkv
    exact h.cached k v hkv
  · rw [hfresh] at hkv
    exact absurd hkv List.not_mem_nil

theorem Parked.learn (h : Parked s) (c batchMin : Nat) :
    Parked (s.setCtx c { s.ctx c with batchMin := batchMin }) := by
  -- the context keeps its op and its slot
  have hop : ∀ c', ((s.setCtx c { s.ctx c with batchMin := batchMin }).ctx c').op =
      (s.ctx c').op := s.setCtx_proj OpDispatchCtx.op rfl
  have hpending : ∀ c',
      ((s.setCtx c { s.ctx c with batchMin := batchMin }).ctx c').pendingSingle =
        (s.ctx c').pendingSingle := s.setCtx_proj OpDispatchCtx.pendingSingle rfl
  refine ⟨⟨fun op c' hc' => ⟨(h.ctxOk.own op c' hc').1, ?_⟩, fun c' hc' => ?_⟩, fun c' r hc' => ?_,
    h.group, h.scheduled, h.flushing, fun p hp => ?_⟩
  · rw [hop c']
    exact (h.ctxOk.own op c' hc').2
  · rw [hpending c']
    exact h.ctxOk.fresh c' hc'
  · rw [hpending c'] at hc'
    rw [hop c']
    exact h.slot c' r hc'
  · rcases h.waits p hp with hfalse | hsome | ⟨c', r, hc', hr⟩ | hbuffered
    · exact hfalse.elim
    · exact .inr (.inl hsome)
    · exact .inr (.inr (.inl ⟨c', r, by rw [hpending c']; exact hc', hr⟩))
    · exact .inr (.inr (.inr hbuffered))

end

end

end Castrum.Loader
