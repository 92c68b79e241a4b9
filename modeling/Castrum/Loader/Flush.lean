import Castrum.Loader.Load

/-!
# Castrum — what a flush hands out (`handleFlush`, `src/loader/index.ts`)

A flush settles promises, writes the cache and counts; it parks nothing and leaves what is parked
alone. What it settles a promise with is the value computed for that very request, an error of a
native call, or a cached value found under the key of the request.

What a settled promise and a cache entry have to satisfy is a parameter: `G` is about promises,
`C` about entries.

* `Frame` — what a flush leaves alone;
* `Sound` — every settled promise satisfies `G` and every cache entry `C`;
* `handleFlush_spec`, `flushSingle_spec` — a flush settles its requests, and keeps both.
-/

namespace Castrum.Loader

section

variable {V E : Type}

/-! ## The frame -/

/-- The contexts of the ops are theirs, and cells not in use are empty. -/
structure CtxOk (s : State V E) : Prop where
  own : ∀ op c, s.ctxs op = some c → c < s.nextCtx ∧ (s.ctx c).op = op
  fresh : ∀ c, s.nextCtx ≤ c → (s.ctx c).pendingSingle = none

/-- The threshold of the op's context, or the one a new context gets. -/
def State.batchMinOf (s : State V E) (op : LoaderOpName) : Nat :=
  match s.ctxs op with
  | some c => (s.ctx c).batchMin
  | none => s.options.batchMin

/-- What settling promises, caching and counting leave alone. -/
structure Frame (s s' : State V E) : Prop where
  buffer : s'.buffer = s.buffer
  scheduled : s'.scheduled = s.scheduled
  queue : s'.queue = s.queue
  calls : s'.calls = s.calls
  settled : ∀ p out, s.outcome p = some out → s'.outcome p = some out
  pending : ∀ c, (s'.ctx c).pendingSingle = (s.ctx c).pendingSingle
  op : ∀ c, c < s.nextCtx → (s'.ctx c).op = (s.ctx c).op
  next : s.nextCtx ≤ s'.nextCtx
  ctxOk : CtxOk s → CtxOk s'
  batchMin : ∀ op, s'.batchMinOf op = s.batchMinOf op

namespace Frame

variable {s s' s'' : State V E}

theorem refl (s : State V E) : Frame s s :=
  ⟨rfl, rfl, rfl, rfl, fun _ _ h => h, fun _ => rfl, fun _ _ => rfl, le_rfl, id, fun _ => rfl⟩

theorem trans (h : Frame s s') (h' : Frame s' s'') : Frame s s'' where
  buffer := h'.buffer.trans h.buffer
  scheduled := h'.scheduled.trans h.scheduled
  queue := h'.queue.trans h.queue
  calls := h'.calls.trans h.calls
  settled := fun p out hp => h'.settled p out (h.settled p out hp)
  pending := fun c => (h'.pending c).trans (h.pending c)
  op := fun c hc => (h'.op c (lt_of_lt_of_le hc h.next)).trans (h.op c hc)
  next := h.next.trans h'.next
  ctxOk := fun hok => h'.ctxOk (h.ctxOk hok)
  batchMin := fun op => (h'.batchMin op).trans (h.batchMin op)

/-- A promise that was settled stays settled. -/
theorem isSome (h : Frame s s') {p : Nat} (hp : (s.outcome p).isSome) : (s'.outcome p).isSome := by
  obtain ⟨out, hout⟩ := Option.isSome_iff_exists.mp hp
  rw [h.settled p out hout]
  rfl

end Frame

/-! ### The parts of a flush -/

section

variable (s : State V E)

theorem State.settle_frame (p : Nat) (out : Outcome V E) : Frame s (s.settle p out) := by
  unfold State.settle
  split
  · exact .refl s
  · next hnone =>
    refine ⟨rfl, rfl, rfl, rfl, fun q o hq => ?_, fun _ => rfl, fun _ _ => rfl, le_rfl,
      fun h => ⟨h.own, h.fresh⟩, fun _ => rfl⟩
    have hqp : q ≠ p := by
      intro heq
      rw [← heq, hq] at hnone
      exact hnone rfl
    show Function.update s.outcome p (some out) q = some o
    rw [Function.update_of_ne hqp, hq]

theorem State.settle_isSome (p : Nat) (out : Outcome V E) :
    ((s.settle p out).outcome p).isSome := by
  unfold State.settle
  split
  · next h => exact h
  · show (Function.update s.outcome p (some out) p).isSome
    rw [Function.update_self]
    rfl

@[simp] theorem State.setCtx_self (c : Nat) (ctx : OpDispatchCtx) :
    (s.setCtx c ctx).ctx c = ctx :=
  Function.update_self ..

theorem State.setCtx_of_ne {c c' : Nat} (h : c' ≠ c) (ctx : OpDispatchCtx) :
    (s.setCtx c ctx).ctx c' = s.ctx c' :=
  Function.update_of_ne h ..

/-- What a context keeps, every context keeps. -/
theorem State.setCtx_proj {α : Type} (f : OpDispatchCtx → α) {c : Nat} {ctx : OpDispatchCtx}
    (h : f ctx = f (s.ctx c)) (c' : Nat) : f ((s.setCtx c ctx).ctx c') = f (s.ctx c') := by
  by_cases heq : c' = c
  · rw [heq, State.setCtx_self, h]
  · rw [State.setCtx_of_ne s heq]

/-- A context that differs in its counters only. -/
theorem State.setCtx_frame {c : Nat} {ctx : OpDispatchCtx} (hop : ctx.op = (s.ctx c).op)
    (hpending : ctx.pendingSingle = (s.ctx c).pendingSingle)
    (hmin : ctx.batchMin = (s.ctx c).batchMin) : Frame s (s.setCtx c ctx) := by
  have hops := s.setCtx_proj OpDispatchCtx.op hop
  have hpendings := s.setCtx_proj OpDispatchCtx.pendingSingle hpending
  refine ⟨rfl, rfl, rfl, rfl, fun _ _ h => h, hpendings, fun c' _ => hops c', le_rfl,
    fun h => ⟨fun op c' hc => ⟨(h.own op c' hc).1, ?_⟩, fun c' hc => ?_⟩, fun op => ?_⟩
  · rw [hops c']
    exact (h.own op c' hc).2
  · rw [hpendings c']
    exact h.fresh c' hc
  · unfold State.batchMinOf
    rw [show (s.setCtx c ctx).ctxs op = s.ctxs op from rfl]
    split
    · exact s.setCtx_proj OpDispatchCtx.batchMin hmin _
    · rfl

theorem State.cache_frame (cache : LoaderCache V) : Frame s { s with cache := cache } :=
  ⟨rfl, rfl, rfl, rfl, fun _ _ h => h, fun _ => rfl, fun _ _ => rfl, le_rfl,
    fun h => ⟨h.own, h.fresh⟩, fun _ => rfl⟩

/-- The context a flush works with. -/
theorem State.ctxFor_spec (hok : CtxOk s) (op : LoaderOpName) :
    Frame s (s.ctxFor op).2 ∧ (s.ctxFor op).2.ctxs op = some (s.ctxFor op).1 ∧
      (s.ctxFor op).2.outcome = s.outcome ∧ (s.ctxFor op).2.cache = s.cache := by
  unfold State.ctxFor
  split
  · next c hc => exact ⟨.refl s, hc, rfl, rfl⟩
  · next hnone =>
    -- a new context takes a fresh cell, which nothing refers to
    dsimp only
    refine ⟨⟨rfl, rfl, rfl, rfl, fun _ _ h => h, fun c => ?_, fun c hc => ?_, Nat.le_succ _,
      fun _ => ⟨fun op' c hc => ?_, fun c hc => ?_⟩, fun op' => ?_⟩, Function.update_self .., rfl, rfl⟩
    · show (Function.update s.ctx s.nextCtx _ c).pendingSingle = _
      by_cases heq : c = s.nextCtx
      · rw [heq, Function.update_self, hok.fresh _ le_rfl]
      · rw [Function.update_of_ne heq]
    · show (Function.update s.ctx s.nextCtx _ c).op = _
      rw [Function.update_of_ne (by omega)]
    · change Function.update s.ctxs op (some s.nextCtx) op' = some c at hc
      show c < s.nextCtx + 1 ∧ (Function.update s.ctx s.nextCtx _ c).op = op'
      by_cases hop : op' = op
      · subst hop
        rw [Function.update_self, Option.some.injEq] at hc
        subst hc
        exact ⟨Nat.lt_succ_self _, by rw [Function.update_self]⟩
      · rw [Function.update_of_ne hop] at hc
        obtain ⟨hlt, hown⟩ := hok.own op' c hc
        exact ⟨Nat.lt_succ_of_lt hlt, by rw [Function.update_of_ne (by omega)]; exact hown⟩
    · change s.nextCtx + 1 ≤ c at hc
      show (Function.update s.ctx s.nextCtx _ c).pendingSingle = none
      rw [Function.update_of_ne (by omega)]
      exact hok.fresh c (by omega)
    · unfold State.batchMinOf
      by_cases hop : op' = op
      · subst hop
        simp [hnone, State.setCtx]
      · have hctxs : Function.update s.ctxs op (some s.nextCtx) op' = s.ctxs op' :=
          Function.update_of_ne hop ..
        dsimp only
        rw [hctxs]
        split
        · next c hc =>
          rw [State.setCtx_of_ne s (by have := (hok.own op' c hc).1; omega)]
        · rfl

end

/-! ## Promises and entries -/

/-- Every settled promise satisfies `G`, and every cache entry `C`. -/
structure Sound (G : Nat → Outcome V E → Prop) (C : String → V → Prop) (s : State V E) : Prop where
  outcomes : ∀ p out, s.outcome p = some out → G p out
  cached : ∀ k v, (k, v) ∈ s.cache.lru.entries → C k v

/-- The cache key of a request, or the one that the flush computes for it. -/
def LoadRequest.Uses (op : LoaderOpName) (req : LoadRequest) (k : String) : Prop :=
  req.key = some k ∨ req.needsDefaultKey = true ∧ k = defaultKey op req.input

/-- What the native calls are relied on for: a result is that of the op on each input, in order. -/
structure Natives.Faithful (N : Natives V E) (apply : LoaderOpName → Bytes → V) : Prop where
  scalar : ∀ op x v, N.scalar op x = .ok v → v = apply op x
  batch : ∀ op xs f, N.batch op xs = .ok f → ∀ i (h : i < xs.length), f i = apply op xs[i]
  fastBatch : ∀ op xs f, N.fastBatch op xs = .ok f → ∀ i (h : i < xs.length), f i = apply op xs[i]

/-- What a group of requests needs in order to keep `G` and `C`: hits are fine under `C`, and what
is computed for a request is fine for its promise and, as the entry written under its key, for
`C'`. -/
structure Group (apply : LoaderOpName → Bytes → V) (G : Nat → Outcome V E → Prop)
    (C C' : String → V → Prop) (op : LoaderOpName) (reqs : List LoadRequest) : Prop where
  hit : ∀ r ∈ reqs, ∀ k v, r.Uses op k → C k v → G r.promise (.resolved v)
  computed : ∀ r ∈ reqs, G r.promise (.resolved (apply op r.input))
  written : ∀ r ∈ reqs, ∀ k, r.Uses op k → C' k (apply op r.input)
  thrown : ∀ r ∈ reqs, ∀ t, r.promise ∈ t.carried → G r.promise (.rejected t)
  mono : ∀ k v, C k v → C' k v

section

variable {G : Nat → Outcome V E → Prop} {C C' : String → V → Prop} {s : State V E}

theorem Sound.mono (h : Sound G C s) (hC : ∀ k v, C k v → C' k v) : Sound G C' s :=
  ⟨h.outcomes, fun k v hkv => hC k v (h.cached k v hkv)⟩

theorem Sound.setCtx (h : Sound G C s) (c : Nat) (ctx : OpDispatchCtx) :
    Sound G C (s.setCtx c ctx) :=
  ⟨h.outcomes, h.cached⟩

theorem Sound.settle (h : Sound G C s) {p : Nat} {out : Outcome V E} (hout : G p out) :
    Sound G C (s.settle p out) := by
  unfold State.settle
  split
  · exact h
  · refine ⟨fun q o hq => ?_, h.cached⟩
    change Function.update s.outcome p (some out) q = some o at hq
    by_cases heq : q = p
    · rw [heq, Function.update_self, Option.some.injEq] at hq
      rw [heq, ← hq]
      exact hout
    · rw [Function.update_of_ne heq] at hq
      exact h.outcomes q o hq

theorem Sound.cacheSet (h : Sound G C s) {k : String} {v : V} (hC : C k v) :
    Sound G C (s.cacheSet k v) := by
  refine ⟨h.outcomes, fun k' v' hmem => ?_⟩
  rcases LruMap.mem_touch (M := Lru) hmem with heq | hold
  · cases heq
    exact hC
  · exact h.cached k' v' hold

theorem Sound.maybeCache (h : Sound G C s) {key : Option String} {v : V}
    (hC : ∀ k, key = some k → C k v) : Sound G C (s.maybeCache key v) := by
  cases key with
  | none => exact h
  | some k => exact h.cacheSet (hC k rfl)

/-- A look into the cache: a hit is an entry, and no entry is new. -/
theorem Sound.get (h : Sound G C s) (k : String) :
    (∀ v, (s.cache.get k).1 = some v → C k v) ∧
      Sound G C { s with cache := (s.cache.get k).2 } := by
  unfold LoaderCache.get
  split
  · next v hv =>
    have hC : C k v := h.cached k v (LruMap.mem_of_get? (M := Lru) hv)
    refine ⟨fun v' hv' => ?_, h.cacheSet hC⟩
    cases hv'
    exact hC
  · exact ⟨fun v hv => absurd hv (by simp), ⟨h.outcomes, h.cached⟩⟩

end

/-! ## Handing out -/

/-- A part of a flush that settles the promises of `reqs`. -/
structure Hands (G : Nat → Outcome V E → Prop) (C : String → V → Prop) (s s' : State V E)
    (reqs : List LoadRequest) : Prop where
  frame : Frame s s'
  sound : Sound G C s'
  settled : ∀ r ∈ reqs, (s'.outcome r.promise).isSome

section

variable {G : Nat → Outcome V E → Prop} {C C' : String → V → Prop} {s : State V E}

theorem Hands.nil (h : Sound G C s) : Hands G C s s [] := ⟨.refl s, h, fun _ h => nomatch h⟩

theorem Hands.cons {s' s'' : State V E} {r : LoadRequest} {reqs : List LoadRequest}
    (hframe : Frame s s') (hr : (s'.outcome r.promise).isSome) (h : Hands G C s' s'' reqs) :
    Hands G C s s'' (r :: reqs) := by
  refine ⟨hframe.trans h.frame, h.sound, fun r' hr' => ?_⟩
  rcases List.mem_cons.mp hr' with rfl | hr'
  · exact h.frame.isSome hr
  · exact h.settled r' hr'

theorem State.deliverOne_spec (h : Sound G C s) {r : LoadRequest} {v : V}
    (hG : G r.promise (.resolved v)) (hC : ∀ k, r.key = some k → C k v) :
    Frame s (s.deliverOne r v) ∧ Sound G C (s.deliverOne r v) ∧
      ((s.deliverOne r v).outcome r.promise).isSome := by
  have hcache : Frame s (s.maybeCache r.key v) := by
    unfold State.maybeCache
    split
    · exact s.cache_frame _
    · exact .refl s
  exact ⟨hcache.trans (State.settle_frame _ _ _), (h.maybeCache hC).settle hG,
    State.settle_isSome _ _ _⟩

theorem State.deliver_hands {f : LoadRequest → V} {reqs : List LoadRequest} (h : Sound G C s)
    (hG : ∀ r ∈ reqs, G r.promise (.resolved (f r)))
    (hC : ∀ r ∈ reqs, ∀ k, r.key = some k → C k (f r)) :
    Hands G C s (deliver (reqs.zip (reqs.map f)) s) reqs := by
  induction reqs generalizing s with
  | nil => exact .nil h
  | cons r reqs ih =>
    obtain ⟨hframe, hsound, hsome⟩ := deliverOne_spec h (hG r List.mem_cons_self)
      (hC r List.mem_cons_self)
    exact .cons hframe hsome (ih hsound (fun r hr => hG r (List.mem_cons_of_mem _ hr))
      (fun r hr => hC r (List.mem_cons_of_mem _ hr)))

theorem State.rejectAll_hands {thrown : Thrown E} {reqs : List LoadRequest} (h : Sound G C s)
    (hG : ∀ r ∈ reqs, G r.promise (.rejected thrown)) :
    Hands G C s (rejectAll thrown reqs s) reqs := by
  induction reqs generalizing s with
  | nil => exact .nil h
  | cons r reqs ih =>
    exact .cons (s.settle_frame _ _) (s.settle_isSome _ _)
      (ih (h.settle (hG r List.mem_cons_self)) fun r hr => hG r (List.mem_cons_of_mem _ hr))

theorem State.finish_hands {f : LoadRequest → V} {reqs : List LoadRequest}
    {result : Except (Thrown E) (List V)} (h : Sound G C s)
    (hvalues : ∀ values, result = .ok values → values = reqs.map f)
    (hG : ∀ r ∈ reqs, G r.promise (.resolved (f r)))
    (hC : ∀ r ∈ reqs, ∀ k, r.key = some k → C k (f r))
    (hthrown : ∀ t, result = .error t → ∀ r ∈ reqs, G r.promise (.rejected t)) :
    Hands G C s (s.finish reqs result) reqs := by
  cases result with
  | error t => exact rejectAll_hands h (hthrown t rfl)
  | ok values =>
    rw [hvalues values rfl]
    exact deliver_hands h hG hC

end

/-! ## Native dispatch -/

section

variable {N : Natives V E} {apply : LoaderOpName → Bytes → V} (hN : N.Faithful apply)

include hN

theorem dispatchSingle_ok {op : LoaderOpName} {req : LoadRequest} {v : V}
    (h : dispatchSingle N op req = .ok v) : v = apply op req.input := by
  unfold dispatchSingle at h
  cases hrun : N.scalar op req.input with
  | error e =>
    rw [hrun] at h
    cases h
  | ok w =>
    rw [hrun] at h
    cases h
    exact hN.scalar op _ _ hrun

theorem scalarLoopBulk_ok {op : LoaderOpName} {reqs : List LoadRequest} {values : List V}
    (h : scalarLoopBulk N op reqs = .ok values) :
    values = reqs.map fun r => apply op r.input := by
  induction reqs generalizing values with
  | nil =>
    cases h
    rfl
  | cons r reqs ih =>
    rw [scalarLoopBulk] at h
    cases hone : dispatchSingle N op r with
    | error t =>
      rw [hone] at h
      cases h
    | ok v =>
      rw [hone] at h
      cases hrest : scalarLoopBulk N op reqs with
      | error t =>
        rw [hrest] at h
        cases h
      | ok vs =>
        rw [hrest] at h
        cases h
        rw [List.map_cons, ← ih hrest, ← dispatchSingle_ok hN hone]

omit hN in
theorem dispatchSingle_error {op : LoaderOpName} {req : LoadRequest} {t : Thrown E}
    (h : dispatchSingle N op req = .error t) : t.carried = [req.promise] := by
  unfold dispatchSingle at h
  cases hrun : N.scalar op req.input with
  | error e =>
    rw [hrun] at h
    cases h
    rfl
  | ok w =>
    rw [hrun] at h
    cases h

omit hN in
theorem readBulk_error {reqs : List LoadRequest} {result : Except E (Nat → V)} {t : Thrown E}
    (h : readBulk reqs result = .error t) : t.carried = reqs.map LoadRequest.promise := by
  cases result with
  | error e =>
    cases h
    rfl
  | ok f => cases h

omit hN in
theorem readBulk_ok {op : LoaderOpName} {reqs : List LoadRequest} {result : Except E (Nat → V)}
    {values : List V}
    (hresult : ∀ f, result = .ok f → ∀ i (h : i < (reqs.map LoadRequest.input).length),
      f i = apply op (reqs.map LoadRequest.input)[i])
    (h : readBulk reqs result = .ok values) : values = reqs.map fun r => apply op r.input := by
  cases result with
  | error e => cases h
  | ok f =>
    cases h
    refine List.ext_getElem (by simp) fun i hi hi' => ?_
    rw [List.getElem_map, List.getElem_range, List.getElem_map]
    rw [List.length_map] at hi'
    rw [hresult f rfl i (by rw [List.length_map]; exact hi'), List.getElem_map]

end

/-! ## Flushes -/

/-- The flags that `shouldComputeDefaultKey` leaves alone. -/
theorem OpDispatchCtx.shouldComputeDefaultKey_spec (ctx : OpDispatchCtx) :
    ctx.shouldComputeDefaultKey.2.op = ctx.op ∧
      ctx.shouldComputeDefaultKey.2.pendingSingle = ctx.pendingSingle ∧
      ctx.shouldComputeDefaultKey.2.batchMin = ctx.batchMin := by
  unfold OpDispatchCtx.shouldComputeDefaultKey
  split
  · exact ⟨rfl, rfl, rfl⟩
  · split
    · exact ⟨rfl, rfl, rfl⟩
    · exact ⟨rfl, rfl, rfl⟩

section

variable {G : Nat → Outcome V E → Prop} {C C' : String → V → Prop} {s : State V E}

/-- A default key that is looked up: the frame, and a hit that is an entry under that key. -/
theorem State.defaultLookup_spec (h : Sound G C s) (c : Nat) (input : Bytes) :
    Frame s (s.defaultLookup c input).2 ∧ Sound G C (s.defaultLookup c input).2 ∧
      (∀ v, (s.defaultLookup c input).1.1 = some v → C (defaultKey (s.ctx c).op input) v) ∧
      ∀ k, (s.defaultLookup c input).1.2 = some k → k = defaultKey (s.ctx c).op input := by
  obtain ⟨hop, hpending, hmin⟩ := (s.ctx c).shouldComputeDefaultKey_spec
  unfold State.defaultLookup
  dsimp only
  split
  · obtain ⟨hhit, hsound⟩ := h.get (defaultKey (s.ctx c).op input)
    refine ⟨?_, ⟨hsound.outcomes, hsound.cached⟩, hhit, fun k hk => (Option.some.inj hk).symm⟩
    refine Frame.trans ?_ (State.cache_frame _ _)
    exact s.setCtx_frame hop hpending hmin
  · exact ⟨s.setCtx_frame hop hpending hmin, h.setCtx c _, fun v hv => absurd hv (by simp),
      fun k hk => absurd hk (by simp)⟩

theorem State.noteLone_spec (h : Sound G C s) (c : Nat) :
    Frame s (s.noteLone c) ∧ Sound G C (s.noteLone c) := by
  unfold State.noteLone
  dsimp only
  split
  · exact ⟨s.setCtx_frame rfl rfl rfl, h.setCtx c _⟩
  · exact ⟨.refl s, h⟩

variable {N : Natives V E} {apply : LoaderOpName → Bytes → V} (hN : N.Faithful apply)

include hN

/-- A native call for one request settles it, with its own value or its own error. -/
theorem State.flushLone_hands (h : Sound G C s) (c : Nat) (r : LoadRequest)
    (hG : G r.promise (.resolved (apply (s.ctx c).op r.input)))
    (hC : ∀ k, r.key = some k → C k (apply (s.ctx c).op r.input))
    (hthrown : ∀ t, r.promise ∈ t.carried → G r.promise (.rejected t)) :
    Frame s (s.flushLone N c r) ∧ Sound G C (s.flushLone N c r) ∧
      ((s.flushLone N c r).outcome r.promise).isSome := by
  unfold State.flushLone
  split
  · next t ht =>
    have hcarried : r.promise ∈ t.carried := by
      rw [dispatchSingle_error ht]
      exact List.mem_singleton_self _
    exact ⟨s.settle_frame _ _, h.settle (hthrown t hcarried), s.settle_isSome _ _⟩
  · next v hv =>
    rw [← dispatchSingle_ok hN hv] at hG hC
    exact deliverOne_spec h hG hC

theorem State.flushOne_hands (h : Sound G C s) (c : Nat) (hc : c < s.nextCtx) (r : LoadRequest)
    (hgroup : Group apply G C C' (s.ctx c).op [r]) :
    Hands G C' s (s.flushOne N c r) [r] := by
  have hr : r ∈ [r] := List.mem_singleton_self r
  obtain ⟨hnote, hsound⟩ := noteLone_spec h c
  have hop : ((s.noteLone c).ctx c).op = (s.ctx c).op := hnote.op c hc
  unfold State.flushOne
  dsimp only
  split
  · next hdefault =>
    obtain ⟨hlook, hsound', hhit, hkey⟩ := defaultLookup_spec hsound c r.input
    have hop' : (((s.noteLone c).defaultLookup c r.input).2.ctx c).op = (s.ctx c).op :=
      (hlook.op c (lt_of_lt_of_le hc hnote.next)).trans hop
    rw [hop] at hhit hkey
    have huses : r.Uses (s.ctx c).op (defaultKey (s.ctx c).op r.input) := .inr ⟨hdefault, rfl⟩
    split
    · next v hv =>
      -- the default key finds the value in the cache
      have hG := hgroup.hit r hr _ v huses (hhit v hv)
      exact .cons ((hnote.trans hlook).trans (State.settle_frame _ _ _)) (State.settle_isSome _ _ _)
        (.nil ((hsound'.mono hgroup.mono).settle hG))
    · obtain ⟨hframe, hs, hsome⟩ := flushLone_hands hN (C := C') (hsound'.mono hgroup.mono) c
        { r with key := ((s.noteLone c).defaultLookup c r.input).1.2.orElse fun _ => r.key }
        (by rw [hop']; exact hgroup.computed r hr)
        (by
          intro k hk
          rw [hop']
          refine hgroup.written r hr k ?_
          change ((s.noteLone c).defaultLookup c r.input).1.2.orElse (fun _ => r.key) = some k at hk
          cases hd : ((s.noteLone c).defaultLookup c r.input).1.2 with
          | none =>
            rw [hd] at hk
            exact .inl hk
          | some k' =>
            rw [hd] at hk
            obtain rfl : k' = k := Option.some.inj hk
            rw [hkey k' hd]
            exact huses)
        (fun t ht => hgroup.thrown r hr t ht)
      exact .cons ((hnote.trans hlook).trans hframe) hsome (.nil hs)
  · obtain ⟨hframe, hs, hsome⟩ := flushLone_hands hN (C := C') (hsound.mono hgroup.mono) c r
      (by rw [hop]; exact hgroup.computed r hr)
      (fun k hk => by rw [hop]; exact hgroup.written r hr k (.inl hk)) (hgroup.thrown r hr)
    exact .cons (hnote.trans hframe) hsome (.nil hs)

omit hN in
/-- The key loop settles the hits and leaves the misses, each with a key that is its own. Induction
on the requests; a hit changes the cache's order and the counters only. -/
theorem State.probeFast_spec {op : LoaderOpName} (computeKeys : Bool) {c : Nat}
    {reqs : List LoadRequest} (h : Sound G C s) (hc : c < s.nextCtx) (hop : (s.ctx c).op = op)
    (hhit : ∀ r ∈ reqs, ∀ k v, r.Uses op k → C k v → G r.promise (.resolved v)) :
    Frame s (probeFast c computeKeys reqs s).2 ∧ Sound G C (probeFast c computeKeys reqs s).2 ∧
      (∀ r ∈ reqs, ((probeFast c computeKeys reqs s).2.outcome r.promise).isSome ∨
        ∃ m ∈ (probeFast c computeKeys reqs s).1, m.promise = r.promise) ∧
      ∀ m ∈ (probeFast c computeKeys reqs s).1, ∃ r ∈ reqs, m.promise = r.promise ∧
        m.input = r.input ∧ ∀ k, m.key = some k → r.Uses op k := by
  induction reqs generalizing s with
  | nil =>
    exact ⟨.refl s, h, fun r hr => absurd hr List.not_mem_nil,
      fun m hm => absurd hm List.not_mem_nil⟩
  | cons r reqs ih =>
    have hhit' : ∀ r' ∈ reqs, ∀ k v, r'.Uses op k → C k v → G r'.promise (.resolved v) :=
      fun r' hr' => hhit r' (List.mem_cons_of_mem r hr')
    -- what the loop takes for the key of the request
    have hkey : ∀ k, (r.key.orElse fun _ => if r.needsDefaultKey && computeKeys then
        some (defaultKey (s.ctx c).op r.input) else none) = some k → r.Uses op k := by
      intro k hk
      rw [hop] at hk
      cases hr : r.key with
      | some k' =>
        rw [hr] at hk
        exact .inl (hr.trans hk)
      | none =>
        rw [hr] at hk
        change (if _ then _ else _) = _ at hk
        split at hk
        · next hboth =>
          exact .inr ⟨(Bool.and_eq_true_iff.mp hboth).1, (Option.some.inj hk).symm⟩
        · cases hk
    unfold probeFast
    dsimp only
    generalize (r.key.orElse fun _ => if r.needsDefaultKey && computeKeys then
      some (defaultKey (s.ctx c).op r.input) else none) = key at hkey ⊢
    -- a miss waits for the native call
    have miss : Frame s (probeFast c computeKeys reqs s).2 ∧
        Sound G C (probeFast c computeKeys reqs s).2 ∧
        (∀ r' ∈ r :: reqs, ((probeFast c computeKeys reqs s).2.outcome r'.promise).isSome ∨
          ∃ m ∈ { r with key := key } :: (probeFast c computeKeys reqs s).1,
            m.promise = r'.promise) ∧
        ∀ m ∈ { r with key := key } :: (probeFast c computeKeys reqs s).1, ∃ r' ∈ r :: reqs,
          m.promise = r'.promise ∧ m.input = r'.input ∧ ∀ k, m.key = some k → r'.Uses op k := by
      obtain ⟨hframe, hsound, hall, hmiss⟩ := ih h hc hop hhit'
      refine ⟨hframe, hsound, fun r' hr' => ?_, fun m hm => ?_⟩
      · rcases List.mem_cons.mp hr' with rfl | hr'
        · exact .inr ⟨_, List.mem_cons_self, rfl⟩
        · rcases hall r' hr' with hsome | ⟨m, hm, heq⟩
          · exact .inl hsome
          · exact .inr ⟨m, List.mem_cons_of_mem _ hm, heq⟩
      · rcases List.mem_cons.mp hm with rfl | hm
        · exact ⟨r, List.mem_cons_self, rfl, rfl, hkey⟩
        · obtain ⟨r', hr', hfacts⟩ := hmiss m hm
          exact ⟨r', List.mem_cons_of_mem r hr', hfacts⟩
    cases key with
    | none => exact miss
    | some k =>
      obtain ⟨hentry, hsound⟩ := h.get k
      dsimp only
      split
      · exact miss
      · next v hv =>
        have hG := hhit r List.mem_cons_self k v (hkey k rfl) (hentry v hv)
        have hcount : Frame s (s.setCtx c { s.ctx c with
            keyHits := if r.needsDefaultKey then (s.ctx c).keyHits + 1 else (s.ctx c).keyHits }) :=
          s.setCtx_frame rfl rfl rfl
        have hfirst := hcount.trans ((State.cache_frame _ (s.cache.get k).2).trans
          (State.settle_frame _ r.promise (.resolved v)))
        have hsound' := (Sound.settle (p := r.promise) (⟨hsound.outcomes, hsound.cached⟩ :
          Sound G C { s.setCtx c { s.ctx c with
            keyHits := if r.needsDefaultKey then (s.ctx c).keyHits + 1 else (s.ctx c).keyHits } with
              cache := (s.cache.get k).2 }) hG)
        obtain ⟨hframe, hs, hall, hmiss⟩ := ih hsound' (lt_of_lt_of_le hc hfirst.next)
          ((hfirst.op c hc).trans hop) hhit'
        refine ⟨hfirst.trans hframe, hs, fun r' hr' => ?_, fun m hm => ?_⟩
        · rcases List.mem_cons.mp hr' with rfl | hr'
          · exact .inl (hframe.isSome (State.settle_isSome _ _ _))
          · exact hall r' hr'
        · obtain ⟨r', hr', hfacts⟩ := hmiss m hm
          exact ⟨r', List.mem_cons_of_mem r hr', hfacts⟩

theorem State.flushFast_hands {op : LoaderOpName} {c : Nat} {reqs : List LoadRequest}
    (h : Sound G C s) (hc : c < s.nextCtx) (hop : (s.ctx c).op = op)
    (hgroup : Group apply G C C' op reqs) : Hands G C' s (s.flushFast N c reqs) reqs := by
  unfold State.flushFast
  dsimp only
  -- the counters of the context change, and nothing else of it
  have hd : ∀ d : Bool × OpDispatchCtx, d = (if reqs.any LoadRequest.needsDefaultKey then
      (s.ctx c).shouldComputeDefaultKey else (false, s.ctx c)) → d.2.op = (s.ctx c).op ∧
        d.2.pendingSingle = (s.ctx c).pendingSingle ∧ d.2.batchMin = (s.ctx c).batchMin := by
    intro d hd
    subst hd
    split
    · exact (s.ctx c).shouldComputeDefaultKey_spec
    · exact ⟨rfl, rfl, rfl⟩
  generalize (if reqs.any LoadRequest.needsDefaultKey then (s.ctx c).shouldComputeDefaultKey
    else (false, s.ctx c)) = d at hd ⊢
  obtain ⟨hdop, hdpending, hdmin⟩ := hd d rfl
  have hctx : ∀ ctx : OpDispatchCtx, ctx = (if d.1 then
      { d.2 with keyAttempts := d.2.keyAttempts + reqs.length } else d.2) → ctx.op = op ∧
        Frame s (s.setCtx c ctx) := by
    intro ctx hctx
    subst hctx
    split
    · exact ⟨hdop.trans hop, s.setCtx_frame hdop hdpending hdmin⟩
    · exact ⟨hdop.trans hop, s.setCtx_frame hdop hdpending hdmin⟩
  generalize (if d.1 then { d.2 with keyAttempts := d.2.keyAttempts + reqs.length } else d.2) =
    ctx at hctx ⊢
  obtain ⟨hctxop, hcount⟩ := hctx ctx rfl
  obtain ⟨hframe, hsound, hall, hmiss⟩ := probeFast_spec d.1 (h.setCtx c ctx)
    (lt_of_lt_of_le hc hcount.next) (by rw [State.setCtx_self]; exact hctxop) hgroup.hit
  generalize probeFast c d.1 reqs (s.setCtx c ctx) = r at hframe hsound hall hmiss ⊢
  split
  · next hempty =>
    refine ⟨hcount.trans hframe, hsound.mono hgroup.mono, fun r' hr' => ?_⟩
    rcases hall r' hr' with hsome | ⟨m, hm, -⟩
    · exact hsome
    · rw [List.isEmpty_iff.mp hempty] at hm
      exact absurd hm List.not_mem_nil
  · rw [hctxop]
    have hfinish : Hands G C' r.2 (r.2.finish r.1 (dispatchFast N op r.1)) r.1 := by
      refine finish_hands (f := fun m => apply op m.input) (hsound.mono hgroup.mono) ?_ ?_ ?_ ?_
      · exact fun values hvalues =>
          readBulk_ok (fun f hf i hi => hN.fastBatch op _ f hf i hi) hvalues
      · intro m hm
        obtain ⟨r', hr', hp, hi, -⟩ := hmiss m hm
        rw [hp, hi]
        exact hgroup.computed r' hr'
      · intro m hm k hk
        obtain ⟨r', hr', -, hi, huses⟩ := hmiss m hm
        rw [hi]
        exact hgroup.written r' hr' k (huses k hk)
      · intro t ht m hm
        obtain ⟨r', hr', hp, -, -⟩ := hmiss m hm
        rw [hp]
        refine hgroup.thrown r' hr' t ?_
        rw [readBulk_error ht, ← hp]
        exact List.mem_map_of_mem hm
    refine ⟨hcount.trans (hframe.trans hfinish.frame), hfinish.sound, fun r' hr' => ?_⟩
    rcases hall r' hr' with hsome | ⟨m, hm, hp⟩
    · exact hfinish.frame.isSome hsome
    · rw [← hp]
      exact hfinish.settled m hm

/-- **A group of requests is settled**, each by its own value, by an error of its native call or by
a hit. Only the scalar loop may settle a request with an error of another one's call. -/
theorem State.handleFlush_spec {op : LoaderOpName} {reqs : List LoadRequest} (hok : CtxOk s)
    (h : Sound G C s) (hgroup : Group apply G C C' op reqs)
    (hloop : op.fast = false → 2 ≤ reqs.length → reqs.length < s.batchMinOf op →
      ∀ t, scalarLoopBulk N op reqs = .error t → ∀ r ∈ reqs, G r.promise (.rejected t)) :
    Hands G C' s (s.handleFlush N op reqs) reqs := by
  -- the context of the op, made if it was not there
  obtain ⟨hfor, hctxs, hout, hcache⟩ := s.ctxFor_spec hok op
  unfold State.handleFlush
  dsimp only
  generalize s.ctxFor op = f at hfor hctxs hout hcache ⊢
  have hsound : Sound G C f.2 := by
    refine ⟨?_, ?_⟩
    · rw [hout]
      exact h.outcomes
    · rw [hcache]
      exact h.cached
  obtain ⟨hc, hop⟩ := (hfor.ctxOk hok).own op f.1 hctxs
  have hmin : (f.2.ctx f.1).batchMin = s.batchMinOf op := by
    rw [← hfor.batchMin op, State.batchMinOf, hctxs]
  split
  · exact ⟨hfor, hsound.mono hgroup.mono, fun r hr => absurd hr List.not_mem_nil⟩
  · next req =>
    have hone := flushOne_hands hN hsound f.1 hc req (hop.symm ▸ hgroup)
    exact ⟨hfor.trans hone.frame, hone.sound, hone.settled⟩
  · next hnil hsingle =>
    have htwo : 2 ≤ reqs.length := by
      match reqs, hnil, hsingle with
      | [], hnil, _ => exact absurd rfl hnil
      | [r], _, hsingle => exact absurd rfl (hsingle r)
      | _ :: _ :: _, _, _ => simp
    -- the streak of single requests ends; nothing that the requests read changes
    have hcount : Frame f.2 (f.2.setCtx f.1 { f.2.ctx f.1 with singleStreak := 0 }) :=
      f.2.setCtx_frame rfl rfl rfl
    have hsound' := hsound.setCtx f.1 { f.2.ctx f.1 with singleStreak := 0 }
    split
    · have hfast := flushFast_hands hN hsound' (lt_of_lt_of_le hc hcount.next)
        (by rw [State.setCtx_self]; exact hop) hgroup
      exact ⟨hfor.trans (hcount.trans hfast.frame), hfast.sound, hfast.settled⟩
    · next hslow =>
      rw [State.setCtx_self]
      have hbulk : Hands G C' (f.2.setCtx f.1 { f.2.ctx f.1 with singleStreak := 0 })
          (State.finish (f.2.setCtx f.1 { f.2.ctx f.1 with singleStreak := 0 }) reqs
            (dispatchBulk N { f.2.ctx f.1 with singleStreak := 0 } reqs)) reqs := by
        unfold dispatchBulk
        refine finish_hands (f := fun r => apply op r.input) (hsound'.mono hgroup.mono) ?_
          hgroup.computed (fun r hr k hk => hgroup.written r hr k (.inl hk)) ?_
        · intro values hvalues
          split at hvalues
          · refine readBulk_ok (fun g hg i hi => ?_) hvalues
            rw [hN.batch _ _ g hg i hi]
            dsimp only
            rw [hop]
          · rw [scalarLoopBulk_ok hN hvalues]
            dsimp only
            rw [hop]
        · -- the batch call is one of each request's own calls; the scalar loop's errors are not
          intro t ht r hr
          split at ht
          · refine hgroup.thrown r hr t ?_
            rw [readBulk_error ht]
            exact List.mem_map_of_mem hr
          · next hdecide =>
            dsimp only at ht
            rw [hop] at ht
            refine hloop (by simpa using hslow) htwo ?_ t ht r hr
            rw [← hmin]
            simpa [OpDispatchCtx.decide, show ¬ reqs.length ≤ 1 by omega] using hdecide
      exact ⟨hfor.trans (hcount.trans hbulk.frame), hbulk.sound, hbulk.settled⟩

/-- A flush, one group after another. What holds of the cache may depend on the groups to come. -/
theorem State.flushGroups_spec
    (D : List (LoaderOpName × List LoadRequest) → String → V → Prop)
    {groups : List (LoaderOpName × List LoadRequest)} (hok : CtxOk s) (h : Sound G (D groups) s)
    (hgroups : ∀ pre op reqs rest, groups = pre ++ (op, reqs) :: rest →
      Group apply G (D ((op, reqs) :: rest)) (D rest) op reqs)
    (hloop : ∀ op reqs, (op, reqs) ∈ groups → op.fast = false → 2 ≤ reqs.length →
      reqs.length < s.batchMinOf op → ∀ t, scalarLoopBulk N op reqs = .error t →
        ∀ r ∈ reqs, G r.promise (.rejected t)) :
    Frame s (flushGroups N groups s) ∧ Sound G (D []) (flushGroups N groups s) ∧
      ∀ op reqs, (op, reqs) ∈ groups → ∀ r ∈ reqs,
        ((flushGroups N groups s).outcome r.promise).isSome := by
  induction groups generalizing s with
  | nil => exact ⟨.refl s, h, fun op reqs hmem => absurd hmem List.not_mem_nil⟩
  | cons group rest ih =>
    obtain ⟨op, reqs⟩ := group
    have hfirst := handleFlush_spec hN hok h (hgroups [] op reqs rest rfl)
      (hloop op reqs List.mem_cons_self)
    obtain ⟨hframe, hsound, hall⟩ := ih (hfirst.frame.ctxOk hok) hfirst.sound
      (fun pre op' reqs' rest' heq => hgroups ((op, reqs) :: pre) op' reqs' rest' (by
        rw [heq]
        rfl))
      (fun op' reqs' hmem hslow htwo hlt => by
        rw [hfirst.frame.batchMin] at hlt
        exact hloop op' reqs' (List.mem_cons_of_mem _ hmem) hslow htwo hlt)
    refine ⟨hfirst.frame.trans hframe, hsound, fun op' reqs' hmem r hr => ?_⟩
    rcases List.mem_cons.mp hmem with heq | hmem
    · cases heq
      exact hframe.isSome (hfirst.settled r hr)
    · exact hall op' reqs' hmem r hr

end

end

end Castrum.Loader
