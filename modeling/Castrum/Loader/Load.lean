import Castrum.Lib.Lru
import Castrum.Lib.Runs
import Castrum.Loader.Ops

/-!
# Castrum — coalesced loads (`src/loader/index.ts`, `src/loader/batch.ts`)

`load(op, input)` returns a promise. In coalesce mode the request waits in the buffer of the
coalescer for one microtask that flushes all ops; in single mode it waits in a slot of the dispatch
context of its op for a microtask of its own. A burst moves it from the slot to the buffer, and
`configure` starts new contexts while microtasks of the old ones are still queued.

A promise is the index of the call that returned it. The native calls are the environment's: each
microtask comes with what they do in it. What the cost model learns is the environment's too, as
any threshold in `[2, 8]`. Counters that only `stats` reads are left out.

* `State.loadOne`, `State.runTask` — a call of `load`, and a microtask;
* `State.step` — one move of a user, of the cost model or of the microtask queue.
-/

namespace Castrum.Loader

/-! ## Native calls and promises -/

/-- What the native calls do: one item, packed items, and packed items with the `_into` variant.
A bulk result is read by index (`spec.element`, `spec.fast.element`). -/
structure Natives (V E : Type) where
  scalar : LoaderOpName → Bytes → Except E V
  batch : LoaderOpName → List Bytes → Except E (Nat → V)
  fastBatch : LoaderOpName → List Bytes → Except E (Nat → V)

/-- An error, and the promises whose inputs the native call that threw it carried. -/
structure Thrown (E : Type) where
  carried : List Nat
  error : E

/-- How a promise is settled; `refused` is the `TypeError` for an op that cannot be loaded. -/
inductive Outcome (V E : Type) where
  | resolved (value : V)
  | rejected (thrown : Thrown E)
  | refused

/-- `LoadRequest`. -/
structure LoadRequest where
  promise : Nat
  input : Bytes
  key : Option String
  needsDefaultKey : Bool

/-- The options of one call of `load`. -/
structure LoadOptions where
  key : Option String
  cache : Option Bool

/-- A call of `load`, and whether it was made with caching. -/
structure Call where
  op : LoaderOpName
  input : Bytes
  key : Option String
  caching : Bool

/-! ## The state -/

inductive LoadStrategy where
  | auto
  | single
  | coalesce
  deriving DecidableEq

structure LoaderOptions where
  batchMin : Nat
  maxCacheKeys : Nat
  caching : Bool
  loadStrategy : LoadStrategy

/-- Is a call with these options made with caching? -/
def LoaderOptions.caches (options : LoaderOptions) (opts : LoadOptions) : Bool :=
  options.caching && decide (0 < options.maxCacheKeys) && opts.cache.getD true

inductive Mode where
  | single
  | coalesce
  deriving DecidableEq

/-- The dispatch context of one op. The request in `pendingSingle` waits for its microtask;
`batchMin` is what the cost model has learned. -/
structure OpDispatchCtx where
  op : LoaderOpName
  batchMin : Nat
  mode : Mode
  singleStreak : Nat
  pendingSingle : Option LoadRequest
  keyAttempts : Nat
  keyHits : Nat
  keyProbeCounter : Nat

/-- A queued microtask: `flushSingle` of a context, or the flush of the coalescer. -/
inductive Task where
  | flushSingle (c : Nat)
  | flush
  deriving DecidableEq

/-- The bounded LRU cache; `maxKeys` of `0` stores nothing. -/
structure LoaderCache (V : Type) where
  maxKeys : Nat
  lru : Lru String V maxKeys

/-- The loader, its microtasks, the promises, and the calls made so far. Contexts are heap cells:
`ctxs` says which one is an op's now. -/
structure State (V E : Type) where
  options : LoaderOptions
  ctxs : LoaderOpName → Option Nat
  ctx : Nat → OpDispatchCtx
  nextCtx : Nat
  cache : LoaderCache V
  buffer : List (LoaderOpName × List LoadRequest)
  scheduled : Bool
  queue : List Task
  outcome : Nat → Option (Outcome V E)
  calls : List Call

/-- `SINGLE_AFTER`. -/
def singleAfter : Nat := 4

/-- `KEY_WARMUP`. -/
def keyWarmup : Nat := 8

/-- `KEY_PROBE_EVERY`. -/
def keyProbeEvery : Nat := 64

/-! ## The cache -/

section

variable {V E : Type}

def LoaderCache.create (maxKeys : Nat) : LoaderCache V := ⟨maxKeys, LruMap.empty⟩

/-- `get`: a hit moves the key to the end of the eviction order. -/
def LoaderCache.get (cache : LoaderCache V) (key : String) : Option V × LoaderCache V :=
  match LruMap.get? cache.lru key with
  | some value => (some value, ⟨cache.maxKeys, LruMap.touch cache.lru key value⟩)
  | none => (none, cache)

/-- `set`: the key used least recently makes room. -/
def LoaderCache.set (cache : LoaderCache V) (key : String) (value : V) : LoaderCache V :=
  ⟨cache.maxKeys, LruMap.touch cache.lru key value⟩

namespace State

variable (s : State V E)

/-- A promise is settled once: what comes later has no effect. -/
def settle (p : Nat) (out : Outcome V E) : State V E :=
  if (s.outcome p).isSome then s else { s with outcome := Function.update s.outcome p (some out) }

def setCtx (c : Nat) (ctx : OpDispatchCtx) : State V E :=
  { s with ctx := Function.update s.ctx c ctx }

/-- `ctxFor`: the context of the op, made when there is none. -/
def ctxFor (op : LoaderOpName) : Nat × State V E :=
  match s.ctxs op with
  | some c => (c, s)
  | none =>
    let fresh : OpDispatchCtx :=
      { op := op, batchMin := s.options.batchMin
        mode := if s.options.loadStrategy = .single then .single else .coalesce
        singleStreak := 0, pendingSingle := none, keyAttempts := 0, keyHits := 0
        keyProbeCounter := 0 }
    (s.nextCtx, { s.setCtx s.nextCtx fresh with
      ctxs := Function.update s.ctxs op (some s.nextCtx)
      nextCtx := s.nextCtx + 1 })

def cacheSet (key : String) (value : V) : State V E :=
  { s with cache := s.cache.set key value }

/-- `maybeCache`. -/
def maybeCache (key : Option String) (value : V) : State V E :=
  match key with
  | some k => s.cacheSet k value
  | none => s

end State

end

/-! ## Default keys -/

/-- `shouldComputeDefaultKey`, with the context it leaves. -/
def OpDispatchCtx.shouldComputeDefaultKey (ctx : OpDispatchCtx) : Bool × OpDispatchCtx :=
  if ctx.keyAttempts < keyWarmup then (true, ctx)
  else if 0 < ctx.keyHits then (true, ctx)
  else
    let probe := ctx.keyProbeCounter + 1
    (probe % keyProbeEvery == 0, { ctx with keyProbeCounter := probe })

/-- `op + KEY_SEP + String(rust.fnv1a64(input))`. -/
def defaultKey (op : LoaderOpName) (input : Bytes) : String := cacheKey op (defaultRaw input)

section

variable {V E : Type}

namespace State

variable (s : State V E)

/-- One default key: when the context computes it, the cached value and the key. -/
def defaultLookup (c : Nat) (input : Bytes) : (Option V × Option String) × State V E :=
  let d := (s.ctx c).shouldComputeDefaultKey
  if d.1 then
    let key := defaultKey (s.ctx c).op input
    let r := s.cache.get key
    let ctx := { d.2 with
      keyAttempts := d.2.keyAttempts + 1
      keyHits := if r.1.isSome then d.2.keyHits + 1 else d.2.keyHits }
    ((r.1, some key), { s.setCtx c ctx with cache := r.2 })
  else ((none, none), s.setCtx c d.2)

/-! ## Loads -/

/-- `coalescer.pending`. -/
def pending : Nat := (s.buffer.map fun group => group.2.length).sum

/-- Append a request to the group of its op. -/
def enqueueIn (op : LoaderOpName) (req : LoadRequest) :
    List (LoaderOpName × List LoadRequest) → List (LoaderOpName × List LoadRequest)
  | [] => [(op, [req])]
  | (op', reqs) :: groups =>
    if op' = op then (op', reqs ++ [req]) :: groups else (op', reqs) :: enqueueIn op req groups

/-- `coalescer.enqueue`: the first request schedules the flush. -/
def enqueue (op : LoaderOpName) (req : LoadRequest) : State V E :=
  { s with
    buffer := enqueueIn op req s.buffer
    scheduled := true
    queue := if s.scheduled then s.queue else s.queue ++ [.flush] }

/-- What `loadOne` finds out about the key of a call. -/
structure Lookup (V : Type) where
  hit : Option V
  key : Option String
  needsDefaultKey : Bool

/-- The key part of `loadOne`, for a call with caching. -/
def lookup (c : Nat) (input : Bytes) (key : Option String) : Lookup V × State V E :=
  match key with
  | some raw =>
    let key := cacheKey (s.ctx c).op raw
    let r := s.cache.get key
    (⟨r.1, some key, false⟩, { s with cache := r.2 })
  | none =>
    -- in a burst on a cheap op the key is left to the flush
    if (s.ctx c).mode = .coalesce ∧ (s.ctx c).op.fast ∧ 0 < s.pending then (⟨none, none, true⟩, s)
    else
      let r := s.defaultLookup c input
      (⟨r.1.1, r.1.2, false⟩, r.2)

/-- The promise's executor: the request waits in the slot or in the buffer. -/
def park (c : Nat) (req : LoadRequest) : State V E :=
  let ctx := s.ctx c
  match ctx.mode with
  | .coalesce => s.enqueue ctx.op req
  | .single =>
    match ctx.pendingSingle with
    | none =>
      { s.setCtx c { ctx with pendingSingle := some { req with needsDefaultKey := false } } with
        queue := s.queue ++ [.flushSingle c] }
    | some first =>
      -- a second load in the same tick: both go to the coalescer
      ((s.setCtx c { ctx with mode := .coalesce, pendingSingle := none }).enqueue ctx.op first)
        |>.enqueue ctx.op { req with needsDefaultKey := false }

/-- The call is noted; its index is the promise it returns. -/
def called (call : Call) : State V E := { s with calls := s.calls ++ [call] }

/-- `loadOne`. -/
def loadOne (op : LoaderOpName) (input : Bytes) (opts : LoadOptions) : State V E :=
  let p := s.calls.length
  if op.hasRequiredRest then (s.called ⟨op, input, opts.key, false⟩).settle p .refused
  else
    let caching := s.options.caches opts
    let f := (s.called ⟨op, input, opts.key, caching⟩).ctxFor op
    let l := if caching then f.2.lookup f.1 input opts.key else (⟨none, none, false⟩, f.2)
    match l.1.hit with
    | some value => l.2.settle p (.resolved value)
    | none => l.2.park f.1 ⟨p, input, l.1.key, l.1.needsDefaultKey⟩

end State

end

/-! ## Native dispatch -/

section

variable {V E : Type} (N : Natives V E)

/-- The cost model's `decide`: should a bulk of `n` items use the packed batch path? -/
def OpDispatchCtx.decide (ctx : OpDispatchCtx) (n : Nat) : Bool :=
  if n ≤ 1 then false else n ≥ ctx.batchMin

/-- `dispatchSingle`. -/
def dispatchSingle (op : LoaderOpName) (req : LoadRequest) : Except (Thrown E) V :=
  (N.scalar op req.input).mapError (⟨[req.promise], ·⟩)

/-- `scalarLoopBulk`: one call after another, up to the first that throws. -/
def scalarLoopBulk (op : LoaderOpName) : List LoadRequest → Except (Thrown E) (List V)
  | [] => .ok []
  | req :: reqs =>
    match dispatchSingle N op req with
    | .error e => .error e
    | .ok value => (scalarLoopBulk op reqs).map (value :: ·)

/-- The elements of a bulk result over `reqs`, or the error of the one call that carried them. -/
def readBulk (reqs : List LoadRequest) (result : Except E (Nat → V)) :
    Except (Thrown E) (List V) :=
  match result with
  | .error e => .error ⟨reqs.map LoadRequest.promise, e⟩
  | .ok element => .ok ((List.range reqs.length).map element)

/-- `dispatchBulk`: the packed batch, or the scalar loop for a tiny one. -/
def dispatchBulk (ctx : OpDispatchCtx) (reqs : List LoadRequest) : Except (Thrown E) (List V) :=
  if ctx.decide reqs.length then readBulk reqs (N.batch ctx.op (reqs.map LoadRequest.input))
  else scalarLoopBulk N ctx.op reqs

/-- The native call of the fast flush. -/
def dispatchFast (op : LoaderOpName) (reqs : List LoadRequest) : Except (Thrown E) (List V) :=
  readBulk reqs (N.fastBatch op (reqs.map LoadRequest.input))

/-! ## Flushes -/

namespace State

variable (s : State V E)

/-- One request and the value computed for it. -/
def deliverOne (req : LoadRequest) (value : V) : State V E :=
  (s.maybeCache req.key value).settle req.promise (.resolved value)

/-- Cache and resolve the requests in order. -/
def deliver : List (LoadRequest × V) → State V E → State V E
  | [], s => s
  | (req, value) :: rest, s => deliver rest (s.deliverOne req value)

/-- Reject the requests in order; those settled before stay as they are. -/
def rejectAll (thrown : Thrown E) : List LoadRequest → State V E → State V E
  | [], s => s
  | req :: reqs, s => rejectAll thrown reqs (s.settle req.promise (.rejected thrown))

/-- Hand out the result of a bulk call. -/
def finish (reqs : List LoadRequest) (result : Except (Thrown E) (List V)) : State V E :=
  match result with
  | .error thrown => rejectAll thrown reqs s
  | .ok values => deliver (reqs.zip values) s

/-- A lone request: the op may drop the coalescer. -/
def noteLone (c : Nat) : State V E :=
  let ctx := s.ctx c
  if ctx.mode = .coalesce ∧ s.options.loadStrategy = .auto then
    let streak := ctx.singleStreak + 1
    s.setCtx c { ctx with
      singleStreak := streak
      mode := if streak ≥ singleAfter then .single else ctx.mode }
  else s

/-- The native call for a lone request. -/
def flushLone (c : Nat) (req : LoadRequest) : State V E :=
  match dispatchSingle N (s.ctx c).op req with
  | .error thrown => s.settle req.promise (.rejected thrown)
  | .ok value => s.deliverOne req value

/-- `handleFlush` for one request. -/
def flushOne (c : Nat) (req : LoadRequest) : State V E :=
  let s := s.noteLone c
  if req.needsDefaultKey then
    let r := s.defaultLookup c req.input
    match r.1.1 with
    | some hit => r.2.settle req.promise (.resolved hit)
    | none => r.2.flushLone N c { req with key := r.1.2.orElse fun _ => req.key }
  else s.flushLone N c req

/-- The key loop of the fast flush: hits are resolved, the misses are left, with their keys. -/
def probeFast (c : Nat) (computeKeys : Bool) :
    List LoadRequest → State V E → List LoadRequest × State V E
  | [], s => ([], s)
  | req :: reqs, s =>
    let key := req.key.orElse fun _ =>
      if req.needsDefaultKey && computeKeys then some (defaultKey (s.ctx c).op req.input) else none
    let miss := fun s => 
      let r := probeFast c computeKeys reqs s
      ({ req with key := key } :: r.1, r.2)
    match key with
    | none => miss s
    | some k =>
      let r := s.cache.get k
      match r.1 with
      | none => miss s
      | some hit =>
        let ctx := s.ctx c
        let ctx := { ctx with keyHits := if req.needsDefaultKey then ctx.keyHits + 1 else ctx.keyHits }
        probeFast c computeKeys reqs
          ({ s.setCtx c ctx with cache := r.2 }.settle req.promise (.resolved hit))

/-- `handleFlush` for a burst on an op with the fast wiring. -/
def flushFast (c : Nat) (reqs : List LoadRequest) : State V E :=
  let needKeys := reqs.any LoadRequest.needsDefaultKey
  let d := if needKeys then (s.ctx c).shouldComputeDefaultKey else (false, s.ctx c)
  let ctx := if d.1 then { d.2 with keyAttempts := d.2.keyAttempts + reqs.length } else d.2
  let r := probeFast c d.1 reqs (s.setCtx c ctx)
  if r.1.isEmpty then r.2 else r.2.finish r.1 (dispatchFast N ctx.op r.1)

/-- `handleFlush`. -/
def handleFlush (op : LoaderOpName) (reqs : List LoadRequest) : State V E :=
  let f := s.ctxFor op
  match reqs with
  | [] => f.2
  | [req] => f.2.flushOne N f.1 req
  | _ =>
    -- a real burst keeps coalescing
    let s := f.2.setCtx f.1 { f.2.ctx f.1 with singleStreak := 0 }
    if op.fast then s.flushFast N f.1 reqs else s.finish reqs (dispatchBulk N (s.ctx f.1) reqs)

/-- Deliver the groups of a flush, one op after another. -/
def flushGroups : List (LoaderOpName × List LoadRequest) → State V E → State V E
  | [], s => s
  | (op, reqs) :: groups, s => flushGroups groups (s.handleFlush N op reqs)

/-- `flushSingle`; a burst may have moved the request. -/
def flushSingle (c : Nat) : State V E :=
  let ctx := s.ctx c
  match ctx.pendingSingle with
  | none => s
  | some req => (s.setCtx c { ctx with pendingSingle := none }).flushLone N c req

/-- One microtask. -/
def runTask (task : Task) : State V E :=
  match task with
  | .flushSingle c => s.flushSingle N c
  | .flush => flushGroups N s.buffer { s with buffer := [], scheduled := false }

end State

end

/-! ## Runs -/

/-- The options given to `configure`. -/
structure ConfigureOptions where
  batchMin : Option Nat
  maxCacheKeys : Option Nat
  caching : Option Bool
  loadStrategy : Option LoadStrategy

section

variable {V E : Type}

inductive Action (V E : Type) where
  | load (op : LoaderOpName) (input : Bytes) (opts : LoadOptions)
  | configure (next : ConfigureOptions)
  | clear
  | learn (c batchMin : Nat)
  | microtask (natives : Natives V E)

namespace State

/-- `configure`: the contexts start fresh, and so does a cache of another capacity. -/
def configure (s : State V E) (next : ConfigureOptions) : State V E :=
  let options : LoaderOptions :=
    { batchMin := max 2 (min 8 (next.batchMin.getD s.options.batchMin))
      maxCacheKeys := next.maxCacheKeys.getD s.options.maxCacheKeys
      caching := next.caching.getD s.options.caching
      loadStrategy := next.loadStrategy.getD s.options.loadStrategy }
  { s with
    options := options
    ctxs := fun _ => none
    cache := if options.maxCacheKeys = s.options.maxCacheKeys then s.cache
      else .create options.maxCacheKeys }

/-- One move; `none` where it is not enabled. -/
def step (s : State V E) : Action V E → Option (State V E)
  | .load op input opts => some (s.loadOne op input opts)
  | .configure next => some (s.configure next)
  | .clear => some { s with cache := .create s.cache.maxKeys }
  | .learn c batchMin =>
    if 2 ≤ batchMin ∧ batchMin ≤ 8 then some (s.setCtx c { s.ctx c with batchMin := batchMin })
    else none
  | .microtask natives =>
    match s.queue with
    | [] => none
    | task :: queue => some ({ s with queue := queue }.runTask natives task)

/-- `createLoader`. -/
def init (options : LoaderOptions) : State V E where
  options := { options with batchMin := max 2 (min 8 options.batchMin) }
  ctxs := fun _ => none
  ctx := fun _ => ⟨.crc32, 2, .coalesce, 0, none, 0, 0, 0⟩
  nextCtx := 0
  cache := .create options.maxCacheKeys
  buffer := []
  scheduled := false
  queue := []
  outcome := fun _ => none
  calls := []

end State

end

end Castrum.Loader
