import Castrum.Ingress.BakedResult
import Castrum.Shared.Metrics
import Castrum.Shared.RequestId

/-!
# Castrum — the metrics of an ingress (`src/ingress/metrics.ts`, hooks of `src/ingress/handlers.ts`)

The hooks of a handler count requests, errors and those in flight. One request can call `onError` and then
`onResponse`, or one of them alone; the map of the requests that are active has each request leave the gauge
once, by whichever hook is first.

* `Course.hooks` — the hooks that one `run` of a handler calls;
* `Holds.step` — what a call of the registry does to one series that is not evicted;
* `Inv.step` — the active requests are those in flight, under any interleaving of runs;
* `ingressMetrics_exact` — what gauge and counters show in every state reached.
-/

namespace Castrum

/-- `x / d` for a positive `d`. -/
def Num.divBy (d : ℚ) : Num → Num
  | .finite x => .finite (roundF64 (x / d))
  | x => x

namespace MetricsRegistry

/-! ## The hooks

Four scalars and one histogram, and the times at which the open requests began. A hook is a list of
calls on these entries. -/

/-- The registry, and when the requests began that have not ended. -/
structure IngressMetrics where
  registry : Registry HistogramEntry
  active : JsMap Str Num

def requestsTotal : Nat := 0

def errorsTotal : Nat := 1

def rateLimitedTotal : Nat := 2

def inFlight : Nat := 3

def requestDuration : Nat := 0

/-- The families, in the order in which they are made; counters and gauges are numbered as entries are. -/
def declarations : List Call :=
  [.counter (str "castrum_http_requests_total") (str "Total ingress requests processed.")
      [str "method", str "status"],
    .histogram (str "castrum_http_request_duration_seconds") (str "Ingress request latency in seconds.")
      (some defaultBuckets) [str "method", str "status"],
    .counter (str "castrum_http_errors_total") (str "Total internal/terminal errors.") [str "code"],
    .counter (str "castrum_http_rate_limited_total")
      (str "Total requests rejected by the rate limiter (429).") [],
    .gauge (str "castrum_http_in_flight_requests") (str "Requests currently being processed.") []]

def createIngressMetrics : Option IngressMetrics :=
  (exec (Registry.step histograms) Registry.new declarations).map (⟨·, .empty⟩)

/-- A call of a hook, with what the hook reads of its arguments. -/
inductive Hook where
  | onRequest (requestId : Str)
  | onResponse (requestId : Str) (method : Option Str) (status : Nat) (rateLimited : Bool)
  | onError (requestId : Str) (name : Option Str)

def requestLabels (method : Option Str) (status : Nat) : Labels :=
  some [(str "method", method.getD (str "unknown")), (str "status", str (toString status))]

def errorLabels (name : Option Str) : Labels := some [(str "code", name.getD (str "internal"))]

/-- `active.get(requestId)` for an id that is not empty. -/
def IngressMetrics.started (m : IngressMetrics) (requestId : Str) : Option Num :=
  if requestId = [] then none else m.active.get? requestId

/-- The calls of the registry that a hook makes. -/
def IngressMetrics.calls (m : IngressMetrics) (now : Num) : Hook → List Call
  | .onRequest _ => [.add inFlight none (.finite 1)]
  | .onResponse requestId method status rateLimited =>
    [.add requestsTotal (requestLabels method status) (.finite 1)] ++
      (match m.started requestId with
        | none => []
        | some started =>
          [.dec inFlight none (.finite 1),
            .observe requestDuration (Num.divBy 1000 ((now.add started.neg).max (.finite 0)))
              (requestLabels method status)]) ++
      if rateLimited then [.add rateLimitedTotal none (.finite 1)] else []
  | .onError requestId name =>
    (if (m.started requestId).isSome then [.dec inFlight none (.finite 1)] else []) ++
      [.add errorsTotal (errorLabels name) (.finite 1)]

/-- The active requests behind a hook. -/
def IngressMetrics.activeAfter (m : IngressMetrics) (now : Num) : Hook → JsMap Str Num
  | .onRequest requestId => if requestId = [] then m.active else m.active.set requestId now
  | .onResponse requestId .. | .onError requestId _ =>
    if (m.started requestId).isSome then m.active.delete requestId else m.active

def IngressMetrics.hook (m : IngressMetrics) (now : Num) (h : Hook) : Option IngressMetrics :=
  (exec (Registry.step histograms) m.registry (m.calls now h)).map (⟨·, m.activeAfter now h⟩)

/-! ## The runs of a handler

How a request fares decides which hooks its run calls. The runs of a process interleave in any
order, and share the counter of ids and the metrics. -/

/-- How a request fares in `run`: whether packing throws, what the native call gives, and what the callback
makes of it, the status of a `Response` or something else. -/
structure Course where
  method : Option Str
  packing : Option Str
  native : Except Str BakedIngressResult
  callback : BakedIngressResult → Except Str (Option Nat)

/-- The hook behind the callback. A promise counts as a throw. -/
def Course.answer (c : Course) (requestId : Str) (r : BakedIngressResult) : Hook :=
  match c.callback r with
  | .ok status => .onResponse requestId c.method (status.getD (safeTerminalStatus r)) r.rateLimited
  | .error name => .onError requestId (some name)

/-- The hooks that `run` calls, in order. -/
def Course.hooks (c : Course) (requestId : Str) : List Hook :=
  .onRequest requestId ::
    match c.packing with
    | some name => [.onError requestId (some name)]
    | none =>
      match c.native with
      | .ok r => [c.answer requestId r]
      | .error name => [.onError requestId (some name), c.answer requestId .internalError]

/-- A `run`, and how many hooks it has called. -/
structure Running where
  id : Str
  course : Course
  called : Nat

/-- The handlers of a process that share a metrics object; ids come from one counter. -/
structure Handlers where
  counter : IdCounter
  metrics : IngressMetrics
  runs : List Running

inductive Act where
  | start (course : Course)
  | call (i : Nat) (now : Num)

/-- A run starts, or some run calls its next hook. -/
def Handlers.step (s : Handlers) : Act → Option Handlers
  | .start course =>
    let (id, counter) := generateRequestId s.counter
    some { s with counter, runs := s.runs ++ [⟨fromUtf8Lossy id, course, 0⟩] }
  | .call i now => do
    let r ← s.runs[i]?
    let hook ← (r.course.hooks r.id)[r.called]?
    let metrics ← s.metrics.hook now hook
    some { s with metrics, runs := s.runs.set i { r with called := r.called + 1 } }

namespace Handlers

/-- The handlers before the first request. -/
def new (counter : IdCounter) : Option Handlers := createIngressMetrics.map (⟨counter, ·, []⟩)

/-- How many runs have called `onRequest` and no hook behind it. -/
def inFlightCount (s : Handlers) : Nat := s.runs.countP (·.called = 1)

/-- How many hooks of a kind the runs have called. -/
def tally (s : Handlers) (p : Hook → Bool) : Nat :=
  (s.runs.map fun r => ((r.course.hooks r.id).take r.called).countP p).sum

end Handlers

/-! ## Counting

Numbers are doubles, so a count is exact below `2 ^ 53`. A series counts under its key, unless the
family was full and series were evicted. -/

/-- The sum of two small integers is not rounded. -/
theorem Num.add_int {a b : ℤ} (hlow : -2 ^ 53 < a + b) (hhigh : a + b < 2 ^ 53) :
    Num.add (.finite a) (.finite b) = .finite ((a + b : ℤ) : ℚ) := by
  have hround : roundF64 ((a : ℚ) + b) = ((a + b : ℤ) : ℚ) := by
    have hcast : (a : ℚ) + b = ((a + b : ℤ) : ℚ) := by push_cast; rfl
    rw [hcast]
    exact le_antisymm (roundF64_le_int (by omega) hhigh le_rfl) (le_roundF64_int hlow (by omega) le_rfl)
  have hlow' : (-2 ^ 53 : ℚ) < ((a + b : ℤ) : ℚ) := by exact_mod_cast hlow
  have hhigh' : ((a + b : ℤ) : ℚ) < 2 ^ 53 := by exact_mod_cast hhigh
  have hbig : (2 : ℚ) ^ 53 ≤ 2 ^ 1024 := by gcongr <;> norm_num
  change (if 2 ^ 1024 ≤ roundF64 ((a : ℚ) + b) then Double.posInf else
    if roundF64 ((a : ℚ) + b) ≤ -2 ^ 1024 then Double.negInf else .finite (roundF64 ((a : ℚ) + b))) = _
  rw [hround, if_neg (not_le.mpr (hhigh'.trans_le hbig)),
    if_neg (not_le.mpr ((neg_le_neg hbig).trans_lt hlow'))]

/-- A series shows a count; there is no series before the first call. -/
def Shows (v : Option Num) (n : ℤ) : Prop := v = some (.finite n) ∨ (v = none ∧ n = 0)

theorem Shows.add {v : Option Num} {n d : ℤ} (h : Shows v n) (hlow : -2 ^ 53 < n + d)
    (hhigh : n + d < 2 ^ 53) : Shows (some (v.elim (.finite d) (·.add (.finite d)))) (n + d) := by
  rcases h with rfl | ⟨rfl, rfl⟩
  · exact .inl (congrArg some (Num.add_int hlow hhigh))
  · rw [zero_add]
    exact .inl rfl

/-- The series of a counter or gauge. -/
def Registry.read (r : Registry HistogramEntry) (handle : Nat) (key : Str) : Option Num :=
  r.scalars[handle]?.bind (·.values.get? key)

/-- The entry of a handle shows a count in one of its series. Without labels that is its only one. -/
structure Holds (r : Registry HistogramEntry) (handle : Nat) (names : List Str) (key : Str) (n : ℤ) :
    Prop where
  entry : ∃ e, r.scalars[handle]? = some e ∧ e.labelNames = names ∧ Shows (e.values.get? key) n ∧
    (names = [] → ∀ k ∈ e.values.keys, k = [])

theorem Holds.read {r : Registry HistogramEntry} {handle : Nat} {names : List Str} {key : Str} {n : ℤ}
    (h : Holds r handle names key n) : Shows (r.read handle key) n := by
  obtain ⟨e, he, -, hshows, -⟩ := h.entry
  rw [Registry.read, he]
  exact hshows

/-- The calls that count up or down by one, and observations. -/
def Counts : Call → Prop
  | .add _ _ delta | .dec _ _ delta => delta = .finite 1
  | .observe .. => True
  | _ => False

/-- What a call adds to a series. -/
def delta (handle : Nat) (names : List Str) (key : Str) : Call → ℤ
  | .add h labels _ => if h = handle ∧ keyOf names labels = key then 1 else 0
  | .dec h labels _ => if h = handle ∧ keyOf names labels = key then -1 else 0
  | _ => 0

section

variable {r r' : Registry HistogramEntry} {handle : Nat} {names : List Str} {key : Str} {n : ℤ}

@[simp] theorem ScalarEntry.labelNames_add (e : ScalarEntry) (labels : Labels) (d : Num) :
    (e.add labels d).2.labelNames = e.labelNames := by
  rw [ScalarEntry.add_eq]

/-- Adding to one series. -/
theorem ScalarEntry.add_holds {e : ScalarEntry} {labels : Labels} {d : ℤ}
    (hshows : Shows (e.values.get? key) n) (halone : e.labelNames = [] → ∀ k ∈ e.values.keys, k = [])
    (hkept : e.labelNames = [] ∨ (e.add labels (.finite d)).1 = 0)
    (hsmall : n.natAbs + (if keyOf e.labelNames labels = key then d else 0).natAbs < 2 ^ 53) :
    Shows ((e.add labels (.finite d)).2.values.get? key)
      (n + if keyOf e.labelNames labels = key then d else 0) ∧
    (e.labelNames = [] → ∀ k ∈ (e.add labels (.finite d)).2.values.keys, k = []) := by
  rw [ScalarEntry.add_eq] at hkept ⊢
  dsimp only at hkept ⊢
  -- without labels there is one series at most, and nothing to evict
  have hnone : (e.values.put maxSeriesPerMetric (keyOf e.labelNames labels) (.finite d)
      (Num.add · (.finite d))).1 = 0 := by
    rcases hkept with hnames | hkept
    · refine JsMap.put_evicts_none ?_
      have hkeys : e.values.keys = List.replicate e.values.keys.length [] :=
        List.eq_replicate_of_mem (halone hnames)
      have hone : e.values.keys.length ≤ 1 := by
        have hnodup := e.values.nodup
        change e.values.keys.Nodup at hnodup
        rw [hkeys] at hnodup
        exact List.nodup_replicate.mp hnodup
      rw [JsMap.keys, List.length_map] at hone
      exact Nat.lt_of_le_of_lt hone (by decide)
    · exact hkept
  refine ⟨?_, fun hnames k hk => ?_⟩
  · rw [JsMap.get?_put hnone]
    by_cases hkey : keyOf e.labelNames labels = key
    · rw [if_pos hkey] at hsmall
      rw [if_pos hkey.symm, if_pos hkey, hkey]
      exact hshows.add (by omega) (by omega)
    · rw [if_neg (Ne.symm hkey), if_neg hkey, add_zero]
      exact hshows
  · by_contra hne
    have hget : (e.values.put maxSeriesPerMetric (keyOf e.labelNames labels) (.finite d)
        (Num.add · (.finite d))).2.get? k = none := by
      have hempty : keyOf e.labelNames labels = [] := by rw [hnames]; rfl
      rw [JsMap.get?_put hnone, hempty, if_neg hne, JsMap.get?_eq_none_iff]
      exact fun hmem => hne (halone hnames k hmem)
    exact JsMap.get?_eq_none_iff.mp hget hk

/-- Adding to the series of a handle. -/
theorem Holds.add {i : Nat} {labels : Labels} {d : ℤ} (h : Holds r handle names key n)
    (hr : r.onScalar i (·.add labels (.finite d)) = some r')
    (hkept : names = [] ∨ r'.seriesDropped = r.seriesDropped)
    (hsmall : n.natAbs + (if i = handle ∧ keyOf names labels = key then d else 0).natAbs < 2 ^ 53) :
    Holds r' handle names key (n + if i = handle ∧ keyOf names labels = key then d else 0) := by
  obtain ⟨x, hx, rfl⟩ := Option.map_eq_some_iff.mp hr
  obtain ⟨e, he, rfl, hshows, halone⟩ := h.entry
  by_cases hi : i = handle
  · subst hi
    obtain rfl := Option.some.inj (he.symm.trans hx)
    simp only [true_and] at hsmall ⊢
    obtain ⟨hshows', halone'⟩ := ScalarEntry.add_holds hshows halone
      (hkept.imp_right fun hdropped => Nat.add_eq_left.mp hdropped) hsmall
    exact ⟨_, List.getElem?_set_self (List.getElem?_eq_some_iff.mp hx).1,
      ScalarEntry.labelNames_add .., hshows', halone'⟩
  · simp only [hi, false_and, if_false, add_zero]
    exact ⟨e, (List.getElem?_set_ne hi).trans he, rfl, hshows, halone⟩

/-- **One call** of the registry, on a series that is not evicted. -/
theorem Holds.step {c : Call} (h : Holds r handle names key n) (hc : Counts c)
    (hr : r.step histograms c = some r') (hkept : names = [] ∨ r'.seriesDropped = r.seriesDropped)
    (hsmall : n.natAbs + (delta handle names key c).natAbs < 2 ^ 53) :
    Holds r' handle names key (n + delta handle names key c) := by
  cases c with
  | counter | gauge | histogram | set | reset => cases hc
  | add i labels d =>
    obtain rfl : d = .finite ((1 : ℤ) : ℚ) := hc
    exact h.add hr hkept hsmall
  | dec i labels d =>
    obtain rfl : d = .finite 1 := hc
    have hneg : Num.neg (.finite 1) = .finite ((-1 : ℤ) : ℚ) := by simp [Num.neg]
    rw [Registry.step] at hr
    simp only [ScalarEntry.dec, hneg] at hr
    exact h.add hr hkept hsmall
  | observe i value labels =>
    obtain ⟨x, -, rfl⟩ := Option.map_eq_some_iff.mp hr
    change Holds _ handle names key (n + 0)
    rw [add_zero]
    exact ⟨h.entry⟩

/-- Such calls find their entries, and never count drops back. -/
structure Grows (r r' : Registry HistogramEntry) : Prop where
  scalars : r'.scalars.length = r.scalars.length
  hists : r'.hists.length = r.hists.length
  dropped : r.seriesDropped ≤ r'.seriesDropped

theorem step_grows {c : Call} (hc : Counts c) (hr : r.step histograms c = some r') : Grows r r' := by
  cases c with
  | counter | gauge | histogram | set | reset => cases hc
  | add i labels d | dec i labels d =>
    obtain ⟨x, -, rfl⟩ := Option.map_eq_some_iff.mp hr
    exact ⟨List.length_set, rfl, Nat.le_add_right ..⟩
  | observe i value labels =>
    obtain ⟨x, -, rfl⟩ := Option.map_eq_some_iff.mp hr
    exact ⟨rfl, List.length_set, Nat.le_add_right ..⟩

theorem exec_grows {cs : List Call} (hcs : ∀ c ∈ cs, Counts c)
    (hr : exec (Registry.step histograms) r cs = some r') : Grows r r' := by
  induction cs generalizing r with
  | nil =>
    obtain rfl := Option.some.inj hr
    exact ⟨rfl, rfl, le_rfl⟩
  | cons c cs ih =>
    obtain ⟨t, ht, hr⟩ := Option.bind_eq_some_iff.mp hr
    have hfirst := step_grows (hcs c List.mem_cons_self) ht
    have hrest := ih (fun c hc => hcs c (List.mem_cons_of_mem _ hc)) hr
    exact ⟨hrest.scalars.trans hfirst.scalars, hrest.hists.trans hfirst.hists,
      hfirst.dropped.trans hrest.dropped⟩

/-- **Some calls** of the registry, on a series that is not evicted. -/
theorem Holds.exec {cs : List Call} (h : Holds r handle names key n) (hcs : ∀ c ∈ cs, Counts c)
    (hr : exec (Registry.step histograms) r cs = some r')
    (hkept : names = [] ∨ r'.seriesDropped = r.seriesDropped)
    (hsmall : n.natAbs + (cs.map fun c => (delta handle names key c).natAbs).sum < 2 ^ 53) :
    Holds r' handle names key (n + (cs.map (delta handle names key)).sum) := by
  induction cs generalizing r n with
  | nil =>
    obtain rfl := Option.some.inj hr
    simpa using h
  | cons c cs ih =>
    obtain ⟨t, ht, hr⟩ := Option.bind_eq_some_iff.mp hr
    have hc := hcs c List.mem_cons_self
    have hcs' : ∀ c ∈ cs, Counts c := fun c hc => hcs c (List.mem_cons_of_mem _ hc)
    have hfirst := step_grows hc ht
    have hrest := exec_grows hcs' hr
    rw [List.map_cons, List.sum_cons] at hsmall
    have hstep := h.step hc ht (hkept.imp_right fun hd => by
      have := hfirst.dropped
      have := hrest.dropped
      omega)
      (by omega)
    have := ih hstep hcs' hr (hkept.imp_right fun hd => by have := hfirst.dropped; have := hrest.dropped; omega)
      (by omega)
    rw [List.map_cons, List.sum_cons, ← add_assoc]
    exact this

end

/-! ## One hook

Each entry moves by what the hook adds to it, and the others stay. The counts are those of the hooks
that satisfy a predicate. -/

def requestNames : List Str := [str "method", str "status"]

/-- The metrics before the first request. -/
theorem createIngressMetrics_eq : ∃ m, createIngressMetrics = some m ∧ m.active = .empty ∧
    (m.registry.scalars.map fun e => (e.labelNames, e.values)) =
      [(requestNames, .empty), ([str "code"], .empty), ([], .empty), ([], .empty)] ∧
    m.registry.hists.length = 1 ∧ m.registry.seriesDropped = 0 := ⟨_, rfl, rfl, rfl, rfl, rfl⟩

/-- A response to a rate-limited request. -/
def Hook.limited : Hook → Bool
  | .onResponse _ _ _ rateLimited => rateLimited
  | _ => false

/-- A response that is counted in the series `key`. -/
def Hook.answers (key : Str) : Hook → Bool
  | .onResponse _ method status _ => keyOf requestNames (requestLabels method status) = key
  | _ => false

/-- An error that is counted in the series `key`. -/
def Hook.fails (key : Str) : Hook → Bool
  | .onError _ name => keyOf [str "code"] (errorLabels name) = key
  | _ => false

/-- What a hook adds to the gauge. -/
def IngressMetrics.gaugeDelta (m : IngressMetrics) : Hook → ℤ
  | .onRequest _ => 1
  | .onResponse requestId .. | .onError requestId _ => if (m.started requestId).isSome then -1 else 0

/-- What some calls add to a series, one of them at most. -/
structure Adds (cs : List Call) (handle : Nat) (names : List Str) (key : Str) (d : ℤ) : Prop where
  sum : (cs.map (delta handle names key)).sum = d
  alone : (cs.map fun c => (delta handle names key c).natAbs).sum = d.natAbs

section

variable {m m' : IngressMetrics} {now : Num} {h : Hook}

theorem counts_calls (m : IngressMetrics) (now : Num) (h : Hook) : ∀ c ∈ m.calls now h, Counts c := by
  cases h with
  | onRequest id => simp [IngressMetrics.calls, Counts]
  | onResponse id method status limited =>
    cases hstarted : m.started id <;> cases limited <;>
      simp [IngressMetrics.calls, hstarted, Counts]
  | onError id name =>
    cases hstarted : m.started id <;> simp [IngressMetrics.calls, hstarted, Counts]

theorem adds_inFlight (m : IngressMetrics) (now : Num) (h : Hook) :
    Adds (m.calls now h) inFlight [] [] (m.gaugeDelta h) := by
  have hkey : ∀ labels, keyOf [] labels = [] := fun _ => rfl
  cases h with
  | onRequest id => constructor <;> simp [IngressMetrics.calls, delta, hkey, IngressMetrics.gaugeDelta]
  | onResponse id method status limited =>
    constructor <;> cases hstarted : m.started id <;> cases limited <;>
      simp [IngressMetrics.calls, hstarted, delta, hkey, IngressMetrics.gaugeDelta, requestsTotal,
        rateLimitedTotal, inFlight]
  | onError id name =>
    constructor <;> cases hstarted : m.started id <;>
      simp [IngressMetrics.calls, hstarted, delta, hkey, IngressMetrics.gaugeDelta, errorsTotal, inFlight]

theorem adds_rateLimited (m : IngressMetrics) (now : Num) (h : Hook) :
    Adds (m.calls now h) rateLimitedTotal [] [] (if h.limited then 1 else 0) := by
  have hkey : ∀ labels, keyOf [] labels = [] := fun _ => rfl
  cases h with
  | onRequest id =>
    constructor <;> simp [IngressMetrics.calls, delta, Hook.limited, rateLimitedTotal, inFlight]
  | onResponse id method status limited =>
    constructor <;> cases hstarted : m.started id <;> cases limited <;>
      simp [IngressMetrics.calls, hstarted, delta, hkey, Hook.limited, requestsTotal, rateLimitedTotal,
        inFlight]
  | onError id name =>
    constructor <;> cases hstarted : m.started id <;>
      simp [IngressMetrics.calls, hstarted, delta, Hook.limited, errorsTotal, rateLimitedTotal, inFlight]

theorem adds_requests (m : IngressMetrics) (now : Num) (h : Hook) (key : Str) :
    Adds (m.calls now h) requestsTotal requestNames key (if h.answers key then 1 else 0) := by
  cases h with
  | onRequest id =>
    constructor <;> simp [IngressMetrics.calls, delta, Hook.answers, requestsTotal, inFlight]
  | onResponse id method status limited =>
    constructor <;> cases hstarted : m.started id <;> cases limited <;>
      by_cases hkey : keyOf requestNames (requestLabels method status) = key <;>
      simp [IngressMetrics.calls, hstarted, delta, hkey, Hook.answers, requestsTotal, rateLimitedTotal,
        inFlight]
  | onError id name =>
    constructor <;> cases hstarted : m.started id <;>
      simp [IngressMetrics.calls, hstarted, delta, Hook.answers, errorsTotal, requestsTotal, inFlight]

theorem adds_errors (m : IngressMetrics) (now : Num) (h : Hook) (key : Str) :
    Adds (m.calls now h) errorsTotal [str "code"] key (if h.fails key then 1 else 0) := by
  cases h with
  | onRequest id => constructor <;> simp [IngressMetrics.calls, delta, Hook.fails, errorsTotal, inFlight]
  | onResponse id method status limited =>
    constructor <;> cases hstarted : m.started id <;> cases limited <;>
      simp [IngressMetrics.calls, hstarted, delta, Hook.fails, requestsTotal, rateLimitedTotal,
        errorsTotal, inFlight]
  | onError id name =>
    constructor <;> cases hstarted : m.started id <;>
      by_cases hkey : keyOf [str "code"] (errorLabels name) = key <;>
      simp [IngressMetrics.calls, hstarted, delta, hkey, Hook.fails, errorsTotal, inFlight]

/-- **One hook**, and a series that is not evicted. -/
theorem Holds.hook {handle : Nat} {names : List Str} {key : Str} {n d : ℤ}
    (hholds : Holds m.registry handle names key n) (hadds : Adds (m.calls now h) handle names key d)
    (hm : m.hook now h = some m')
    (hkept : names = [] ∨ m'.registry.seriesDropped = m.registry.seriesDropped)
    (hsmall : n.natAbs + d.natAbs < 2 ^ 53) : Holds m'.registry handle names key (n + d) := by
  obtain ⟨r, hr, rfl⟩ := Option.map_eq_some_iff.mp hm
  rw [← hadds.sum]
  exact hholds.exec (counts_calls m now h) hr hkept (by rw [hadds.alone]; exact hsmall)

/-- A hook finds its entries. -/
theorem hook_isSome (now : Num) (h : Hook) (hscalars : m.registry.scalars.length = 4)
    (hhists : m.registry.hists.length = 1) :
    (m.hook now h).isSome = true := by
  -- An entry is addressed by its position, and the calls of a hook stay below the numbers of
  -- entries.
  have hcalls : ∀ cs : List Call, (∀ c ∈ cs, Counts c ∧ match c with
      | .add i .. | .dec i .. => i < 4
      | .observe i .. => i < 1
      | _ => True) →
      ∀ r : Registry HistogramEntry, r.scalars.length = 4 → r.hists.length = 1 →
        (exec (Registry.step histograms) r cs).isSome = true := by
    intro cs
    induction cs with
    | nil => exact fun _ _ _ _ => rfl
    | cons c cs ih =>
      intro hcs r hscalars hhists
      obtain ⟨hc, hi⟩ := hcs c List.mem_cons_self
      have hsome : (r.step histograms c).isSome = true := by
        cases c with
        | counter | gauge | histogram | set | reset => cases hc
        | add i labels d | dec i labels d =>
          rw [Registry.step, Registry.onScalar, List.getElem?_eq_getElem (hscalars ▸ hi)]
          rfl
        | observe i value labels =>
          rw [Registry.step, List.getElem?_eq_getElem (hhists ▸ hi)]
          rfl
      obtain ⟨t, ht⟩ := Option.isSome_iff_exists.mp hsome
      have hgrows := step_grows hc ht
      rw [exec, ht]
      exact ih (fun c hc => hcs c (List.mem_cons_of_mem _ hc)) t (hgrows.scalars.trans hscalars)
        (hgrows.hists.trans hhists)
  rw [IngressMetrics.hook, Option.isSome_map]
  refine hcalls _ (fun c hc => ⟨counts_calls m now h c hc, ?_⟩) m.registry hscalars hhists
  cases h with
  | onRequest id =>
    rw [IngressMetrics.calls, List.mem_singleton] at hc
    subst hc
    decide
  | onResponse id method status limited =>
    revert hc c
    cases hstarted : m.started id <;> cases limited <;>
      simp [IngressMetrics.calls, hstarted, requestsTotal, rateLimitedTotal, inFlight, requestDuration]
  | onError id name =>
    revert hc c
    cases hstarted : m.started id <;> simp [IngressMetrics.calls, hstarted, errorsTotal, inFlight]

end

/-! ## Runs of requests

The invariant of a process relates the entries to the runs: how many have begun and not ended, and
which hooks were called. Every move keeps it. -/

def Hook.requestId : Hook → Str
  | .onRequest id | .onResponse id .. | .onError id _ => id

/-- A hook that ends a request. -/
def Hook.Ends (h : Hook) : Prop := ∀ id, h ≠ .onRequest id

theorem Course.answer_ends (c : Course) (id : Str) (r : BakedIngressResult) :
    (c.answer id r).Ends ∧ (c.answer id r).requestId = id := by
  unfold Course.answer
  split <;> exact ⟨fun _ h => (by cases h), rfl⟩

/-- A run calls `onRequest` first, and then hooks that end the request. -/
theorem Course.getElem?_hooks {c : Course} {id : Str} {i : Nat} {h : Hook}
    (hh : (c.hooks id)[i]? = some h) :
    (i = 0 ∧ h = .onRequest id) ∨ (0 < i ∧ h.Ends ∧ h.requestId = id) := by
  cases i with
  | zero =>
    obtain rfl := Option.some.inj hh
    exact .inl ⟨rfl, rfl⟩
  | succ i =>
    refine .inr ⟨Nat.succ_pos i, ?_⟩
    have hmem := List.mem_of_getElem? (show (c.hooks id).tail[i]? = some h from hh)
    have herror : ∀ name, (Hook.onError id name).Ends ∧ (Hook.onError id name).requestId = id :=
      fun _ => ⟨fun _ h => (by cases h), rfl⟩
    unfold Course.hooks at hmem
    rw [List.tail_cons] at hmem
    split at hmem
    · rw [List.mem_singleton.mp hmem]
      exact herror _
    · split at hmem
      · rw [List.mem_singleton.mp hmem]
        exact c.answer_ends id _
      · rcases List.mem_cons.mp hmem with rfl | hmem
        · exact herror _
        · rw [List.mem_singleton.mp hmem]
          exact c.answer_ends id _

/-- The first hook that ends a request takes it off the gauge. -/
theorem Hook.Ends.effect {h : Hook} (hends : h.Ends) (m : IngressMetrics) (now : Num) :
    m.gaugeDelta h = (if (m.started h.requestId).isSome then -1 else 0) ∧
      m.activeAfter now h =
        if (m.started h.requestId).isSome then m.active.delete h.requestId else m.active := by
  cases h with
  | onRequest id => exact absurd rfl (hends id)
  | onResponse id method status limited => exact ⟨rfl, rfl⟩
  | onError id name => exact ⟨rfl, rfl⟩

theorem countP_set_add {α : Type} {p : α → Bool} {l : List α} {i : Nat} {x y : α} (h : l[i]? = some x) :
    (l.set i y).countP p + (if p x then 1 else 0) = l.countP p + if p y then 1 else 0 := by
  induction l generalizing i with
  | nil => cases h
  | cons z l ih =>
    cases i with
    | zero =>
      obtain rfl := Option.some.inj h
      rw [List.set_cons_zero, List.countP_cons, List.countP_cons]
      omega
    | succ i =>
      have := ih h
      rw [List.set_cons_succ, List.countP_cons, List.countP_cons]
      omega

/-- The state behind `calls` moves. -/
structure Inv (seed : IdCounter) (calls : Nat) (s : Handlers) : Prop where
  counter : s.counter = IdCounter.tick^[s.runs.length] seed
  ids : ∀ (i : Nat) (r : Running), s.runs[i]? = some r → r.id = idText (IdCounter.tick^[i] seed.tick)
  active : ∀ id, (s.metrics.active.get? id).isSome = true ↔
    ∃ (i : Nat) (r : Running), s.runs[i]? = some r ∧ r.id = id ∧ r.called = 1
  scalars : s.metrics.registry.scalars.length = 4
  hists : s.metrics.registry.hists.length = 1
  gauge : Holds s.metrics.registry inFlight [] [] s.inFlightCount
  limited : Holds s.metrics.registry rateLimitedTotal [] [] (s.tally Hook.limited)
  requests : s.metrics.registry.seriesDropped = 0 → ∀ key,
    Holds s.metrics.registry requestsTotal requestNames key (s.tally (Hook.answers key))
  errors : s.metrics.registry.seriesDropped = 0 → ∀ key,
    Holds s.metrics.registry errorsTotal [str "code"] key (s.tally (Hook.fails key))
  runs_le : s.runs.length ≤ calls
  tally_le : ∀ p, s.tally p ≤ calls

section

variable {seed : IdCounter} {calls : Nat} {s s' : Handlers}

theorem Inv.distinct (h : Inv seed calls s) (hcalls : calls < 2 ^ 53) {i j : Nat} {r r' : Running}
    (hr : s.runs[i]? = some r) (hr' : s.runs[j]? = some r') (hid : r.id = r'.id) : i = j := by
  have hi := (List.getElem?_eq_some_iff.mp hr).1
  have hj := (List.getElem?_eq_some_iff.mp hr').1
  have hle := h.runs_le
  rw [h.ids i r hr, h.ids j r' hr'] at hid
  exact idText_ticks_inj (by omega) (by omega) hid

theorem Inv.inFlight_le (h : Inv seed calls s) : s.inFlightCount ≤ calls :=
  List.countP_le_length.trans h.runs_le

theorem inv_new (h : Handlers.new seed = some s) : Inv seed 0 s := by
  obtain ⟨m, hm, hactive, hscalars, hhists, -⟩ := createIngressMetrics_eq
  rw [Handlers.new, hm] at h
  obtain rfl := Option.some.inj h
  -- Every series is still empty, and counts zero.
  have hholds : ∀ {handle names}, (m.registry.scalars.map fun e => (e.labelNames, e.values))[handle]? =
      some (names, JsMap.empty) → ∀ key, Holds m.registry handle names key 0 := by
    intro handle names hget key
    rw [List.getElem?_map] at hget
    obtain ⟨e, he, hnames⟩ := Option.map_eq_some_iff.mp hget
    rw [Prod.mk.injEq] at hnames
    refine ⟨e, he, hnames.1, ?_, ?_⟩
    · rw [hnames.2]
      exact .inr ⟨rfl, rfl⟩
    · rw [hnames.2]
      intro _ k hk
      cases hk
  rw [hscalars] at hholds
  exact {
    counter := rfl
    ids := fun i r hr => by cases hr
    active := fun id => by
      rw [hactive]
      exact iff_of_false (by simp [JsMap.get?, JsMap.empty]) (by simp)
    scalars := (List.length_map _).symm.trans (congrArg List.length hscalars)
    hists := hhists
    gauge := hholds rfl []
    limited := hholds rfl []
    requests := fun _ key => hholds rfl key
    errors := fun _ key => hholds rfl key
    runs_le := le_rfl
    tally_le := fun _ => le_rfl }

theorem Handlers.step_start (s : Handlers) (course : Course) : s.step (.start course) =
    some ⟨s.counter.tick, s.metrics, s.runs ++ [⟨idText s.counter.tick, course, 0⟩]⟩ := rfl

/-- A run starts. Its id is that of the next tick, so that the counter is always as many ticks ahead of
its seed as there are runs. -/
theorem Inv.start (h : Inv seed calls s) {course : Course} (hs : s.step (.start course) = some s') :
    Inv seed (calls + 1) s' := by
  rw [Handlers.step_start] at hs
  obtain rfl := Option.some.inj hs
  -- The counter runs ahead of its seed by one tick for each run.
  have hcounter : s.counter.tick = IdCounter.tick^[s.runs.length] seed.tick := by
    rw [h.counter, ← Function.iterate_succ_apply' IdCounter.tick, Function.iterate_succ_apply]
  have hcount : ∀ p, Handlers.tally
      ⟨s.counter.tick, s.metrics, s.runs ++ [⟨idText s.counter.tick, course, 0⟩]⟩ p = s.tally p := by
    intro p
    simp [Handlers.tally]
  have hflight : Handlers.inFlightCount
      ⟨s.counter.tick, s.metrics, s.runs ++ [⟨idText s.counter.tick, course, 0⟩]⟩ = s.inFlightCount := by
    simp [Handlers.inFlightCount]
  -- Nothing has been called yet by the new run, so only the ids and the counter move.
  refine ⟨?_, fun i r hr => ?_, fun id => ?_, h.scalars, h.hists, ?_, ?_, fun hd key => ?_,
    fun hd key => ?_, ?_, fun p => ?_⟩
  · rw [hcounter, List.length_append, List.length_singleton, Function.iterate_succ_apply]
  · rcases Nat.lt_or_ge i s.runs.length with hi | hi
    · exact h.ids i r ((List.getElem?_append_left hi).symm.trans hr)
    · rw [List.getElem?_append_right hi] at hr
      obtain ⟨hlt, rfl⟩ := List.getElem?_eq_some_iff.mp hr
      rw [List.length_singleton] at hlt
      rw [List.getElem_singleton, hcounter, show i = s.runs.length by omega]
  · rw [h.active id]
    constructor
    · rintro ⟨i, r, hr, hid, hcalled⟩
      exact ⟨i, r, (List.getElem?_append_left (List.getElem?_eq_some_iff.mp hr).1).trans hr, hid, hcalled⟩
    · rintro ⟨i, r, hr, hid, hcalled⟩
      rcases Nat.lt_or_ge i s.runs.length with hi | hi
      · exact ⟨i, r, (List.getElem?_append_left hi).symm.trans hr, hid, hcalled⟩
      · rw [List.getElem?_append_right hi] at hr
        obtain ⟨_, hget⟩ := List.getElem?_eq_some_iff.mp hr
        rw [List.getElem_singleton] at hget
        rw [← hget] at hcalled
        cases hcalled
  · rw [hflight]
    exact h.gauge
  · rw [hcount]
    exact h.limited
  · rw [hcount]
    exact h.requests hd key
  · rw [hcount]
    exact h.errors hd key
  · rw [List.length_append, List.length_singleton]
    exact Nat.succ_le_succ h.runs_le
  · rw [hcount]
    exact Nat.le_succ_of_le (h.tally_le p)

/-- A run has called one hook more. -/
def Running.next (r : Running) : Running := { r with called := r.called + 1 }

theorem tally_set {i : Nat} {r : Running} {hook : Hook} (metrics : IngressMetrics) (hr : s.runs[i]? = some r)
    (hhook : (r.course.hooks r.id)[r.called]? = some hook) (p : Hook → Bool) :
    Handlers.tally { s with metrics, runs := s.runs.set i r.next } p = s.tally p + if p hook then 1 else 0 := by
  have hsum := Registry.sum_set (fun r : Running => ((r.course.hooks r.id).take r.called).countP p)
    r.next hr
  have htake : (r.next.course.hooks r.next.id).take r.next.called =
      (r.course.hooks r.id).take r.called ++ [hook] := by
    change (r.course.hooks r.id).take (r.called + 1) = _
    rw [List.take_add_one, hhook]
    rfl
  rw [htake, List.countP_append, List.countP_singleton] at hsum
  unfold Handlers.tally
  dsimp only
  omega

/-- What a hook does to the runs in flight, the gauge and the map of active requests. -/
theorem Inv.flight (h : Inv seed calls s) (hcalls : calls < 2 ^ 53) {i : Nat} {r : Running} {hook : Hook}
    (now : Num) (hr : s.runs[i]? = some r) (hhook : (r.course.hooks r.id)[r.called]? = some hook) :
    ((s.runs.set i r.next).countP (·.called = 1) : ℤ) = s.inFlightCount + s.metrics.gaugeDelta hook ∧
    ∀ id, ((s.metrics.activeAfter now hook).get? id).isSome = true ↔
      ∃ (j : Nat) (r' : Running), (s.runs.set i r.next)[j]? = some r' ∧ r'.id = id ∧ r'.called = 1 := by
  have hi := (List.getElem?_eq_some_iff.mp hr).1
  have hcount := countP_set_add (p := fun r : Running => r.called = 1) (y := r.next) hr
  have hnext : r.next.called = r.called + 1 := rfl
  have hne : r.id ≠ [] := by
    rw [h.ids i r hr]
    exact idText_ne_nil _
  -- runs with another id are as before
  have hothers : ∀ id, id ≠ r.id → ((s.metrics.active.get? id).isSome = true ↔
      ∃ (j : Nat) (r' : Running), (s.runs.set i r.next)[j]? = some r' ∧ r'.id = id ∧ r'.called = 1) := by
    intro id hid
    rw [h.active id]
    refine exists_congr fun j => exists_congr fun r' => and_congr_left fun hr' => ?_
    by_cases hj : i = j
    · subst hj
      rw [hr, List.getElem?_set_self hi]
      refine iff_of_false (fun heq => ?_) fun heq => ?_
      · exact hid (by rw [← hr'.1, ← Option.some.inj heq])
      · exact hid (by rw [← hr'.1, ← Option.some.inj heq]; rfl)
    · rw [List.getElem?_set_ne hj]
  -- and no other run has this id
  have hself : (∃ (j : Nat) (r' : Running), (s.runs.set i r.next)[j]? = some r' ∧ r'.id = r.id ∧
      r'.called = 1) ↔ r.called = 0 := by
    constructor
    · rintro ⟨j, r', hr', hid, hcalled⟩
      by_cases hj : i = j
      · subst hj
        rw [List.getElem?_set_self hi] at hr'
        obtain rfl := Option.some.inj hr'
        omega
      · rw [List.getElem?_set_ne hj] at hr'
        exact absurd (h.distinct hcalls hr hr' hid.symm) hj
    · intro hzero
      exact ⟨i, r.next, List.getElem?_set_self hi, rfl, by omega⟩
  have hstarted : (s.metrics.started r.id).isSome = true ↔ r.called = 1 := by
    rw [IngressMetrics.started, if_neg hne, h.active]
    constructor
    · rintro ⟨j, r', hr', hid, hcalled⟩
      obtain rfl := h.distinct hcalls hr hr' hid.symm
      rw [Option.some.inj (hr.symm.trans hr')]
      exact hcalled
    · exact fun hcalled => ⟨i, r, hr, rfl, hcalled⟩
  rcases Course.getElem?_hooks hhook with ⟨hzero, rfl⟩ | ⟨hpos, hends, hid⟩
  · -- the first hook
    refine ⟨?_, fun id => ?_⟩
    · rw [if_neg (by simpa using (by omega : r.called ≠ 1)), if_pos (by simpa using (by omega))] at hcount
      simp only [IngressMetrics.gaugeDelta, Handlers.inFlightCount]
      omega
    · rw [IngressMetrics.activeAfter, if_neg hne, JsMap.get?_set]
      by_cases hid : id = r.id
      · rw [if_pos hid, hid, hself]
        exact iff_of_true rfl hzero
      · rw [if_neg hid]
        exact hothers id hid
  · obtain ⟨hgauge, hactive⟩ := hends.effect s.metrics now
    rw [hgauge, hactive, hid]
    by_cases hone : r.called = 1
    · -- the hook that ends the request
      rw [if_pos (hstarted.mpr hone), if_pos (hstarted.mpr hone)]
      refine ⟨?_, fun id => ?_⟩
      · rw [if_pos (by simpa using hone), if_neg (by simpa using (by omega))] at hcount
        simp only [Handlers.inFlightCount]
        omega
      · rw [JsMap.get?_delete]
        by_cases hid' : id = r.id
        · rw [if_pos hid', hid', hself]
          exact iff_of_false (by simp) (by omega)
        · rw [if_neg hid']
          exact hothers id hid'
    · -- the request has ended before
      rw [if_neg (by rw [hstarted]; exact hone), if_neg (by rw [hstarted]; exact hone)]
      refine ⟨?_, fun id => ?_⟩
      · rw [if_neg (by simpa using hone), if_neg (by simpa using (by omega))] at hcount
        simp only [Handlers.inFlightCount]
        omega
      · by_cases hid' : id = r.id
        · rw [hid', hself, h.active]
          refine iff_of_false ?_ (by omega)
          rintro ⟨j, r', hr', hid, hcalled⟩
          obtain rfl := h.distinct hcalls hr hr' hid.symm
          exact hone (Option.some.inj (hr.symm.trans hr') ▸ hcalled)
        · exact hothers id hid'

/-- A run calls its next hook. -/
theorem Inv.call (h : Inv seed calls s) (hcalls : calls + 1 < 2 ^ 53) {i : Nat} {now : Num}
    (hs : s.step (.call i now) = some s') : Inv seed (calls + 1) s' := by
  obtain ⟨r, hr, hs⟩ := Option.bind_eq_some_iff.mp hs
  obtain ⟨hook, hhook, hs⟩ := Option.bind_eq_some_iff.mp hs
  obtain ⟨metrics, hmetrics, hs⟩ := Option.bind_eq_some_iff.mp hs
  obtain rfl := Option.some.inj hs
  change Inv seed (calls + 1) { s with metrics, runs := s.runs.set i r.next }
  obtain ⟨hcount, hactive⟩ := h.flight (by omega) now hr hhook
  have hgrows : Grows s.metrics.registry metrics.registry := by
    obtain ⟨registry, hexec, rfl⟩ := Option.map_eq_some_iff.mp hmetrics
    exact exec_grows (counts_calls s.metrics now hook) hexec
  have htally := fun p => tally_set metrics hr hhook p
  -- A count moves by at most one, which keeps it in the range that is counted exactly.
  have hone : ∀ (p : Hook → Bool),
      ((s.tally p : ℤ)).natAbs + (if p hook then (1 : ℤ) else 0).natAbs < 2 ^ 53 := by
    intro p
    have := h.tally_le p
    split <;> omega
  have hcast : ∀ p, ((Handlers.tally { s with metrics, runs := s.runs.set i r.next } p : Nat) : ℤ) =
      s.tally p + if p hook then 1 else 0 := by
    intro p
    rw [htally]
    split <;> rfl
  -- Nothing was dropped after the call, so nothing before it: the number only grows.
  have hdropped : metrics.registry.seriesDropped = 0 →
      s.metrics.registry.seriesDropped = 0 ∧
        metrics.registry.seriesDropped = s.metrics.registry.seriesDropped := by
    intro hd
    have := hgrows.dropped
    omega
  refine ⟨?_, fun j r' hr' => ?_, fun id => ?_, hgrows.scalars.trans h.scalars, hgrows.hists.trans h.hists,
    ?_, ?_, fun hd key => ?_, fun hd key => ?_, ?_, fun p => ?_⟩
  · rw [List.length_set]
    exact h.counter
  · by_cases hj : i = j
    · subst hj
      rw [List.getElem?_set_self (List.getElem?_eq_some_iff.mp hr).1] at hr'
      rw [← Option.some.inj hr']
      exact h.ids i r hr
    · exact h.ids j r' ((List.getElem?_set_ne hj).symm.trans hr')
  · obtain ⟨registry, -, rfl⟩ := Option.map_eq_some_iff.mp hmetrics
    exact hactive id
  · have hdelta : (s.metrics.gaugeDelta hook).natAbs ≤ 1 := by
      unfold IngressMetrics.gaugeDelta
      split
      · exact le_rfl
      · split <;> decide
      · split <;> decide
    have hle := h.inFlight_le
    have hholds := h.gauge.hook (adds_inFlight s.metrics now hook) hmetrics (.inl rfl) (by omega)
    rwa [← hcount] at hholds
  · rw [hcast]
    exact h.limited.hook (adds_rateLimited s.metrics now hook) hmetrics (.inl rfl) (hone _)
  · rw [hcast]
    exact (h.requests (hdropped hd).1 key).hook (adds_requests s.metrics now hook key) hmetrics
      (.inr (hdropped hd).2) (hone _)
  · rw [hcast]
    exact (h.errors (hdropped hd).1 key).hook (adds_errors s.metrics now hook key) hmetrics
      (.inr (hdropped hd).2) (hone _)
  · rw [List.length_set]
    exact Nat.le_succ_of_le h.runs_le
  · rw [htally]
    have := h.tally_le p
    split <;> omega

/-- **Every state reached** in fewer than `2 ^ 53` moves. -/
theorem inv_of_exec {s₀ : Handlers} {acts : List Act} (hnew : Handlers.new seed = some s₀)
    (h : exec Handlers.step s₀ acts = some s) (hsmall : acts.length < 2 ^ 53) :
    Inv seed acts.length s := by
  induction acts using List.reverseRecOn generalizing s with
  | nil =>
    obtain rfl := Option.some.inj h
    exact inv_new hnew
  | append_singleton acts act ih =>
    rw [List.length_append, List.length_singleton] at hsmall ⊢
    obtain ⟨t, ht, hstep⟩ := exec_concat h
    have hinv := ih ht (by omega)
    cases act with
    | start course => exact hinv.start hstep
    | call i now => exact hinv.call hsmall hstep

end

/-! ## What the metrics show

What the invariant comes to at the end of a run of the process. -/

/-- What the metrics show of the runs. -/
structure Handlers.Exact (s : Handlers) : Prop where
  /-- The gauge is the number of runs that have begun and not ended. -/
  gauge : Shows (s.metrics.registry.read inFlight []) s.inFlightCount
  /-- The active requests are those of these runs. -/
  active : ∀ id, (s.metrics.active.get? id).isSome = true ↔ ∃ r ∈ s.runs, r.id = id ∧ r.called = 1
  limited : Shows (s.metrics.registry.read rateLimitedTotal []) (s.tally Hook.limited)
  /-- Unless series were evicted, responses and errors are counted under their labels. -/
  labelled : s.metrics.registry.seriesDropped = 0 → ∀ key,
    Shows (s.metrics.registry.read requestsTotal key) (s.tally (Hook.answers key)) ∧
      Shows (s.metrics.registry.read errorsTotal key) (s.tally (Hook.fails key))
  /-- A run can call every hook that it has left. -/
  live : ∀ (i : Nat) (r : Running) (now : Num), s.runs[i]? = some r →
    ((s.step (.call i now)).isSome = true ↔ r.called < (r.course.hooks r.id).length)

/-- **The metrics are exact.** Under any interleaving of the runs of any handlers that share the metrics,
with failed native calls, failed packing and callbacks that throw, each request is on the gauge from its
first hook to its second, and once; no active request is forgotten, and none is left behind. Counts are exact
as long as numbers are. -/
theorem ingressMetrics_exact {seed : IdCounter} {s₀ s : Handlers} {acts : List Act}
    (hnew : Handlers.new seed = some s₀) (h : exec Handlers.step s₀ acts = some s)
    (hsmall : acts.length < 2 ^ 53) : s.Exact := by
  have hinv := inv_of_exec hnew h hsmall
  refine ⟨hinv.gauge.read, fun id => ?_, hinv.limited.read,
    fun hd key => ⟨(hinv.requests hd key).read, (hinv.errors hd key).read⟩, fun i r now hr => ?_⟩
  · rw [hinv.active]
    constructor
    · rintro ⟨i, r, hr, hid⟩
      exact ⟨r, List.mem_of_getElem? hr, hid⟩
    · rintro ⟨r, hr, hid⟩
      obtain ⟨i, hi⟩ := List.mem_iff_getElem?.mp hr
      exact ⟨i, r, hi, hid⟩
  · simp only [Handlers.step, hr, Option.bind_eq_bind, Option.bind_some]
    constructor
    · intro hsome
      by_contra hge
      rw [List.getElem?_eq_none (Nat.le_of_not_lt hge)] at hsome
      cases hsome
    · intro hlt
      rw [List.getElem?_eq_getElem hlt, Option.bind_some]
      obtain ⟨metrics, hmetrics⟩ := Option.isSome_iff_exists.mp
        (hook_isSome now (r.course.hooks r.id)[r.called] hinv.scalars hinv.hists)
      rw [hmetrics]
      rfl

/-- A request whose native call fails and that is answered all the same, and one that has only begun. -/
def twoRequests : List Act :=
  [.start ⟨none, none, .error [], fun _ => .ok (some 500)⟩, .call 0 (.finite 0),
    .start ⟨none, none, .error [], fun _ => .ok none⟩, .call 1 (.finite 1), .call 0 (.finite 2),
    .call 0 (.finite 3)]

theorem ingressMetrics_exact_failed : ∃ s₀ s, Handlers.new (.boot 7 1) = some s₀ ∧
    exec Handlers.step s₀ twoRequests = some s ∧ s.inFlightCount = 1 ∧
    Shows (s.metrics.registry.read inFlight []) 1 := by
  have hruns : ((Handlers.new (.boot 7 1)).bind (exec Handlers.step · twoRequests)).map Handlers.inFlightCount =
      some 1 := rfl
  obtain ⟨s, hs, hcount⟩ := Option.map_eq_some_iff.mp hruns
  obtain ⟨s₀, hnew, hs⟩ := Option.bind_eq_some_iff.mp hs
  have hgauge := (ingressMetrics_exact hnew hs (by decide)).gauge
  rw [hcount] at hgauge
  exact ⟨s₀, s, hnew, hs, hcount, hgauge⟩

end MetricsRegistry

end Castrum
