import Castrum.Lib.JsMap
import Castrum.Lib.Runs
import Castrum.Shared.Accounting
import Castrum.Util.Str

/-!
# Castrum — the metrics registry (`src/shared/metrics.ts`)

Counters, gauges and histograms with labels. A family keeps a bounded number of series: a new one finds a
full family and throws its older half away, which is counted. The entry of a family is an object that
handles point to; `reset` forgets the families, but a handle from before still writes to its entry.

* `Registry.step` — one call;
* `ScalarEntry.add_eq` / `HistogramEntry.observe_counts` — a call writes one entry of a bounded map;
* `Registry.step_accounts` — one call keeps the bounds, and what it makes is kept or counted;
* `Registry.registry_accounts` — no family grows over the bound in any state reached, and no series is
  lost uncounted.
-/

namespace Castrum

namespace Num

/-- `-x`. -/
def neg : Num → Num
  | .finite x => if x = 0 then .negZero else .finite (-x)
  | .negZero => .finite 0
  | .posInf => .negInf
  | .negInf => .posInf
  | .nan => .nan

/-- `x + y`: the sum rounded to a double. -/
def add : Num → Num → Num
  | .nan, _ | _, .nan => .nan
  | .posInf, .negInf | .negInf, .posInf => .nan
  | .posInf, _ | _, .posInf => .posInf
  | .negInf, _ | _, .negInf => .negInf
  | .negZero, .negZero => .negZero
  | x, y =>
    let sum := roundF64 (x.value + y.value)
    if 2 ^ 1024 ≤ sum then .posInf else if sum ≤ -2 ^ 1024 then .negInf else .finite sum

end Num

namespace MetricsRegistry

/-- A text of the source. -/
def str (s : String) : Str := s.toList

/-! ## Labels -/

def maxSeriesPerMetric : Nat := 10000

/-- The labels of a call: `undefined`, or the properties of an object. -/
abbrev Labels := Option (List (Str × Str))

/-- `labels?.[n] ?? ''`. -/
def labelAt (labels : Labels) (n : Str) : Str := (labels.bind (List.lookup n)).getD []

/-- `v.replace(/c/g, s)`. -/
def replaceChar (c : Char) (s v : Str) : Str := v.flatMap fun x => if x = c then s else [x]

def escapeLabel (v : Str) : Str :=
  replaceChar '\n' ['\\', 'n'] (replaceChar '"' ['\\', '"'] (replaceChar '\\' ['\\', '\\'] v))

/-- Stable key for a label set. -/
def labelKey (names values : List Str) : Str :=
  [','].intercalate (names.zipIdx.map fun (n, i) =>
    n ++ ['=', '"'] ++ escapeLabel (values.getD i []) ++ ['"'])

def keyOf (names : List Str) (labels : Labels) : Str := labelKey names (names.map (labelAt labels))

/-! ## Entries -/

/-- `CounterEntry` and `GaugeEntry`. -/
structure ScalarEntry where
  name : Str
  help : Str
  labelNames : List Str
  values : JsMap Str Num

structure HistogramEntry where
  name : Str
  help : Str
  labelNames : List Str
  buckets : List Num
  counts : JsMap Str (List Nat)
  sums : JsMap Str Num

def ScalarEntry.new (name help : Str) (labelNames : List Str) : ScalarEntry :=
  ⟨name, help, labelNames, .empty⟩

/-- `inc` of a counter, and `add` of a gauge: how many series were dropped, and the entry. -/
def ScalarEntry.add (e : ScalarEntry) (labels : Labels) (delta : Num) : Nat × ScalarEntry :=
  let key := keyOf e.labelNames labels
  match e.values.get? key with
  | none =>
    let evicted := e.values.evictOldestHalf maxSeriesPerMetric
    (evicted.1.length, { e with values := evicted.2.set key delta })
  | some prev => (0, { e with values := e.values.set key (prev.add delta) })

/-- `dec` of a gauge. -/
def ScalarEntry.dec (e : ScalarEntry) (labels : Labels) (by' : Num) : Nat × ScalarEntry :=
  e.add labels by'.neg

/-- `set` of a gauge. -/
def ScalarEntry.set (e : ScalarEntry) (labels : Labels) (value : Num) : Nat × ScalarEntry :=
  let key := keyOf e.labelNames labels
  match e.values.get? key with
  | none =>
    let evicted := e.values.evictOldestHalf maxSeriesPerMetric
    (evicted.1.length, { e with values := evicted.2.set key value })
  | some _ => (0, { e with values := e.values.set key value })

/-- `DEFAULT_BUCKETS`. -/
def defaultBuckets : List Num :=
  [1 / 1000, 1 / 400, 1 / 200, 1 / 100, 1 / 40, 1 / 20, 1 / 10, 1 / 4, 1 / 2, 1, 5 / 2, 5, 10].map
    fun q : ℚ => .finite (roundF64 q)

def HistogramEntry.new (name help : Str) (buckets : List Num) (labelNames : List Str) : HistogramEntry :=
  ⟨name, help, labelNames, buckets.mergeSort (·.le ·), .empty, .empty⟩

/-- The upper bound of slot `i`; the last slot is that of `+Inf`. -/
def bound (buckets : List Num) (i : Nat) : Num := buckets.getD i .posInf

/-- One more in every slot that the value falls into. -/
def bump (buckets : List Num) (value : Num) (counts : List Nat) : List Nat :=
  counts.zipIdx.map fun (n, i) => if value.le (bound buckets i) then n + 1 else n

def HistogramEntry.observe (e : HistogramEntry) (value : Num) (labels : Labels) : Nat × HistogramEntry :=
  let key := keyOf e.labelNames labels
  match e.counts.get? key with
  | some counts =>
    (0, { e with
      counts := e.counts.set key (bump e.buckets value counts)
      sums := e.sums.set key (((e.sums.get? key).getD (.finite 0)).add value) })
  | none =>
    let evicted := e.counts.evictOldestHalf maxSeriesPerMetric
    let sums := e.sums.deleteAll evicted.1
    let counts := List.replicate (e.buckets.length + 1) 0
    (evicted.1.length, { e with
      counts := (evicted.2.set key counts).set key (bump e.buckets value counts)
      sums := sums.set key (((sums.get? key).getD (.finite 0)).add value) })

/-! ## The registry -/

/-- A way to keep histograms. -/
structure Histograms (H : Type) where
  new : Str → Str → List Num → List Str → H
  observe : H → Num → Labels → Nat × H

def histograms : Histograms HistogramEntry := ⟨HistogramEntry.new, HistogramEntry.observe⟩

/-- The entries that were made, which handles point to, and those that each name stands for. -/
structure Registry (H : Type) where
  scalars : List ScalarEntry
  hists : List H
  counters : JsMap Str Nat
  gauges : JsMap Str Nat
  histograms : JsMap Str Nat
  seriesDropped : Nat

/-- The calls; a handle is the number of its entry. -/
inductive Call where
  | counter (name help : Str) (labelNames : List Str)
  | gauge (name help : Str) (labelNames : List Str)
  | histogram (name help : Str) (buckets : Option (List Num)) (labelNames : List Str)
  | add (handle : Nat) (labels : Labels) (delta : Num)
  | dec (handle : Nat) (labels : Labels) (by' : Num)
  | set (handle : Nat) (labels : Labels) (value : Num)
  | observe (handle : Nat) (value : Num) (labels : Labels)
  | reset

section

variable {H : Type} (hist : Histograms H)

def Registry.new : Registry H := ⟨[], [], .empty, .empty, .empty, 0⟩

/-- A change of one counter or gauge entry. -/
def Registry.onScalar (r : Registry H) (handle : Nat) (f : ScalarEntry → Nat × ScalarEntry) :
    Option (Registry H) :=
  r.scalars[handle]?.map fun e =>
    { r with
      scalars := r.scalars.set handle (f e).2
      seriesDropped := r.seriesDropped + (f e).1 }

/-- One call, `none` for a handle that was never handed out. -/
def Registry.step (r : Registry H) : Call → Option (Registry H)
  | .counter name help labelNames =>
    match r.counters.get? name with
    | some _ => some r
    | none => some { r with
        scalars := r.scalars ++ [.new name help labelNames]
        counters := r.counters.set name r.scalars.length }
  | .gauge name help labelNames =>
    match r.gauges.get? name with
    | some _ => some r
    | none => some { r with
        scalars := r.scalars ++ [.new name help labelNames]
        gauges := r.gauges.set name r.scalars.length }
  | .histogram name help buckets labelNames =>
    match r.histograms.get? name with
    | some _ => some r
    | none => some { r with
        hists := r.hists ++ [hist.new name help (buckets.getD defaultBuckets) labelNames]
        histograms := r.histograms.set name r.hists.length }
  | .add handle labels delta => r.onScalar handle (·.add labels delta)
  | .dec handle labels by' => r.onScalar handle (·.dec labels by')
  | .set handle labels value => r.onScalar handle (·.set labels value)
  | .observe handle value labels =>
    r.hists[handle]?.map fun e =>
      { r with
        hists := r.hists.set handle (hist.observe e value labels).2
        seriesDropped := r.seriesDropped + (hist.observe e value labels).1 }
  | .reset => some { r with counters := .empty, gauges := .empty, histograms := .empty, seriesDropped := 0 }

end

/-! ## One call on an entry -/

section

variable {labels : Labels} {value delta : Num}

theorem ScalarEntry.add_eq (e : ScalarEntry) (labels : Labels) (delta : Num) :
    e.add labels delta =
      let p := e.values.put maxSeriesPerMetric (keyOf e.labelNames labels) delta (·.add delta)
      (p.1, { e with values := p.2 }) := by
  unfold ScalarEntry.add JsMap.put
  dsimp only
  cases e.values.get? (keyOf e.labelNames labels) <;> rfl

theorem ScalarEntry.set_eq (e : ScalarEntry) (labels : Labels) (value : Num) :
    e.set labels value =
      let p := e.values.put maxSeriesPerMetric (keyOf e.labelNames labels) value fun _ => value
      (p.1, { e with values := p.2 }) := by
  unfold ScalarEntry.set JsMap.put
  dsimp only
  cases e.values.get? (keyOf e.labelNames labels) <;> rfl

/-- The counts of a histogram are written as any entry is. -/
theorem HistogramEntry.observe_counts (e : HistogramEntry) (value : Num) (labels : Labels) :
    let p := e.counts.put maxSeriesPerMetric (keyOf e.labelNames labels)
      (bump e.buckets value (List.replicate (e.buckets.length + 1) 0)) (bump e.buckets value)
    (e.observe value labels).1 = p.1 ∧ (e.observe value labels).2.counts = p.2 := by
  unfold HistogramEntry.observe JsMap.put
  dsimp only
  cases e.counts.get? (keyOf e.labelNames labels) with
  | none => exact ⟨rfl, JsMap.set_set⟩
  | some counts => exact ⟨rfl, rfl⟩

end

/-! ## Accounts

Every series that is made is kept or counted as dropped, which is a matter of one entry at a time.
-/

/-- A change of an entry that keeps its bound, and accounts for a new series at `key` and for what it
drops. -/
structure Accounted {E : Type} (size : E → Nat) (isNew : Bool) (e : E) (done : Nat × E) : Prop where
  bounded : size e ≤ maxSeriesPerMetric → size done.2 ≤ maxSeriesPerMetric
  counted : size done.2 + done.1 = size e + isNew.toNat

/-- Whether a call makes a series of a counter or gauge. -/
def ScalarEntry.isNew (e : ScalarEntry) (labels : Labels) : Bool :=
  (e.values.get? (keyOf e.labelNames labels)).isNone

def HistogramEntry.isNew (e : HistogramEntry) (labels : Labels) : Bool :=
  (e.counts.get? (keyOf e.labelNames labels)).isNone

theorem accounted_put {α : Type} (m : JsMap Str α) (key : Str) (fresh : α) (next : α → α) :
    Accounted JsMap.size (m.get? key).isNone m (m.put maxSeriesPerMetric key fresh next) where
  bounded := JsMap.size_put_le (by decide)
  counted := by
    rw [JsMap.size_put_add]
    cases (m.get? key).isNone <;> rfl

theorem ScalarEntry.add_accounted (e : ScalarEntry) (labels : Labels) (delta : Num) :
    Accounted (·.values.size) (e.isNew labels) e (e.add labels delta) := by
  have h := accounted_put e.values (keyOf e.labelNames labels) delta (·.add delta)
  rw [ScalarEntry.add_eq]
  exact ⟨h.bounded, h.counted⟩

theorem ScalarEntry.set_accounted (e : ScalarEntry) (labels : Labels) (value : Num) :
    Accounted (·.values.size) (e.isNew labels) e (e.set labels value) := by
  have h := accounted_put e.values (keyOf e.labelNames labels) value fun _ => value
  rw [ScalarEntry.set_eq]
  exact ⟨h.bounded, h.counted⟩

theorem HistogramEntry.observe_accounted (e : HistogramEntry) (value : Num) (labels : Labels) :
    Accounted (·.counts.size) (e.isNew labels) e (e.observe value labels) := by
  have h := accounted_put e.counts (keyOf e.labelNames labels)
    (bump e.buckets value (List.replicate (e.buckets.length + 1) 0)) (bump e.buckets value)
  obtain ⟨hdropped, hcounts⟩ := e.observe_counts value labels
  refine ⟨fun hle => ?_, ?_⟩
  · rw [hcounts]
    exact h.bounded hle
  · rw [hcounts, hdropped]
    exact h.counted

namespace Registry

/-- All series that entries hold. -/
def series (r : Registry HistogramEntry) : Nat :=
  (r.scalars.map (·.values.size)).sum + (r.hists.map (·.counts.size)).sum

/-- How many series a call makes. -/
def made (r : Registry HistogramEntry) : Call → Nat
  | .add handle labels _ | .dec handle labels _ | .set handle labels _ =>
    ((r.scalars[handle]?.map (·.isNew labels)).getD false).toNat
  | .observe handle _ labels => ((r.hists[handle]?.map (·.isNew labels)).getD false).toNat
  | _ => 0

/-- How many series some calls make, one after another. -/
def madeIn (r : Registry HistogramEntry) : List Call → Nat
  | [] => 0
  | c :: cs => r.made c + ((r.step MetricsRegistry.histograms c).map (madeIn · cs)).getD 0

/-- No family is over its bound. -/
structure Bounded (r : Registry HistogramEntry) : Prop where
  scalars : ∀ e ∈ r.scalars, e.values.size ≤ maxSeriesPerMetric
  hists : ∀ e ∈ r.hists, e.counts.size ≤ maxSeriesPerMetric

theorem sum_set {E : Type} (size : E → Nat) {l : List E} {i : Nat} {e : E} (e' : E) (h : l[i]? = some e) :
    ((l.set i e').map size).sum + size e = (l.map size).sum + size e' := by
  induction l generalizing i with
  | nil => cases h
  | cons x l ih =>
    cases i with
    | zero =>
      obtain rfl := Option.some.inj h
      simp only [List.set_cons_zero, List.map_cons, List.sum_cons]
      omega
    | succ i =>
      have := ih h
      simp only [List.set_cons_succ, List.map_cons, List.sum_cons]
      omega

variable {r r' : Registry HistogramEntry}

/-- What a call on one counter or gauge does. -/
theorem onScalar_accounts {handle : Nat} {labels : Labels} {f : ScalarEntry → Nat × ScalarEntry}
    (hf : ∀ e, Accounted (·.values.size) (e.isNew labels) e (f e)) (h : r.onScalar handle f = some r') :
    (r.Bounded → r'.Bounded) ∧ r'.series + r'.seriesDropped = r.series + r.seriesDropped +
      ((r.scalars[handle]?.map (·.isNew labels)).getD false).toNat := by
  obtain ⟨e, he, rfl⟩ := Option.map_eq_some_iff.mp h
  refine ⟨fun hb => ⟨fun x hx => ?_, hb.hists⟩, ?_⟩
  · rcases List.mem_or_eq_of_mem_set hx with hx | rfl
    · exact hb.scalars x hx
    · exact (hf e).bounded (hb.scalars e (List.mem_of_getElem? he))
  · have hsum := sum_set (fun e : ScalarEntry => e.values.size) (f e).2 he
    have hcount := (hf e).counted
    rw [he]
    simp only [series, Option.map_some, Option.getD_some]
    omega

/-- A counter or gauge that is made has no series. -/
theorem newScalar (name help : Str) (labelNames : List Str) :
    (r.Bounded → ∀ e ∈ r.scalars ++ [ScalarEntry.new name help labelNames],
      e.values.size ≤ maxSeriesPerMetric) ∧
    ((r.scalars ++ [ScalarEntry.new name help labelNames]).map (·.values.size)).sum =
      (r.scalars.map (·.values.size)).sum := by
  refine ⟨fun hb e he => ?_, ?_⟩
  · rcases List.mem_append.mp he with he | he
    · exact hb.scalars e he
    · rw [List.mem_singleton.mp he]
      exact Nat.zero_le _
  · simp [ScalarEntry.new, JsMap.empty, JsMap.size]

/-- **One call.** It keeps the bounds, and what it makes is kept or counted. -/
theorem step_accounts {c : Call} (h : r.step MetricsRegistry.histograms c = some r') :
    (r.Bounded → r'.Bounded) ∧ (c ≠ .reset →
      r'.series + r'.seriesDropped = r.series + r.seriesDropped + r.made c) := by
  -- Declarations make no series, and the calls that touch one are counted by the lemma of their
  -- entry.
  cases c with
  | counter name help labelNames =>
    rw [step] at h
    cases hname : r.counters.get? name with
    | some i =>
      rw [hname] at h
      obtain rfl := Option.some.inj h
      exact ⟨id, fun _ => rfl⟩
    | none =>
      rw [hname] at h
      obtain rfl := Option.some.inj h
      exact ⟨fun hb => ⟨(newScalar name help labelNames).1 hb, hb.hists⟩, fun _ =>
        congrArg (· + _ + _) (newScalar name help labelNames).2⟩
  | gauge name help labelNames =>
    rw [step] at h
    cases hname : r.gauges.get? name with
    | some i =>
      rw [hname] at h
      obtain rfl := Option.some.inj h
      exact ⟨id, fun _ => rfl⟩
    | none =>
      rw [hname] at h
      obtain rfl := Option.some.inj h
      exact ⟨fun hb => ⟨(newScalar name help labelNames).1 hb, hb.hists⟩, fun _ =>
        congrArg (· + _ + _) (newScalar name help labelNames).2⟩
  | histogram name help buckets labelNames =>
    rw [step] at h
    cases hname : r.histograms.get? name with
    | some i =>
      rw [hname] at h
      obtain rfl := Option.some.inj h
      exact ⟨id, fun _ => rfl⟩
    | none =>
      rw [hname] at h
      obtain rfl := Option.some.inj h
      refine ⟨fun hb => ⟨hb.scalars, fun e he => ?_⟩, fun _ => ?_⟩
      · rcases List.mem_append.mp he with he | he
        · exact hb.hists e he
        · rw [List.mem_singleton.mp he]
          exact Nat.zero_le _
      · simp [series, made, MetricsRegistry.histograms, HistogramEntry.new, JsMap.empty, JsMap.size]
  | add handle labels delta =>
    obtain ⟨hb, hcount⟩ := onScalar_accounts (fun e => e.add_accounted labels delta) h
    exact ⟨hb, fun _ => hcount⟩
  | dec handle labels by' =>
    obtain ⟨hb, hcount⟩ := onScalar_accounts (fun e => e.add_accounted labels by'.neg) h
    exact ⟨hb, fun _ => hcount⟩
  | set handle labels value =>
    obtain ⟨hb, hcount⟩ := onScalar_accounts (fun e => e.set_accounted labels value) h
    exact ⟨hb, fun _ => hcount⟩
  | observe handle value labels =>
    obtain ⟨e, he, rfl⟩ := Option.map_eq_some_iff.mp h
    have hdone := e.observe_accounted value labels
    refine ⟨fun hb => ⟨hb.scalars, fun x hx => ?_⟩, fun _ => ?_⟩
    · rcases List.mem_or_eq_of_mem_set hx with hx | rfl
      · exact hb.hists x hx
      · exact hdone.bounded (hb.hists e (List.mem_of_getElem? he))
    · have hsum := sum_set (fun e : HistogramEntry => e.counts.size) (e.observe value labels).2 he
      have hcount := hdone.counted
      rw [made, he]
      simp only [series, MetricsRegistry.histograms, Option.map_some, Option.getD_some]
      omega
  | reset =>
    obtain rfl := Option.some.inj h
    exact ⟨fun hb => ⟨hb.scalars, hb.hists⟩, fun hne => absurd rfl hne⟩

/-- **The accounts of a registry.** In every state reached no family is over its bound, whatever the
labels. Over any calls behind it without a `reset`, every series that they make is held by an entry or
counted as dropped, each once. -/
theorem registry_accounts (before cs : List Call) (hcs : Call.reset ∉ cs)
    (h : exec (step MetricsRegistry.histograms) new before = some r)
    (h' : exec (step MetricsRegistry.histograms) r cs = some r') :
    r'.Bounded ∧ r'.series + r'.seriesDropped = r.series + r.seriesDropped + r.madeIn cs := by
  have hbounded : ∀ {s t : Registry HistogramEntry} (as : List Call),
      exec (step MetricsRegistry.histograms) s as = some t → s.Bounded → t.Bounded := by
    intro s t as hexec hs
    exact (Run.of_exec as hexec).invariant hs fun _ _ _ hb _ hstep => (step_accounts hstep).1 hb
  have hnew : (new : Registry HistogramEntry).Bounded := ⟨by simp [new], by simp [new]⟩
  refine ⟨hbounded cs h' (hbounded before h hnew), ?_⟩
  clear h hbounded hnew
  induction cs generalizing r with
  | nil =>
    obtain rfl := Option.some.inj h'
    rfl
  | cons c cs ih =>
    rw [exec] at h'
    obtain ⟨t, ht, h'⟩ := Option.bind_eq_some_iff.mp h'
    have hstep := (step_accounts ht).2 fun hc => hcs (hc ▸ List.mem_cons_self)
    have hrest := ih (fun hmem => hcs (List.mem_cons_of_mem _ hmem)) h'
    rw [madeIn, ht, Option.map_some, Option.getD_some]
    omega

/-- A counter that is incremented twice. -/
theorem registry_accounts_counter : ∃ r r' : Registry HistogramEntry,
    exec (step MetricsRegistry.histograms) new [.counter [] [] []] = some r ∧
    exec (step MetricsRegistry.histograms) r [.add 0 none (.finite 1), .add 0 none (.finite 1)] = some r' ∧
    r'.series + r'.seriesDropped = r.series + r.seriesDropped +
      r.madeIn [.add 0 none (.finite 1), .add 0 none (.finite 1)] := by
  have hruns : (exec (step MetricsRegistry.histograms) new ([.counter [] [] []] ++
      [.add 0 none (.finite 1), .add 0 none (.finite 1)])).isSome = true := rfl
  obtain ⟨r', hr'⟩ := Option.isSome_iff_exists.mp hruns
  rw [exec_append] at hr'
  obtain ⟨r, hr, hr'⟩ := Option.bind_eq_some_iff.mp hr'
  exact ⟨r, r', hr, hr', (registry_accounts _ _ (by simp) hr hr').2⟩

end Registry

end MetricsRegistry

end Castrum
