import Castrum.Shared.Metrics

/-!
# Castrum — what the histograms of a registry show

A histogram that keeps all observations of a series, in order, from the one that made the series on. The
histogram of the registry is a summary of it: how many observations are not greater than each bound, and
their sum from the first to the last.

* `ObservedEntry` — a histogram that forgets nothing but evicted series;
* `observe_summary` — one observation, before or after the summary;
* `Registry.step_map` — calls do not care how histograms are kept;
* `histogram_refines` — over every run, the registry is the summary of one that keeps the observations;
* `histogram_shows` — what that says of a histogram, slot by slot.
-/

namespace Castrum

namespace MetricsRegistry

/-! ## Keeping the observations

A histogram that forgets nothing. The one of the source is a summary of it. -/

structure ObservedEntry where
  name : Str
  help : Str
  labelNames : List Str
  buckets : List Num
  series : JsMap Str (List Num)

def ObservedEntry.new (name help : Str) (buckets : List Num) (labelNames : List Str) : ObservedEntry :=
  ⟨name, help, labelNames, buckets.mergeSort (·.le ·), .empty⟩

def ObservedEntry.observe (e : ObservedEntry) (value : Num) (labels : Labels) : Nat × ObservedEntry :=
  let p := e.series.put maxSeriesPerMetric (keyOf e.labelNames labels) [value] (· ++ [value])
  (p.1, { e with series := p.2 })

def observations : Histograms ObservedEntry := ⟨ObservedEntry.new, ObservedEntry.observe⟩

/-- How many observations are not greater than each bound, `+Inf` last. -/
def tallies (buckets obs : List Num) : List Nat :=
  (List.range (buckets.length + 1)).map fun i => obs.countP (·.le (bound buckets i))

/-- The sum of the observations, from the first on. -/
def total (obs : List Num) : Num := obs.foldl Num.add (.finite 0)

def ObservedEntry.summary (e : ObservedEntry) : HistogramEntry where
  name := e.name
  help := e.help
  labelNames := e.labelNames
  buckets := e.buckets
  counts := e.series.map (tallies e.buckets)
  sums := e.series.map total

theorem tallies_nil (buckets : List Num) : tallies buckets [] = List.replicate (buckets.length + 1) 0 := by
  simp [tallies, List.map_const']

/-- One more observation. -/
theorem tallies_concat (buckets obs : List Num) (value : Num) :
    tallies buckets (obs ++ [value]) = bump buckets value (tallies buckets obs) := by
  refine List.ext_getElem ?_ fun i hi hi' => ?_
  · simp [tallies, bump]
  · simp only [tallies, bump, List.getElem_map, List.getElem_range, List.getElem_zipIdx, Nat.zero_add,
      List.countP_append, List.countP_singleton]
    split <;> rfl

theorem total_concat (obs : List Num) (value : Num) : total (obs ++ [value]) = (total obs).add value :=
  List.foldl_concat ..

/-- **One observation**, before or after the summary. -/
theorem observe_summary (e : ObservedEntry) (value : Num) (labels : Labels) :
    e.summary.observe value labels = ((e.observe value labels).1, (e.observe value labels).2.summary) := by
  unfold HistogramEntry.observe ObservedEntry.observe JsMap.put
  dsimp only [ObservedEntry.summary]
  rw [JsMap.get?_map, JsMap.get?_map]
  cases hkey : e.series.get? (keyOf e.labelNames labels) with
  | none =>
    -- the sums of the series that are dropped go with their counts
    have hsums : (e.series.map total).deleteAll (e.series.evictOldestHalf maxSeriesPerMetric).1 =
        (e.series.evictOldestHalf maxSeriesPerMetric).2.map total := by
      rw [JsMap.evictOldestHalf_snd, JsMap.map_deleteAll]
    have hfresh : ((e.series.evictOldestHalf maxSeriesPerMetric).2.map total).get?
        (keyOf e.labelNames labels) = none := by
      rw [JsMap.get?_map, JsMap.get?_eq_none_iff.mpr
        (JsMap.not_mem_keys_evict (JsMap.get?_eq_none_iff.mp hkey))]
      rfl
    simp only [Option.map_none]
    rw [JsMap.map_evict]
    dsimp only
    rw [hsums, hfresh, JsMap.set_set, JsMap.insert, JsMap.map_set, JsMap.map_set, ← tallies_nil,
      ← tallies_concat]
    rfl
  | some obs =>
    simp only [Option.map_some, Option.getD_some]
    rw [JsMap.map_set, JsMap.map_set, tallies_concat, total_concat]

/-! ## The registry

The registry treats its histograms as given, so a relation of two ways to keep them is one of the
registries. -/

/-- The same registry with histograms kept in another way. -/
def Registry.map {H H' : Type} (f : H → H') (r : Registry H) : Registry H' :=
  ⟨r.scalars, r.hists.map f, r.counters, r.gauges, r.histograms, r.seriesDropped⟩

section

variable {H H' : Type} {hist : Histograms H} {hist' : Histograms H'} {f : H → H'}

/-- Calls do not care how histograms are kept. -/
theorem Registry.step_map
    (hnew : ∀ name help buckets labelNames,
      f (hist.new name help buckets labelNames) = hist'.new name help buckets labelNames)
    (hobserve : ∀ e value labels,
      hist'.observe (f e) value labels = ((hist.observe e value labels).1, f (hist.observe e value labels).2))
    (r : Registry H) (c : Call) : (r.map f).step hist' c = (r.step hist c).map (Registry.map f) := by
  cases c with
  | counter name help labelNames =>
    rw [step, step, show (r.map f).counters = r.counters from rfl]
    cases r.counters.get? name <;> rfl
  | gauge name help labelNames =>
    rw [step, step, show (r.map f).gauges = r.gauges from rfl]
    cases r.gauges.get? name <;> rfl
  | histogram name help buckets labelNames =>
    rw [step, step, show (r.map f).histograms = r.histograms from rfl]
    cases r.histograms.get? name with
    | some i => rfl
    | none => simp [Registry.map, hnew]
  | add handle labels delta | dec handle labels delta | set handle labels delta =>
    rw [step, step, onScalar, onScalar, Option.map_map]
    rfl
  | observe handle value labels =>
    rw [step, step, show (r.map f).hists = r.hists.map f from rfl, List.getElem?_map, Option.map_map,
      Option.map_map]
    congr 1
    funext e
    simp [Registry.map, hobserve, List.map_set]
  | reset => rfl

theorem Registry.exec_map
    (hnew : ∀ name help buckets labelNames,
      f (hist.new name help buckets labelNames) = hist'.new name help buckets labelNames)
    (hobserve : ∀ e value labels,
      hist'.observe (f e) value labels = ((hist.observe e value labels).1, f (hist.observe e value labels).2))
    (r : Registry H) (cs : List Call) :
    exec (step hist') (r.map f) cs = (exec (step hist) r cs).map (Registry.map f) := by
  induction cs generalizing r with
  | nil => rfl
  | cons c cs ih =>
    rw [exec, exec, Registry.step_map hnew hobserve]
    cases r.step hist c with
    | none => rfl
    | some t => exact ih t

end

/-! ## What a histogram shows -/

/-- The registry is the summary of one that keeps all observations. -/
theorem histogram_refines (cs : List Call) :
    exec (Registry.step histograms) Registry.new cs =
      (exec (Registry.step observations) Registry.new cs).map (Registry.map ObservedEntry.summary) :=
  Registry.exec_map (fun _ _ _ _ => rfl) observe_summary Registry.new cs

/-- The bounds of a histogram are sorted, where none of them is a NaN. -/
theorem sorted_buckets {buckets : List Num} (h : ∀ b ∈ buckets, b ≠ .nan) :
    (buckets.mergeSort (·.le ·)).Pairwise fun a b => a.le b = true := by
  -- the comparison with a NaN above all is total, and the same on these bounds
  let above : Num → Num → Bool := fun a b => if b = .nan then true else a.le b
  have hsame : buckets.mergeSort (·.le ·) = buckets.mergeSort above := by
    have hmap := List.map_mergeSort (r := fun a b : Num => a.le b) (s := above) (f := id) (l := buckets)
      fun a _ b hb => (if_neg (h b hb)).symm
    simpa using hmap
  have htrans : ∀ a b c : Num, above a b = true → above b c = true → above a c = true := by
    intro a b c hab hbc
    by_cases hc : c = .nan
    · exact if_pos hc
    · have hb : b ≠ .nan := by
        rintro rfl
        simp only [above, if_neg hc] at hbc
        cases hbc
      simp only [above, if_neg hc, if_neg hb] at hab hbc ⊢
      exact Double.le_of_le_of_le hab hbc
  have htotal : ∀ a b : Num, (above a b || above b a) = true := by
    intro a b
    rw [Bool.or_eq_true]
    by_cases ha : a = .nan
    · exact .inr (if_pos ha)
    by_cases hb : b = .nan
    · exact .inl (if_pos hb)
    simp only [above, if_neg ha, if_neg hb]
    by_cases hlt : a.lt b = true
    · exact .inl (Double.le_of_lt hlt)
    · exact .inr (Double.le_of_not_lt ha hb hlt)
  rw [hsame]
  refine (List.pairwise_mergeSort htrans htotal buckets).imp_of_mem fun {a b} _ hb hle => ?_
  rw [List.mem_mergeSort] at hb
  simpa only [above, if_neg (h b hb)] using hle

/-- The bounds of every histogram were sorted. -/
theorem buckets_sorted {cs : List Call} {o : Registry ObservedEntry}
    (h : exec (Registry.step observations) Registry.new cs = some o) :
    ∀ e ∈ o.hists, ∃ buckets : List Num, e.buckets = buckets.mergeSort (·.le ·) := by
  refine (Run.of_exec cs h).invariant (P := fun o => ∀ e ∈ o.hists, ∃ buckets : List Num,
    e.buckets = buckets.mergeSort (·.le ·)) (by simp [Registry.new]) ?_
  intro r c r' hr _ hstep
  -- Only the declaration of a histogram brings bounds, and it sorts them.
  cases c with
  | counter name help labelNames =>
    rw [Registry.step] at hstep
    split at hstep <;> · obtain rfl := Option.some.inj hstep; exact hr
  | gauge name help labelNames =>
    rw [Registry.step] at hstep
    split at hstep <;> · obtain rfl := Option.some.inj hstep; exact hr
  | histogram name help buckets labelNames =>
    rw [Registry.step] at hstep
    split at hstep
    · obtain rfl := Option.some.inj hstep
      exact hr
    · obtain rfl := Option.some.inj hstep
      intro e he
      rcases List.mem_append.mp he with he | he
      · exact hr e he
      · rw [List.mem_singleton.mp he]
        exact ⟨_, rfl⟩
  | add handle labels delta | dec handle labels delta | set handle labels delta =>
    obtain ⟨e, -, rfl⟩ := Option.map_eq_some_iff.mp hstep
    exact hr
  | observe handle value labels =>
    obtain ⟨e, he, rfl⟩ := Option.map_eq_some_iff.mp hstep
    intro x hx
    rcases List.mem_or_eq_of_mem_set hx with hx | rfl
    · exact hr x hx
    · exact hr e (List.mem_of_getElem? he)
  | reset =>
    obtain rfl := Option.some.inj hstep
    exact hr

/-- **What the histograms of a registry show.** In every state reached there is, for each histogram, one
that kept all observations of every series since it was made: both have the same series, a slot counts the
observations that are not greater than its bound, and the sum adds them up in order. No slot counts more
than a later one, where no bound is a NaN. -/
theorem histogram_shows {cs : List Call} {r : Registry HistogramEntry}
    (h : exec (Registry.step histograms) Registry.new cs = some r) :
    ∃ o, exec (Registry.step observations) Registry.new cs = some o ∧
      ∀ (handle : Nat) (e : HistogramEntry), r.hists[handle]? = some e →
        ∃ kept : ObservedEntry, o.hists[handle]? = some kept ∧
          e.counts.keys = kept.series.keys ∧ e.sums.keys = kept.series.keys ∧
          (∀ key, e.counts.get? key = (kept.series.get? key).map (tallies e.buckets) ∧
            e.sums.get? key = (kept.series.get? key).map total) ∧
          ((∀ b ∈ e.buckets, b ≠ .nan) → ∀ key counts, e.counts.get? key = some counts →
            counts.Pairwise (· ≤ ·)) := by
  rw [histogram_refines] at h
  obtain ⟨o, ho, rfl⟩ := Option.map_eq_some_iff.mp h
  refine ⟨o, ho, fun handle e he => ?_⟩
  obtain ⟨kept, hkept, rfl⟩ := Option.map_eq_some_iff.mp ((List.getElem?_map ..).symm.trans he)
  refine ⟨kept, hkept, JsMap.keys_map _, JsMap.keys_map _, fun key => ⟨JsMap.get?_map _, JsMap.get?_map _⟩, ?_⟩
  intro hnan key counts hcounts
  obtain ⟨obs, -, rfl⟩ := Option.map_eq_some_iff.mp ((JsMap.get?_map _).symm.trans hcounts)
  obtain ⟨buckets, hbuckets⟩ := buckets_sorted ho kept (List.mem_of_getElem? hkept)
  have hsorted : kept.buckets.Pairwise fun a b => a.le b = true := by
    rw [hbuckets]
    refine sorted_buckets fun b hb => hnan b ?_
    change b ∈ kept.buckets
    rw [hbuckets, List.mem_mergeSort]
    exact hb
  refine List.pairwise_iff_getElem.mpr fun i j hi hj hij => ?_
  rw [tallies, List.length_map, List.length_range] at hi hj
  -- A later slot has a larger bound, the last one being infinite.
  have hle : (bound kept.buckets i).le (bound kept.buckets j) = true := by
    unfold bound
    rw [List.getD_eq_getElem?_getD, List.getD_eq_getElem?_getD,
      List.getElem?_eq_getElem (show i < kept.buckets.length by omega), Option.getD_some]
    by_cases hlast : j < kept.buckets.length
    · rw [List.getElem?_eq_getElem hlast, Option.getD_some]
      exact List.pairwise_iff_getElem.mp hsorted i j _ hlast hij
    · rw [List.getElem?_eq_none (Nat.not_lt.mp hlast), Option.getD_none]
      have hi : i < kept.buckets.length := by omega
      have hfinite : kept.buckets[i] ≠ .nan := hnan _ (List.getElem_mem _)
      generalize kept.buckets[i] = b at hfinite
      cases b <;> first | rfl | exact absurd rfl hfinite
  simp only [tallies, List.getElem_map, List.getElem_range]
  exact List.countP_mono_left fun v _ hv => Double.le_of_le_of_le hv hle

/-- One observation of a histogram with one bound. -/
theorem histogram_shows_one : ∃ r o,
    exec (Registry.step histograms) Registry.new
      [.histogram [] [] (some [.finite 1]) [], .observe 0 (.finite 1) none] = some r ∧
    exec (Registry.step observations) Registry.new
      [.histogram [] [] (some [.finite 1]) [], .observe 0 (.finite 1) none] = some o ∧
    ∀ (handle : Nat) (e : HistogramEntry), r.hists[handle]? = some e →
      ∃ kept : ObservedEntry, o.hists[handle]? = some kept ∧ e.sums.keys = kept.series.keys := by
  have hruns : (exec (Registry.step histograms) Registry.new
      [.histogram [] [] (some [.finite 1]) [], .observe 0 (.finite 1) none]).isSome = true := rfl
  obtain ⟨r, hr⟩ := Option.isSome_iff_exists.mp hruns
  obtain ⟨o, ho, hshows⟩ := histogram_shows hr
  refine ⟨r, o, hr, ho, fun handle e he => ?_⟩
  obtain ⟨kept, hkept, -, hsums, -⟩ := hshows handle e he
  exact ⟨kept, hkept, hsums⟩

end MetricsRegistry

end Castrum
