import Castrum.Metrics.Failed
import Castrum.Metrics.Runs

/-!
# Castrum — what a histogram shows (`rust/metrics/registry.rs`)

A histogram counts an observation in the first bucket whose bound is not less, and in none if there is no
such bucket. The running totals are taken when it is rendered.

* `Tallied.step` — one call keeps each count at what the accepted observations come to;
* `bucketLines_eq` — the running total at a bound counts the observations up to it;
* `histogramBuckets_congr` — the order of the bounds, and a bound given twice, make no difference;
* `histogram_exposition` — what a histogram shows at the end of every run.
-/

namespace Castrum.Metrics

section

variable {F : Type} [LinearOrder F] [Zero F]

/-! ## Accepted observations -/

/-- An `add` that returned `Ok`. -/
structure Observation (F : Type) where
  series : UInt32
  values : Bytes
  amount : Double F

/-- The accepted observations after one more call. -/
def record (log : List (Observation F)) (c : Call F) (res : Except MetricsError Unit) :
    List (Observation F) :=
  match c, res with
  | .update (.add series values amount), .ok () => log ++ [⟨series, values, amount⟩]
  | _, _ => log

/-- One call, and the observation it is. -/
def observeStep (f64 : Floats F) (s : Registry F × List (Observation F)) (c : Call F) :
    Option (Registry F × List (Observation F)) :=
  (s.1.call f64 c).map fun done => (done.2, record s.2 c done.1)

/-- The accepted observations of one series. -/
def observed (log : List (Observation F)) (series : UInt32) (values : Bytes) : List (Double F) :=
  (log.filter fun o => o.series = series ∧ o.values = values).map (·.amount)

/-- How many observations are not greater than a bound. -/
def atMost (obs : List (Double F)) (bound : Double F) : Nat := obs.countP (·.le bound)

/-- How many observations fall into each bucket. -/
def tally (buckets obs : List (Double F)) : List Nat :=
  (List.range buckets.length).map fun i => obs.countP fun v => bucketIndex buckets v = i

variable {f64 : Floats F} {r r' : Registry F} {log : List (Observation F)} {fam : Family F}
  {buckets obs : List (Double F)}

theorem length_tally (buckets obs : List (Double F)) : (tally buckets obs).length = buckets.length := by
  rw [tally, List.length_map, List.length_range]

theorem tally_nil (buckets : List (Double F)) :
    tally buckets [] = List.replicate buckets.length 0 := by
  simp [tally, List.map_const']

theorem getElem?_tally (buckets obs : List (Double F)) (i : Nat) :
    (tally buckets obs)[i]? = if i < buckets.length then
      some (obs.countP fun v => bucketIndex buckets v = i) else none := by
  rw [tally, List.getElem?_map]
  split
  · next hi => rw [List.getElem?_range hi, Option.map_some]
  · next hi =>
    rw [List.getElem?_eq_none (by rw [List.length_range]; exact Nat.not_lt.mp hi), Option.map_none]

/-- **One more observation** is one more in its bucket. -/
theorem bump_tally {v : Double F} {counts : List Nat}
    (h : bump (tally buckets obs) (bucketIndex buckets v) = some counts) :
    counts = tally buckets (obs ++ [v]) := by
  have hcount : ∀ i, (obs ++ [v]).countP (fun v => bucketIndex buckets v = i) =
      obs.countP (fun v => bucketIndex buckets v = i) + if bucketIndex buckets v = i then 1 else 0 := by
    intro i
    rw [List.countP_append, List.countP_singleton]
    simp only [decide_eq_true_eq]
  apply List.ext_getElem?
  intro i
  rw [getElem?_tally, hcount]
  unfold bump at h
  rw [getElem?_tally] at h
  -- a value above every bound counts in no bucket
  by_cases hidx : bucketIndex buckets v < buckets.length
  · rw [if_pos hidx] at h
    obtain ⟨c, hc, rfl⟩ := Option.map_eq_some_iff.mp h
    rw [u64_eq_some hc]
    by_cases hi : bucketIndex buckets v = i
    · subst hi
      rw [List.getElem?_set_self (by rw [length_tally]; exact hidx), if_pos hidx, if_pos rfl]
    · rw [List.getElem?_set_ne hi, getElem?_tally, if_neg hi, Nat.add_zero]
  · rw [if_neg hidx] at h
    cases h
    rw [getElem?_tally]
    split
    · next hi =>
      rw [if_neg (by omega), Nat.add_zero]
    · rfl

/-! ## One call -/

/-- The counts of every histogram are those of its accepted observations. -/
structure Tallied (s : Registry F × List (Observation F)) : Prop where
  wellFormed : WellFormed s.1
  finite : ∀ o ∈ s.2, o.amount.isFinite = true
  absent : ∀ id vals, s.1.shards.get (buildKey id vals) = none → observed s.2 id vals = []
  counted : ∀ id vals fam counts sum count, s.1.families[id.toNat]? = some fam →
    s.1.shards.get (buildKey id vals) = some (.hist counts sum count) →
    counts = tally fam.buckets (observed s.2 id vals) ∧ count = (observed s.2 id vals).length

omit [LinearOrder F] [Zero F] in
theorem observed_append (log : List (Observation F)) (o : Observation F) (id : UInt32) (vals : Bytes) :
    observed (log ++ [o]) id vals =
      observed log id vals ++ if o.series = id ∧ o.values = vals then [o.amount] else [] := by
  rw [observed, observed, List.filter_append, List.map_append]
  congr 1
  by_cases h : o.series = id ∧ o.values = vals
  · rw [if_pos h, List.filter_cons, if_pos (decide_eq_true h)]
    rfl
  · rw [if_neg h, List.filter_cons, if_neg (by rw [decide_eq_true_iff]; exact h)]
    rfl

/-- What `addValue` makes of a histogram that counts what it has seen. -/
theorem addValue_counted {value : Value F} {v sum' : Double F} {counts' : List Nat} {count' : Nat}
    (hvalue : ∀ counts sum count, value = .hist counts sum count →
      counts = tally buckets obs ∧ count = obs.length)
    (h : addValue f64 buckets value v = some (.ok (.hist counts' sum' count'))) :
    counts' = tally buckets (obs ++ [v]) ∧ count' = (obs ++ [v]).length := by
  cases value with
  | scalar s => cases h
  | hist counts sum count =>
    obtain ⟨rfl, rfl⟩ := hvalue counts sum count rfl
    rw [addValue] at h
    split at h
    · cases h
    · obtain ⟨counts'', hcounts, h⟩ := Option.bind_eq_some_iff.mp h
      obtain ⟨count'', hcount, h⟩ := Option.bind_eq_some_iff.mp h
      rw [u64_eq_some hcount] at h
      cases h
      exact ⟨bump_tally hcounts, by rw [List.length_append, List.length_singleton]⟩

/-- The series that a call creates or finds counts what it has seen. -/
theorem Tallied.getD_counted {s : Registry F × List (Observation F)} (hs : Tallied s) {id : UInt32}
    {vals : Bytes} (hget : s.1.families[id.toNat]? = some fam) {counts : List Nat} {sum : Double F}
    {count : Nat}
    (h : (s.1.shards.get (buildKey id vals)).getD (.newFor fam.kind fam.buckets) =
      .hist counts sum count) :
    counts = tally fam.buckets (observed s.2 id vals) ∧ count = (observed s.2 id vals).length := by
  cases hkey : s.1.shards.get (buildKey id vals) with
  | some value =>
    rw [hkey, Option.getD_some] at h
    exact hs.counted id vals fam counts sum count hget (h ▸ hkey)
  | none =>
    rw [hkey, Option.getD_none] at h
    rw [hs.absent id vals hkey, tally_nil]
    have hkind := newFor_eq_hist h
    rw [hkind] at h
    cases h
    exact ⟨rfl, rfl⟩

theorem Tallied.declare {s : Registry F × List (Observation F)} (hs : Tallied s) (f64 : Floats F)
    (kind : MetricsKind) (name : Bytes) (labelKeys : List Bytes) (buckets : List (Double F)) :
    Tallied ((s.1.declare f64 kind name labelKeys buckets).2, s.2) := by
  have hwell := hs.wellFormed.declare f64 kind name labelKeys buckets
  rcases declare_cases f64 s.1 kind name labelKeys buckets with hsame | ⟨sorted, -, -, -, hadded⟩
  · rw [hsame]
    exact hs
  · rw [hadded] at hwell ⊢
    refine ⟨hwell, hs.finite, hs.absent, fun id vals fam counts sum count hget hkey => ?_⟩
    -- the family of a series has been declared before
    obtain ⟨id', vals', fam', heq, hget', -, -⟩ := hs.wellFormed.series _ _ hkey
    obtain ⟨rfl, rfl⟩ := buildKey_injective heq
    change (s.1.families ++ _)[id.toNat]? = some fam at hget
    rw [List.getElem?_append_left (List.getElem?_eq_some_iff.mp hget').1] at hget
    exact hs.counted id vals fam counts sum count hget hkey

/-- A value is stored that counts what its series has seen. -/
theorem Tallied.put {s : Registry F × List (Observation F)} (hs : Tallied s) {id : UInt32}
    {vals : Bytes} {value : Value F} (log : List (Observation F))
    (hwell : WellFormed (s.1.put (buildKey id vals) value))
    (hfinite : ∀ o ∈ log, o.amount.isFinite = true)
    (hlog : ∀ id' vals', buildKey id' vals' ≠ buildKey id vals →
      observed log id' vals' = observed s.2 id' vals')
    (hvalue : ∀ fam counts sum count, s.1.families[id.toNat]? = some fam →
      value = .hist counts sum count →
      counts = tally fam.buckets (observed log id vals) ∧ count = (observed log id vals).length) :
    Tallied (s.1.put (buildKey id vals) value, log) := by
  -- a key that is not the one put keeps its value and its observations
  refine ⟨hwell, hfinite, fun id' vals' hkey => ?_, fun id' vals' fam counts sum count hget hkey => ?_⟩
  · change (s.1.shards.put (buildKey id vals) value).get (buildKey id' vals') = none at hkey
    rw [get_put] at hkey
    split at hkey
    · cases hkey
    · next hne =>
      rw [hlog id' vals' hne]
      exact hs.absent id' vals' hkey
  · change (s.1.shards.put (buildKey id vals) value).get (buildKey id' vals') = _ at hkey
    rw [get_put] at hkey
    split at hkey
    · next heq =>
      obtain ⟨rfl, rfl⟩ := buildKey_injective heq
      exact hvalue fam counts sum count hget (Option.some.inj hkey)
    · next hne =>
      rw [hlog id' vals' hne]
      exact hs.counted id' vals' fam counts sum count hget hkey

theorem Tallied.add {s : Registry F × List (Observation F)} (hs : Tallied s) {series : UInt32}
    {values : Bytes} {amount : Double F} {res : Except MetricsError Unit}
    (h : s.1.add f64 series values amount = some (res, r')) :
    Tallied (r', record s.2 (.update (.add series values amount)) res) := by
  have hwell := hs.wellFormed.update (u := .add series values amount) h
  rcases add_cases h with ⟨_, -, rfl, rfl⟩ | ⟨fam, hfam, ⟨value, hvalue, rfl, rfl⟩ | ⟨_, -, rfl, rfl⟩⟩
  · exact hs
  · obtain ⟨hfinite, hget, hvalid⟩ := addFamily_eq_ok_iff.mp hfam
    apply hs.put _ hwell
    · intro o ho
      rcases List.mem_append.mp ho with ho | ho
      · exact hs.finite o ho
      · rw [List.mem_singleton.mp ho]
        exact hfinite
    · intro id' vals' hne
      rw [record, observed_append, if_neg, List.append_nil]
      rintro ⟨rfl, rfl⟩
      exact hne rfl
    · intro fam' counts sum count hget' hhist
      cases hget.symm.trans hget'
      rw [record, observed_append, if_pos ⟨rfl, rfl⟩]
      apply addValue_counted (fun counts sum count hold => hs.getD_counted hget hold)
      rw [hvalue, hhist]
  · obtain ⟨hfinite, hget, hvalid⟩ := addFamily_eq_ok_iff.mp hfam
    -- the value was rejected: at most an empty entry has been made
    unfold Registry.entry at hwell ⊢
    cases hkey : s.1.shards.get (buildKey series values) with
    | some value => exact hs
    | none =>
      rw [hkey] at hwell
      apply hs.put s.2 hwell hs.finite fun _ _ _ => rfl
      intro fam' counts sum count hget' hhist
      cases hget.symm.trans hget'
      apply hs.getD_counted hget
      rw [hkey, Option.getD_none, hhist]

theorem Tallied.set {s : Registry F × List (Observation F)} (hs : Tallied s) (f64 : Floats F)
    {series : UInt32} {values : Bytes} {v : Double F} {res : Except MetricsError Unit}
    (h : s.1.set series values v = (res, r')) : Tallied (r', s.2) := by
  have hwell := hs.wellFormed.update
    (show s.1.update f64 (.set series values v) = some (res, r') from congrArg some h)
  rcases set_cases h with ⟨_, -, -, rfl⟩ | ⟨fam, hfam, -, rfl | ⟨-, rfl⟩⟩
  · exact hs
  · exact hs.put s.2 hwell hs.finite (fun _ _ _ => rfl) fun _ _ _ _ _ hhist => nomatch hhist
  · exact hs

/-- **One call** keeps each count at what the accepted observations come to. -/
theorem Tallied.step {s s' : Registry F × List (Observation F)} (hs : Tallied s) {c : Call F}
    (h : observeStep f64 s c = some s') : Tallied s' := by
  obtain ⟨⟨res, r'⟩, hcall, rfl⟩ := Option.map_eq_some_iff.mp h
  cases c with
  | declare kind name labelKeys buckets =>
    cases hcall
    exact hs.declare f64 kind name labelKeys buckets
  | update u =>
    cases u with
    | add series values amount => exact hs.add hcall
    | set series values v =>
      have hset := hs.set f64 (Option.some.inj hcall)
      cases res <;> exact hset

theorem tallied_new : Tallied ((Registry.new, []) : Registry F × List (Observation F)) where
  wellFormed := wellFormed_new
  finite _ h := nomatch h
  absent _ _ _ := rfl
  counted id vals fam counts sum count _ h := by
    have hnone : (Registry.new : Registry F).shards.get (buildKey id vals) = none :=
      AList.lookup_empty _
    rw [hnone] at h
    cases h

/-- **Every run** keeps them. -/
theorem tallied_of_exec {calls : List (Call F)}
    (h : exec (observeStep f64) (Registry.new, []) calls = some (r, log)) : Tallied (r, log) :=
  (Run.of_exec calls h).invariant tallied_new fun _ _ _ hs _ hstep => hs.step hstep

/-! ## The running totals -/

/-- The observations in the buckets up to a bound are those that are not greater than it. -/
theorem bucketIndex_le_iff (hbounds : Bounds buckets) {i : Nat} (hi : i < buckets.length)
    {v : Double F} (hv : v.isFinite = true) : bucketIndex buckets v ≤ i ↔ v.le buckets[i] = true := by
  obtain ⟨bounds, rfl, hsorted, -⟩ := hbounds
  have hfront : (bounds.map Double.finite).Pairwise fun a b => b.lt v = true → a.lt v = true := by
    rw [List.pairwise_map]
    apply hsorted.imp
    intro x y hxy hy
    rw [Double.lt_iff rfl hv] at hy ⊢
    exact hxy.trans hy
  have hfinite : (bounds.map Double.finite)[i].isFinite = true := by
    rw [List.getElem_map]
    rfl
  rw [bucketIndex, length_takeWhile_le_iff hfront hi, Double.le_iff hv hfinite, ← not_lt,
    ← Double.lt_iff hfinite hv, Bool.not_eq_true]

/-- The observations in the buckets before one, and those in it. -/
theorem countP_bucketIndex (buckets obs : List (Double F)) (i : Nat) :
    (obs.countP fun v => bucketIndex buckets v < i) + (obs.countP fun v => bucketIndex buckets v = i) =
      obs.countP fun v => bucketIndex buckets v < i + 1 := by
  induction obs with
  | nil => rfl
  | cons v obs ih =>
    simp only [List.countP_cons, decide_eq_true_eq]
    have hlt : bucketIndex buckets v < i + 1 ↔ bucketIndex buckets v < i ∨ bucketIndex buckets v = i :=
      Nat.lt_succ_iff_lt_or_eq
    split <;> split <;> split <;> omega

/-- The line of one bucket. -/
def bucketLine (f64 : Floats F) (fam : Family F) (labels : Bytes) (le : Double F) (total : Nat) :
    Bytes :=
  lineText (fam.name ++ bucketSuffix) (writeLabels fam.labelKeys labels (some (leKey, writeF64 f64 le)))
    (writeU64 total)

/-- **The running total** at a bound is how many observations are not greater than it. -/
theorem bucketLines_eq (f64 : Floats F) (labels : Bytes) (hbounds : Bounds fam.buckets)
    (hobs : ∀ v ∈ obs, v.isFinite = true) {front behind : List (Double F)}
    (hsplit : fam.buckets = front ++ behind) :
    bucketLines f64 fam labels (tally fam.buckets obs) front.length
        (obs.countP fun v => bucketIndex fam.buckets v < front.length) behind =
      behind.flatMap fun le => bucketLine f64 fam labels le (atMost obs le) := by
  induction behind generalizing front with
  | nil => rfl
  | cons le behind ih =>
    have hi : front.length < fam.buckets.length := by
      rw [hsplit, List.length_append, List.length_cons]
      omega
    have hle : fam.buckets[front.length] = le := by
      simp only [hsplit, List.getElem_append_right (Nat.le_refl _), Nat.sub_self,
        List.getElem_cons_zero]
    have htally : (tally fam.buckets obs).getD front.length 0 =
        obs.countP fun v => bucketIndex fam.buckets v = front.length := by
      rw [List.getD_eq_getElem?_getD, getElem?_tally, if_pos hi, Option.getD_some]
    -- the running total at a bound counts what is at most this bound
    have htotal : (obs.countP fun v => bucketIndex fam.buckets v < front.length + 1) =
        atMost obs le := by
      apply List.countP_congr
      intro v hv
      rw [decide_eq_true_iff, Nat.lt_succ_iff, bucketIndex_le_iff hbounds hi (hobs v hv), hle]
    rw [bucketLines, htally, countP_bucketIndex, htotal, List.flatMap_cons]
    have hfront : fam.buckets = (front ++ [le]) ++ behind := by
      rw [hsplit, List.append_assoc]
      rfl
    have hnext := ih hfront
    rw [List.length_append, List.length_singleton, htotal] at hnext
    rw [hnext]
    rfl

/-- The lines of a histogram with these totals, this sum and this count. -/
def histogramText (f64 : Floats F) (fam : Family F) (labels : Bytes) (total : Double F → Nat)
    (sum : Double F) (count : Nat) : Bytes :=
  (fam.buckets.flatMap fun le => bucketLine f64 fam labels le (total le)) ++
    lineText (fam.name ++ bucketSuffix) (writeLabels fam.labelKeys labels (some (leKey, infBound)))
      (writeU64 count) ++
    lineText (fam.name ++ sumSuffix) (writeLabels fam.labelKeys labels none) (writeF64 f64 sum) ++
    lineText (fam.name ++ countSuffix) (writeLabels fam.labelKeys labels none) (writeU64 count)

theorem renderRow_hist (f64 : Floats F) {labels : Bytes} {counts : List Nat} {sum : Double F}
    {count : Nat} (hbounds : Bounds fam.buckets) (hobs : ∀ v ∈ obs, v.isFinite = true)
    (hcounts : counts = tally fam.buckets obs) (hcount : count = obs.length) :
    renderRow f64 fam labels (.hist counts sum count) =
      histogramText f64 fam labels (atMost obs) sum obs.length := by
  have hlines := bucketLines_eq f64 labels hbounds hobs (List.nil_append fam.buckets).symm
  have hzero : (obs.countP fun v => decide (bucketIndex fam.buckets v < ([] : List (Double F)).length)) = 0 :=
    List.countP_eq_zero.mpr fun v _ => by simp
  rw [hzero] at hlines
  rw [hcounts, hcount]
  show bucketLines f64 fam labels _ 0 0 fam.buckets ++ _ ++ _ ++ _ = _
  rw [List.length_nil] at hlines
  rw [hlines]
  rfl

/-! ## The bounds as they are declared -/

theorem positives_isSome_iff : (∃ xs, positives buckets = some xs) ↔
    ∀ b ∈ buckets, ∃ x, b = .finite x ∧ 0 < x := by
  constructor
  · rintro ⟨xs, hxs⟩ b hb
    obtain ⟨rfl, hall⟩ := positives_eq_some hxs
    obtain ⟨x, hx, rfl⟩ := List.mem_map.mp hb
    exact ⟨x, rfl, hall x hx⟩
  · intro hall
    induction buckets with
    | nil => exact ⟨[], rfl⟩
    | cons b buckets ih =>
      obtain ⟨⟨x, rfl, hx⟩, hrest⟩ := List.forall_mem_cons.mp hall
      obtain ⟨xs, hxs⟩ := ih hrest
      exact ⟨x :: xs, by rw [positives, if_pos hx, hxs]; rfl⟩

/-- **The order of the bounds, and a bound given twice, make no difference** in a list that is not too
long. -/
theorem histogramBuckets_congr {buckets' : List (Double F)} (hmem : ∀ b, b ∈ buckets ↔ b ∈ buckets')
    (hlen : buckets.length = buckets'.length ∨
      (buckets.length ≤ metricsMaxBuckets ∧ buckets'.length ≤ metricsMaxBuckets)) :
    histogramBuckets buckets = histogramBuckets buckets' := by
  have hpositives : (∃ xs, positives buckets = some xs) ↔ ∃ xs, positives buckets' = some xs := by
    rw [positives_isSome_iff, positives_isSome_iff]
    exact forall_congr' fun b => imp_congr_left (hmem b)
  have hlong : metricsMaxBuckets < buckets.length ↔ metricsMaxBuckets < buckets'.length := by omega
  unfold histogramBuckets
  by_cases hlt : metricsMaxBuckets < buckets.length
  · rw [if_pos hlt, if_pos (hlong.mp hlt)]
    rcases hlen with hlen | ⟨hle, -⟩
    · rw [hlen]
    · exact absurd hlt (Nat.not_lt.mpr hle)
  rw [if_neg hlt, if_neg (mt hlong.mpr hlt)]
  cases hxs : positives buckets with
  | none =>
    cases hxs' : positives buckets' with
    | none => rfl
    | some xs' =>
      obtain ⟨xs, hsome⟩ := hpositives.mpr ⟨xs', hxs'⟩
      cases hxs.symm.trans hsome
  | some xs =>
    obtain ⟨xs', hxs'⟩ := hpositives.mp ⟨xs, hxs⟩
    obtain ⟨rfl, -⟩ := positives_eq_some hxs
    obtain ⟨rfl, -⟩ := positives_eq_some hxs'
    -- both results are strictly increasing and have the same elements
    have hsame : sortDedup xs = sortDedup xs' := by
      apply (pairwise_sortDedup xs).eq_of_mem_iff (pairwise_sortDedup xs')
      intro x
      have hx := hmem (.finite x)
      have hinj : Function.Injective (Double.finite (F := F)) := fun x y => Double.finite.inj
      rw [List.mem_map_of_injective hinj, List.mem_map_of_injective hinj] at hx
      rw [mem_sortDedup, mem_sortDedup, hx]
    simp only [hxs', hsame]

/-! ## What a histogram shows -/

/-- Label values with an accepted observation have a row. -/
theorem Tallied.row_of_observed (hs : Tallied (r, log)) {id : UInt32} {vals : Bytes}
    (hne : observed log id vals ≠ []) : ∃ value, (⟨id.toNat, vals, value⟩ : Row F) ∈ r.rows := by
  cases hkey : r.shards.get (buildKey id vals) with
  | none => exact absurd (hs.absent id vals hkey) hne
  | some value =>
    exact ⟨value, mem_rows_iff.mpr ⟨_, value, hkey, (ofEntry_buildKey id vals value).symm⟩⟩

/-- The lines of a row count the accepted observations. -/
theorem Tallied.renderRow_eq (hs : Tallied (r, log)) {id : UInt32} (hget : r.families[id.toNat]? = some fam)
    (hkind : fam.kind = .histogram) {row : Row F} (hrow : row ∈ r.rows) (hid : row.family = id.toNat) :
    ∃ sum, renderRow f64 fam row.labels row.value =
      histogramText f64 fam row.labels (atMost (observed log id row.labels)) sum
        (observed log id row.labels).length := by
  obtain ⟨id', fam', hid', hget', hkey, -, hvalue⟩ := hs.wellFormed.row hrow
  cases UInt32.toNat_inj.mp (hid.symm.trans hid')
  cases hget.symm.trans hget'
  have hbounds := (hs.wellFormed.families fam (List.mem_of_getElem? hget)).buckets hkind
  cases hrowvalue : row.value with
  | scalar s =>
    rw [hrowvalue] at hvalue
    exact absurd hkind hvalue
  | hist counts sum count =>
    rw [hrowvalue] at hkey
    obtain ⟨hcounts, hcount⟩ := hs.counted id row.labels fam counts sum count hget hkey
    -- what was accepted is finite, so that it is found among the bounds
    refine ⟨sum, renderRow_hist f64 hbounds (fun v hv => ?_) hcounts hcount⟩
    obtain ⟨o, ho, rfl⟩ := List.mem_map.mp hv
    exact hs.finite o (List.mem_filter.mp ho).1

/-- The bounds increase, and the counts at them do not decrease. -/
theorem Tallied.buckets_mono (hs : Tallied (r, log)) {idx : Nat} (hget : r.families[idx]? = some fam)
    (hkind : fam.kind = .histogram) :
    fam.buckets.Pairwise fun a b => a.lt b = true ∧ ∀ obs, atMost obs a ≤ atMost obs b := by
  obtain ⟨bounds, hbuckets, hsorted, -⟩ :=
    (hs.wellFormed.families fam (List.mem_of_getElem? hget)).buckets hkind
  rw [hbuckets, List.pairwise_map]
  refine hsorted.imp fun {x y} hxy => ⟨(Double.lt_iff rfl rfl).mpr hxy, fun obs => ?_⟩
  exact List.countP_mono_left fun v _ hv => Double.le_finite_of_le hv hxy.le

/-- The default bounds stand in for an empty list, which has the same elements as no other. -/
theorem sortedBuckets_congr {buckets' : List (Double F)} (hmem : ∀ b, b ∈ buckets ↔ b ∈ buckets')
    (hlen : buckets.length = buckets'.length ∨
      (buckets.length ≤ metricsMaxBuckets ∧ buckets'.length ≤ metricsMaxBuckets)) :
    sortedBuckets f64 .histogram buckets = sortedBuckets f64 .histogram buckets' := by
  rw [sortedBuckets, sortedBuckets, if_pos rfl, if_pos rfl]
  cases buckets with
  | nil => rw [List.eq_nil_iff_forall_not_mem.mpr fun b hb => List.not_mem_nil ((hmem b).mpr hb)]
  | cons b buckets =>
    cases buckets' with
    | nil => exact absurd ((hmem b).mp List.mem_cons_self) List.not_mem_nil
    | cons b' buckets' => exact histogramBuckets_congr hmem hlen

/-- **What a histogram shows at the end of a run.** The text is that of the families, each with the lines
of its rows. A histogram has a row for all label values with an accepted observation. The row shows at
each bound how many accepted observations are not greater than it, which does not decrease from one bound
to the next, and at `+Inf` and as `_count` how many there are. The order in which the bounds are declared
makes no difference, nor does a bound that is given twice in a list that is not too long. -/
theorem histogram_exposition {calls : List (Call F)}
    (h : exec (observeStep f64) (Registry.new, []) calls = some (r, log)) :
    (∀ out, r.renderInto f64 out = out ++ r.families.zipIdx.flatMap fun e =>
      typeLine e.1 ++ (r.rows.filter (·.family = e.2)).flatMap fun row =>
        renderRow f64 e.1 row.labels row.value) ∧
    (∀ (id : UInt32) (fam : Family F), r.families[id.toNat]? = some fam → fam.kind = .histogram →
      (∀ vals, observed log id vals ≠ [] → ∃ value, (⟨id.toNat, vals, value⟩ : Row F) ∈ r.rows) ∧
      (∀ row ∈ r.rows, row.family = id.toNat → ∃ sum,
        renderRow f64 fam row.labels row.value =
          histogramText f64 fam row.labels (atMost (observed log id row.labels)) sum
            (observed log id row.labels).length) ∧
      fam.buckets.Pairwise (fun a b => a.lt b = true ∧ ∀ obs, atMost obs a ≤ atMost obs b)) ∧
    ∀ (name : Bytes) (labelKeys : List Bytes) (buckets buckets' : List (Double F)),
      (∀ b, b ∈ buckets ↔ b ∈ buckets') →
      (buckets.length = buckets'.length ∨
        (buckets.length ≤ metricsMaxBuckets ∧ buckets'.length ≤ metricsMaxBuckets)) →
      r.declare f64 .histogram name labelKeys buckets =
        r.declare f64 .histogram name labelKeys buckets' := by
  have hs := tallied_of_exec h
  refine ⟨renderInto_eq f64 r, fun id fam hget hkind => ⟨fun vals => hs.row_of_observed,
    fun row => hs.renderRow_eq hget hkind, hs.buckets_mono hget hkind⟩, ?_⟩
  intro name labelKeys buckets buckets' hmem hlen
  unfold Registry.declare declareBuckets
  rw [sortedBuckets_congr hmem hlen]

/-- A histogram with two bounds, and one observation up to the first and one above both. -/
def twoObserved : List (Call Int) :=
  [.declare .histogram [104] [] [.finite 2, .finite 1], .update (.add 0 [] (.finite 1)),
    .update (.add 0 [] (.finite 3))]

/-- What it shows at the end. -/
theorem twoObserved_exposition : ∃ r log fam,
    exec (observeStep Whole.f64) (Registry.new, []) twoObserved = some (r, log) ∧
      r.families[0]? = some fam ∧ observed log 0 [] = [.finite 1, .finite 3] ∧
      ∀ row ∈ r.rows, row.family = 0 → ∃ sum,
        renderRow Whole.f64 fam row.labels row.value =
          histogramText Whole.f64 fam row.labels (atMost (observed log 0 row.labels)) sum
            (observed log 0 row.labels).length := by
  have hrun : ((exec (observeStep Whole.f64) (Registry.new, []) twoObserved).map fun s =>
      (observed s.2 0 [], s.1.families.map (·.kind))) =
      some ([.finite 1, .finite 3], [.histogram]) := by decide
  obtain ⟨⟨r, log⟩, hexec, heq⟩ := Option.map_eq_some_iff.mp hrun
  obtain ⟨hlog, hkinds⟩ := Prod.mk.inj heq
  obtain ⟨fam, rest, hfamilies, hkind, -⟩ := List.map_eq_cons_iff.mp hkinds
  have hget : r.families[(0 : UInt32).toNat]? = some fam := by
    rw [hfamilies]
    rfl
  exact ⟨r, log, fam, hexec, hget, hlog,
    ((histogram_exposition hexec).2.1 0 fam hget hkind).2.1⟩

/-- The length of a list is checked before equal bounds are dropped: 65 times the same bound is too many,
and once is not. -/
theorem declare_repeated :
    (∀ b : Double Int, b ∈ List.replicate 65 (.finite 1) ↔ b ∈ [Double.finite 1]) ∧
    (Registry.new.declare Whole.f64 .histogram [104] [] (List.replicate 65 (.finite 1))).1 =
      .error (.tooManyBuckets 65) ∧
    (Registry.new.declare Whole.f64 .histogram [104] [] [.finite 1]).1 = .ok 0 := by
  refine ⟨fun b => ?_, by decide, by decide⟩
  rw [List.mem_replicate, List.mem_singleton, and_iff_right (by decide)]

end

end Castrum.Metrics
