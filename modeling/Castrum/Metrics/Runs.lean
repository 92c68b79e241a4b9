import Castrum.Lib.Runs
import Castrum.Metrics.Render

/-!
# Castrum — runs of a metrics registry

A run is a list of calls, from an empty registry. What it leaves behind is `WellFormed`: the families are
what `declare` lets through, and each series is one of a family, for as many label values as the family
has keys, and of the family's kind.

* `WellFormed.call` — one call keeps this;
* `wellFormed_of_exec` — every run does;
* `ofEntry_buildKey` / `buildKey_injective` — the key of a series is taken apart as it was put together.
-/

namespace Castrum.Metrics

section

variable {F : Type} [LinearOrder F] [Zero F]

inductive Call (F : Type) where
  | declare (kind : MetricsKind) (name : Bytes) (labelKeys : List Bytes) (buckets : List (Double F))
  | update (u : Update F)

/-- `none` for a call that traps. -/
def Registry.call (f64 : Floats F) (r : Registry F) :
    Call F → Option (Except MetricsError Unit × Registry F)
  | .declare kind name labelKeys buckets =>
    let (res, r) := r.declare f64 kind name labelKeys buckets
    some (res.map fun _ => (), r)
  | .update u => r.update f64 u

/-- One call, whatever it returns. -/
def callStep (f64 : Floats F) (r : Registry F) (c : Call F) : Option (Registry F) :=
  (r.call f64 c).map Prod.snd

/-! ## What a run leaves behind -/

/-- Strictly increasing bounds, greater than zero. -/
def Bounds (buckets : List (Double F)) : Prop :=
  ∃ bounds : List F, buckets = bounds.map .finite ∧ bounds.Pairwise (· < ·) ∧ ∀ b ∈ bounds, 0 < b

/-- What `declare` lets through. -/
structure Family.Valid (fam : Family F) : Prop where
  name : validMetricIdent fam.name = true
  labelKeys : ∀ k ∈ fam.labelKeys, validMetricIdent k = true
  buckets : fam.kind = .histogram → Bounds fam.buckets

/-- The state of a label set is one of the family's kind. -/
def Value.Matches (fam : Family F) : Value F → Prop
  | .scalar _ => fam.kind ≠ .histogram
  | .hist counts _ _ => fam.kind = .histogram ∧ counts.length = fam.buckets.length

structure WellFormed (r : Registry F) : Prop where
  limit : r.families.length ≤ metricsMaxFamilies
  names : (r.families.map (·.name)).Nodup
  families : ∀ fam ∈ r.families, fam.Valid
  series : ∀ key value, r.shards.get key = some value → ∃ id vals fam, key = buildKey id vals ∧
    r.families[id.toNat]? = some fam ∧ validateValues vals fam.labelKeys.length = .ok () ∧
    value.Matches fam

variable {f64 : Floats F} {r r' : Registry F} {fam : Family F} {value : Value F}
  {res : Except MetricsError Unit}

theorem wellFormed_new : WellFormed (Registry.new : Registry F) where
  limit := Nat.zero_le _
  names := List.nodup_nil
  families _ h := nomatch h
  series key value h := by
    have hnone : (Registry.new : Registry F).shards.get key = none := AList.lookup_empty key
    rw [hnone] at h
    cases h

/-! ## The bounds -/

omit [LinearOrder F] [Zero F] in
theorem mem_destutter_ne [DecidableEq F] {xs : List F} {x : F} :
    x ∈ xs.destutter (· ≠ ·) ↔ x ∈ xs := by
  refine ⟨fun h => (List.destutter_sublist _ xs).subset h, fun h => ?_⟩
  cases xs with
  | nil => exact h
  | cons a xs =>
    rw [List.destutter_cons']
    induction xs generalizing a with
    | nil => exact h
    | cons b xs ih =>
      rw [List.destutter'_cons]
      split
      · rcases List.mem_cons.mp h with rfl | h
        · exact List.mem_cons_self
        · exact List.mem_cons_of_mem _ (ih b h)
      · next hab =>
        rw [not_not] at hab
        subst hab
        exact ih a ((List.mem_cons.mp h).elim (fun hx => hx ▸ List.mem_cons_self) id)

omit [Zero F] in
theorem mem_sortDedup {xs : List F} {x : F} : x ∈ sortDedup xs ↔ x ∈ xs := by
  rw [sortDedup, mem_destutter_ne, List.mem_insertionSort]

omit [Zero F] in
/-- Sorted, without what comes twice: strictly increasing. -/
theorem pairwise_sortDedup (xs : List F) : (sortDedup xs).Pairwise (· < ·) := by
  have hsorted := (List.pairwise_insertionSort (· ≤ ·) xs).sublist
    (List.destutter_sublist (· ≠ ·) (xs.insertionSort (· ≤ ·)))
  have hchain := List.isChain_destutter (· ≠ ·) (xs.insertionSort (· ≤ ·))
  rw [← List.isChain_iff_pairwise, List.isChain_iff_getElem]
  intro i hi
  exact lt_of_le_of_ne (List.isChain_iff_getElem.mp hsorted.isChain i hi)
    (List.isChain_iff_getElem.mp hchain i hi)

theorem positives_eq_some {buckets : List (Double F)} {xs : List F}
    (h : positives buckets = some xs) : buckets = xs.map .finite ∧ ∀ x ∈ xs, 0 < x := by
  induction buckets generalizing xs with
  | nil =>
    cases h
    exact ⟨rfl, nofun⟩
  | cons b buckets ih =>
    cases b with
    | finite x =>
      rw [positives] at h
      split at h
      · next hpos =>
        obtain ⟨ys, hys, rfl⟩ := Option.map_eq_some_iff.mp h
        obtain ⟨rfl, hall⟩ := ih hys
        exact ⟨rfl, List.forall_mem_cons.mpr ⟨hpos, hall⟩⟩
      · cases h
    | negZero | posInf | negInf | nan => cases h

theorem bounds_of_histogramBuckets {buckets sorted : List (Double F)}
    (h : histogramBuckets buckets = .ok sorted) : Bounds sorted := by
  unfold histogramBuckets at h
  split at h
  · cases h
  · split at h
    · cases h
    · next xs hxs =>
      cases h
      refine ⟨_, rfl, pairwise_sortDedup xs, fun b hb => ?_⟩
      exact (positives_eq_some hxs).2 b (mem_sortDedup.mp hb)

/-! ## Keys -/

omit [LinearOrder F] [Zero F] in
/-- **A key is taken apart** as it was put together. -/
theorem ofEntry_buildKey (id : UInt32) (vals : Bytes) (value : Value F) :
    Row.ofEntry (buildKey id vals) value = ⟨id.toNat, vals, value⟩ := by
  have htake : (buildKey id vals).take 4 = le32 id.toNat := List.take_left' (length_le32 _)
  have hdrop : (buildKey id vals).drop 5 = vals := rfl
  rw [Row.ofEntry, htake, hdrop, wordOf_le32, Nat.mod_eq_of_lt id.toNat_lt]

theorem buildKey_injective {id id' : UInt32} {vals vals' : Bytes}
    (h : buildKey id vals = buildKey id' vals') : id = id' ∧ vals = vals' := by
  have hrow := congrArg (Row.ofEntry · (Value.scalar (.finite 0) : Value Int)) h
  simp only [ofEntry_buildKey, Row.mk.injEq] at hrow
  exact ⟨UInt32.toNat_inj.mp hrow.1, hrow.2.1⟩

/-! ## One call -/

omit [LinearOrder F] in
theorem newFor_matches (fam : Family F) : (Value.newFor fam.kind fam.buckets).Matches fam := by
  cases hkind : fam.kind with
  | histogram => exact ⟨hkind, List.length_replicate⟩
  | counter | gauge =>
    show fam.kind ≠ .histogram
    rw [hkind]
    nofun

theorem length_bump {counts counts' : List Nat} {idx : Nat} (h : bump counts idx = some counts') :
    counts'.length = counts.length := by
  unfold bump at h
  split at h
  · obtain ⟨c, -, rfl⟩ := Option.map_eq_some_iff.mp h
    exact List.length_set
  · cases h
    rfl

theorem addValue_matches {value' : Value F} {amount : Double F}
    (h : addValue f64 fam.buckets value amount = some (.ok value')) (hvalue : value.Matches fam) :
    value'.Matches fam := by
  cases value with
  | scalar s =>
    cases h
    exact hvalue
  | hist counts sum count =>
    rw [addValue] at h
    split at h
    · cases h
    · obtain ⟨counts', hcounts, h⟩ := Option.bind_eq_some_iff.mp h
      obtain ⟨count', -, h⟩ := Option.bind_eq_some_iff.mp h
      cases h
      exact ⟨hvalue.1, (length_bump hcounts).trans hvalue.2⟩

/-- A series of a declared family is stored. -/
theorem WellFormed.put (hr : WellFormed r) {id : UInt32} {vals : Bytes}
    (hget : r.families[id.toNat]? = some fam)
    (hvalid : validateValues vals fam.labelKeys.length = .ok ()) (hvalue : value.Matches fam) :
    WellFormed (r.put (buildKey id vals) value) where
  limit := hr.limit
  names := hr.names
  families := hr.families
  series key v h := by
    have hput := get_put r.shards (buildKey id vals) value key
    rw [show r.shards.put _ value = (r.put (buildKey id vals) value).shards from rfl, h] at hput
    split at hput
    · next hkey =>
      cases hput
      exact ⟨id, vals, fam, hkey, hget, hvalid, hvalue⟩
    · exact hr.series key v hput.symm

omit [LinearOrder F] [Zero F] in
theorem setFamily_eq_ok {series : UInt32} {values : Bytes} {v : Double F}
    (h : r.setFamily series values v = .ok fam) : v.isFinite = true ∧
      r.families[series.toNat]? = some fam ∧ fam.kind = .gauge ∧
      validateValues values fam.labelKeys.length = .ok () := by
  unfold Registry.setFamily at h
  cases hfinite : v.isFinite with
  | false => rw [hfinite] at h; cases h
  | true =>
    rw [hfinite] at h
    cases hfam : r.family series with
    | error e => rw [hfam] at h; cases h
    | ok fam' =>
      rw [hfam] at h
      change (if fam'.kind ≠ .gauge then throw .notGauge else
        validateValues values fam'.labelKeys.length >>= fun _ => pure fam') = Except.ok fam at h
      split at h
      · cases h
      · next hkind =>
        cases hvalid : validateValues values fam'.labelKeys.length with
        | error e => rw [hvalid] at h; cases h
        | ok =>
          rw [hvalid] at h
          cases h
          exact ⟨rfl, family_eq_ok_iff.mp hfam, not_not.mp hkind, hvalid⟩

/-- The value that a series has, or is created with, is of the family's kind. -/
theorem WellFormed.getD_matches (hr : WellFormed r) {id : UInt32} {vals : Bytes}
    (hget : r.families[id.toNat]? = some fam) :
    ((r.shards.get (buildKey id vals)).getD (.newFor fam.kind fam.buckets)).Matches fam := by
  cases hkey : r.shards.get (buildKey id vals) with
  | none => exact newFor_matches fam
  | some value =>
    obtain ⟨id', vals', fam', heq, hget', -, hvalue⟩ := hr.series _ _ hkey
    obtain ⟨rfl, rfl⟩ := buildKey_injective heq
    cases hget.symm.trans hget'
    exact hvalue

theorem WellFormed.entry (hr : WellFormed r) {id : UInt32} {vals : Bytes}
    (hget : r.families[id.toNat]? = some fam)
    (hvalid : validateValues vals fam.labelKeys.length = .ok ()) :
    WellFormed (r.entry (buildKey id vals) (.newFor fam.kind fam.buckets)).2 := by
  unfold Registry.entry
  cases r.shards.get (buildKey id vals) with
  | none => exact hr.put hget hvalid (newFor_matches fam)
  | some value => exact hr

theorem WellFormed.update (hr : WellFormed r) {u : Update F}
    (h : r.update f64 u = some (res, r')) : WellFormed r' := by
  cases u with
  | add series values amount =>
    rcases add_cases h with ⟨_, -, -, rfl⟩ | ⟨fam, hfam, ⟨value, hvalue, -, rfl⟩ | ⟨_, -, -, rfl⟩⟩
    · exact hr
    · obtain ⟨-, hget, hvalid⟩ := addFamily_eq_ok_iff.mp hfam
      exact hr.put hget hvalid (addValue_matches hvalue (hr.getD_matches hget))
    · obtain ⟨-, hget, hvalid⟩ := addFamily_eq_ok_iff.mp hfam
      exact hr.entry hget hvalid
  | set series values v =>
    rcases set_cases (Option.some.inj h) with ⟨_, -, -, rfl⟩ | ⟨fam, hfam, -, rfl | ⟨-, rfl⟩⟩
    · exact hr
    · obtain ⟨-, hget, hkind, hvalid⟩ := setFamily_eq_ok hfam
      refine hr.put hget hvalid ?_
      show fam.kind ≠ .histogram
      rw [hkind]
      nofun
    · exact hr

theorem declareBuckets_valid {kind : MetricsKind} {name : Bytes} {labelKeys : List Bytes}
    {buckets sorted : List (Double F)}
    (h : declareBuckets f64 kind name labelKeys buckets = .ok sorted) :
    (⟨name, kind, labelKeys, sorted⟩ : Family F).Valid := by
  unfold declareBuckets at h
  cases hname : validMetricIdent name with
  | false =>
    rw [hname] at h
    cases h
  | true =>
    by_cases hlabels : metricsMaxLabels < labelKeys.length
    · rw [hname, if_pos hlabels] at h
      cases h
    · cases hkeys : labelKeys.find? fun k => !validMetricIdent k with
      | some k =>
        rw [hname, if_neg hlabels, hkeys] at h
        cases h
      | none =>
        rw [hname, if_neg hlabels, hkeys] at h
        refine ⟨hname, fun k hk => ?_, fun hkind => ?_⟩
        · simpa using List.find?_eq_none.mp hkeys k hk
        · have h : sortedBuckets f64 kind buckets = .ok sorted := h
          rw [sortedBuckets, if_pos hkind] at h
          exact bounds_of_histogramBuckets h

/-- **What `declare` comes to**: the families are as before, or there is a new one with a new name. -/
theorem declare_cases (f64 : Floats F) (r : Registry F) (kind : MetricsKind) (name : Bytes)
    (labelKeys : List Bytes) (buckets : List (Double F)) :
    (r.declare f64 kind name labelKeys buckets).2 = r ∨
    ∃ sorted, declareBuckets f64 kind name labelKeys buckets = .ok sorted ∧
      (∀ fam ∈ r.families, fam.name ≠ name) ∧ r.families.length < metricsMaxFamilies ∧
      (r.declare f64 kind name labelKeys buckets).2 =
        { r with families := r.families ++ [⟨name, kind, labelKeys, sorted⟩] } := by
  unfold Registry.declare
  cases hsorted : declareBuckets f64 kind name labelKeys buckets with
  | error e => exact .inl rfl
  | ok sorted =>
    dsimp only
    split
    -- a name that is declared already changes nothing, whether or not it agrees
    · split
      · exact .inl rfl
      · exact .inl rfl
    · next hfind =>
      split
      · exact .inl rfl
      · next hroom =>
        refine .inr ⟨sorted, rfl, fun fam hfam => ?_, Nat.not_le.mp hroom, rfl⟩
        obtain ⟨i, hi, rfl⟩ := List.getElem_of_mem hfam
        have hmem : (r.families[i], i) ∈ r.families.zipIdx :=
          List.mk_mem_zipIdx_iff_getElem?.mpr (List.getElem?_eq_getElem hi)
        simpa using List.find?_eq_none.mp hfind _ hmem

theorem WellFormed.declare (hr : WellFormed r) (f64 : Floats F) (kind : MetricsKind) (name : Bytes)
    (labelKeys : List Bytes) (buckets : List (Double F)) :
    WellFormed (r.declare f64 kind name labelKeys buckets).2 := by
  rcases declare_cases f64 r kind name labelKeys buckets with hsame | ⟨sorted, hsorted, hnew, hroom, hadded⟩
  · rw [hsame]
    exact hr
  · rw [hadded]
    constructor
    · rw [List.length_append]
      exact hroom
    · rw [List.map_append, List.nodup_append]
      refine ⟨hr.names, List.nodup_singleton _, ?_⟩
      rintro n hn n' hn' rfl
      obtain ⟨fam, hfam, heq⟩ := List.mem_map.mp hn
      exact hnew fam hfam (heq.trans (List.mem_singleton.mp hn'))
    · intro fam hfam
      rcases List.mem_append.mp hfam with hfam | hfam
      · exact hr.families fam hfam
      · rw [List.mem_singleton.mp hfam]
        exact declareBuckets_valid hsorted
    · intro key value hget
      obtain ⟨id, vals, fam, hkey, hfam, hvalid, hvalue⟩ := hr.series key value hget
      refine ⟨id, vals, fam, hkey, ?_, hvalid, hvalue⟩
      rw [List.getElem?_append_left (List.getElem?_eq_some_iff.mp hfam).1, hfam]

/-- **One call** keeps a registry well formed. -/
theorem WellFormed.call (hr : WellFormed r) {c : Call F} (h : r.call f64 c = some (res, r')) :
    WellFormed r' := by
  cases c with
  | declare kind name labelKeys buckets =>
    cases h
    exact hr.declare f64 kind name labelKeys buckets
  | update u => exact hr.update h

/-- **Every run** leaves a well-formed registry. -/
theorem wellFormed_of_run {cond : Registry F → Call F → Prop}
    (h : Run (callStep f64) cond Registry.new r) : WellFormed r := by
  refine h.invariant wellFormed_new fun r c r' hr _ hstep => ?_
  obtain ⟨⟨res, r''⟩, hcall, rfl⟩ := Option.map_eq_some_iff.mp hstep
  exact hr.call hcall

/-- A row is the series of its family and its labels. -/
theorem WellFormed.row (hr : WellFormed r) {row : Row F} (hrow : row ∈ r.rows) :
    ∃ id : UInt32, ∃ fam, row.family = id.toNat ∧ r.families[id.toNat]? = some fam ∧
      r.shards.get (buildKey id row.labels) = some row.value ∧
      validateValues row.labels fam.labelKeys.length = .ok () ∧ row.value.Matches fam := by
  obtain ⟨key, value, hget, rfl⟩ := mem_rows_iff.mp hrow
  obtain ⟨id, vals, fam, rfl, hfam, hvalid, hvalue⟩ := hr.series key value hget
  rw [ofEntry_buildKey]
  exact ⟨id, fam, rfl, hfam, hget, hvalid, hvalue⟩

end

end Castrum.Metrics
