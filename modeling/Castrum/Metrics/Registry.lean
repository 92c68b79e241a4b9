import Castrum.Lib.Double
import Castrum.Loader.Ops
import Castrum.Util.Wire
import Mathlib.Algebra.BigOperators.Fin
import Mathlib.Data.List.AList
import Mathlib.Data.List.Destutter
import Mathlib.Data.List.Sort

/-!
# Castrum — the metrics registry (`rust/metrics/registry.rs`)

A family is declared once and has a name, a kind and label keys. The series of all families are in maps,
one for each shard; the key of a series is the number of its family, a NUL and the values of its labels
with a separator between them.

* `Registry.declare` / `Registry.add` / `Registry.set` — the operations;
* `Registry.get` / `Registry.put` — a series, in whichever shard its key belongs to;
* `get_put` / `seriesCount_put` — what storing a series changes;
* `add_cases` / `set_cases` — what an update comes to.
-/

namespace Castrum.Metrics

inductive MetricsKind where
  | counter
  | gauge
  | histogram
  deriving DecidableEq

/-- `METRICS_MAX_FAMILIES`. -/
def metricsMaxFamilies : Nat := 4096

/-- `METRICS_SHARDS`. -/
def metricsShards : Nat := 64

/-- `METRICS_MAX_LABELS`. -/
def metricsMaxLabels : Nat := 16

/-- `METRICS_MAX_BUCKETS`. -/
def metricsMaxBuckets : Nat := 64

/-- `METRICS_VALUE_SEP`. -/
def metricsValueSep : UInt8 := 0x1f

/-- What the registry takes from the implementation of `f64`. -/
structure Floats (F : Type) where
  /-- `a + b`. -/
  plus : Double F → Double F → Double F
  /-- The literal `m / 10 ^ e`. -/
  literal : Nat → Nat → Double F
  /-- `v as i64`, where `v.fract() == 0.0 && v.abs() < 9.0e15`. -/
  integer : F → Option Int64
  /-- `format!("{v}")`. -/
  display : Double F → Bytes
  /-- `to_le_bytes`. -/
  toLeBytes : Double F → Bytes

/-- `METRICS_DEFAULT_BUCKETS`. -/
def metricsDefaultBuckets {F : Type} (f64 : Floats F) : List (Double F) :=
  [f64.literal 5 3, f64.literal 1 2, f64.literal 25 3, f64.literal 5 2, f64.literal 1 1,
    f64.literal 25 2, f64.literal 5 1, f64.literal 1 0, f64.literal 25 1, f64.literal 5 0,
    f64.literal 10 0]

structure Family (F : Type) where
  name : Bytes
  kind : MetricsKind
  labelKeys : List Bytes
  buckets : List (Double F)

/-- The state of one label set. -/
inductive Value (F : Type) where
  | scalar (s : Double F)
  | hist (counts : List Nat) (sum : Double F) (count : Nat)

/-- The `String`s that the operations fail with. -/
inductive MetricsError where
  /-- `invalid metric name: {name:?}`. -/
  | invalidName (name : Bytes)
  /-- `too many labels ({n})`. -/
  | tooManyLabels (n : Nat)
  /-- `invalid label name: {k:?}`. -/
  | invalidLabel (k : Bytes)
  /-- `too many buckets ({n})`. -/
  | tooManyBuckets (n : Nat)
  /-- `histogram buckets must be finite and > 0`. -/
  | badBuckets
  /-- `metric {name:?} re-declared with a different shape`. -/
  | redeclared (name : Bytes)
  /-- `registry full (max {METRICS_MAX_FAMILIES} families)`. -/
  | full
  /-- `unknown series id {series}`. -/
  | unknownSeries (series : UInt32)
  /-- `label values must not contain NUL`. -/
  | nul
  /-- `expected {n_labels} label value(s), got {count}`. -/
  | arity (expected got : Nat)
  /-- `amount must be finite`, `value must be finite`. -/
  | notFinite
  /-- `histogram observations must be >= 0`. -/
  | negative
  /-- `set() is only valid on gauges`. -/
  | notGauge
  deriving DecidableEq

/-! ## Checks -/

def isAsciiAlphabetic (c : UInt8) : Bool := (65 ≤ c && c ≤ 90) || (97 ≤ c && c ≤ 122)

def isAsciiDigit (c : UInt8) : Bool := 48 ≤ c && c ≤ 57

/-- A byte that an identifier may begin with: a letter, `_` or `:`. -/
def identStart (c : UInt8) : Bool := isAsciiAlphabetic c || c == 95 || c == 58

def validMetricIdent (bytes : Bytes) : Bool :=
  match bytes with
  | [] => false
  | first :: rest =>
    decide (bytes.length ≤ 256) && identStart first &&
      rest.all fun c => identStart c || isAsciiDigit c

def validateValues (packed : Bytes) (nLabels : Nat) : Except MetricsError Unit :=
  if (0 : UInt8) ∈ packed then .error .nul
  else
    let count := (if packed.isEmpty then 0 else 1) + packed.count metricsValueSep
    if nLabels = 0 ∧ packed.isEmpty then .ok ()
    else if count ≠ nLabels then .error (.arity nLabels count)
    else .ok ()

/-- Valid values have no NUL, and one separator between two of them. -/
theorem validateValues_eq_ok_iff {packed : Bytes} {nLabels : Nat} :
    validateValues packed nLabels = .ok () ↔ (0 : UInt8) ∉ packed ∧
      ((nLabels = 0 ∧ packed = []) ∨ (packed ≠ [] ∧ packed.count metricsValueSep + 1 = nLabels)) := by
  unfold validateValues
  by_cases h0 : (0 : UInt8) ∈ packed
  · rw [if_pos h0]
    exact iff_of_false nofun fun h => h.1 h0
  rw [if_neg h0, and_iff_right h0]
  cases packed with
  | nil =>
    by_cases hn : nLabels = 0
    · rw [hn]
      exact iff_of_true rfl (.inl ⟨rfl, rfl⟩)
    · refine iff_of_false ?_ fun h => h.elim (fun h => hn h.1) fun h => h.1 rfl
      dsimp only
      rw [if_neg fun h => hn h.1, if_pos fun h => hn h.symm]
      nofun
  | cons b packed =>
    dsimp only
    rw [if_neg fun h => nomatch h.2]
    have hcount : (if (b :: packed).isEmpty then 0 else 1) + (b :: packed).count metricsValueSep =
        (b :: packed).count metricsValueSep + 1 := Nat.add_comm _ _
    rw [hcount]
    by_cases hn : (b :: packed).count metricsValueSep + 1 = nLabels
    · rw [if_neg (not_not.mpr hn)]
      exact iff_of_true rfl (.inr ⟨List.cons_ne_nil b packed, hn⟩)
    · rw [if_pos hn]
      exact iff_of_false nofun fun h => h.elim (fun h => nomatch h.2) fun h => hn h.2

section

variable {F : Type} [LinearOrder F] [Zero F]

/-- The bounds as values, where all are finite and greater than zero. -/
def positives : List (Double F) → Option (List F)
  | [] => some []
  | .finite x :: buckets => if 0 < x then (positives buckets).map (x :: ·) else none
  | _ :: _ => none

/-- `sort_by` and `dedup`: of equal bounds in a row the first is kept. -/
def sortDedup (xs : List F) : List F := (xs.insertionSort (· ≤ ·)).destutter (· ≠ ·)

/-- The bounds of a histogram. -/
def histogramBuckets (buckets : List (Double F)) : Except MetricsError (List (Double F)) :=
  if metricsMaxBuckets < buckets.length then .error (.tooManyBuckets buckets.length)
  else
    match positives buckets with
    | none => .error .badBuckets
    | some xs => .ok ((sortDedup xs).map .finite)

/-- The bounds that a family is declared with. -/
def sortedBuckets (f64 : Floats F) (kind : MetricsKind) (buckets : List (Double F)) :
    Except MetricsError (List (Double F)) :=
  if kind = .histogram then
    histogramBuckets (if buckets.isEmpty then metricsDefaultBuckets f64 else buckets)
  else .ok buckets

/-- `bucket_index`: how many bounds come before the first that is not less, in a sorted list. -/
def bucketIndex (buckets : List (Double F)) (v : Double F) : Nat :=
  (buckets.takeWhile (·.lt v)).length

/-- `Value::new_for`. -/
def Value.newFor (kind : MetricsKind) (buckets : List (Double F)) : Value F :=
  match kind with
  | .histogram => .hist (List.replicate buckets.length 0) (.finite 0) 0
  | _ => .scalar (.finite 0)

end

/-! ## Series -/

def buildKey (series : UInt32) (packedValues : Bytes) : Bytes :=
  le32 series.toNat ++ 0 :: packedValues

def shardFor (key : Bytes) : Fin metricsShards :=
  ⟨(Loader.fnv1a64Bytes key).toNat &&& (metricsShards - 1),
    Nat.lt_of_le_of_lt Nat.and_le_right (by decide)⟩

/-- The maps of the shards. A key is in no other shard than its own. -/
@[ext] structure Shards (F : Type) where
  maps : Fin metricsShards → AList fun _ : Bytes => Value F
  placed : ∀ i key, key ∈ maps i → shardFor key = i

structure Registry (F : Type) where
  families : List (Family F)
  shards : Shards F

section

variable {F : Type}

def Shards.get (shards : Shards F) (key : Bytes) : Option (Value F) :=
  (shards.maps (shardFor key)).lookup key

def Shards.put (shards : Shards F) (key : Bytes) (value : Value F) : Shards F where
  maps := Function.update shards.maps (shardFor key) ((shards.maps (shardFor key)).insert key value)
  placed i k hk := by
    by_cases hi : i = shardFor key
    · subst hi
      rw [Function.update_self, AList.mem_insert] at hk
      rcases hk with rfl | hk
      · rfl
      · exact shards.placed _ k hk
    · rw [Function.update_of_ne hi] at hk
      exact shards.placed i k hk

def Registry.new : Registry F where
  families := []
  shards := ⟨fun _ => ∅, fun _ key hkey => absurd hkey (AList.notMem_empty key)⟩

def Registry.put (r : Registry F) (key : Bytes) (value : Value F) : Registry F :=
  { r with shards := r.shards.put key value }

/-- `get_mut`, or `entry` with what to insert: the value that the key has then. -/
def Registry.entry (r : Registry F) (key : Bytes) (value : Value F) : Value F × Registry F :=
  match r.shards.get key with
  | some v => (v, r)
  | none => (value, r.put key value)

def Registry.seriesCount (r : Registry F) : Nat :=
  ((List.finRange metricsShards).map fun i => (r.shards.maps i).entries.length).sum

def Registry.family (r : Registry F) (series : UInt32) : Except MetricsError (Family F) :=
  match r.families[series.toNat]? with
  | some fam => .ok fam
  | none => .error (.unknownSeries series)

end

/-! ## Storing a series -/

section

variable {F : Type} {shards : Shards F} {key : Bytes} {value : Value F}

theorem get_put (shards : Shards F) (key : Bytes) (value : Value F) (key' : Bytes) :
    (shards.put key value).get key' = if key' = key then some value else shards.get key' := by
  show AList.lookup key' (Function.update shards.maps (shardFor key) _ (shardFor key')) = _
  by_cases hkey : key' = key
  · rw [if_pos hkey, hkey, Function.update_self, AList.lookup_insert]
  · rw [if_neg hkey]
    by_cases hshard : shardFor key' = shardFor key
    · rw [hshard, Function.update_self, AList.lookup_insert_ne hkey, ← hshard]
      rfl
    · rw [Function.update_of_ne hshard]
      rfl

/-- The entries of the maps are the series. -/
theorem mem_entries_iff : (∃ i, ⟨key, value⟩ ∈ (shards.maps i).entries) ↔
    shards.get key = some value := by
  constructor
  · rintro ⟨i, hmem⟩
    have hlookup := AList.mem_lookup_iff.mpr hmem
    have hi := shards.placed i key (AList.lookup_isSome.mp (Option.isSome_of_mem hlookup))
    subst hi
    exact hlookup
  · exact fun h => ⟨shardFor key, AList.mem_lookup_iff.mp h⟩

/-- A new series adds one to the count. -/
theorem seriesCount_put {r : Registry F} (h : r.shards.get key = none) :
    (r.put key value).seriesCount = r.seriesCount + 1 := by
  have hlength : ∀ i, ((r.put key value).shards.maps i).entries.length =
      (r.shards.maps i).entries.length + if i = shardFor key then 1 else 0 := by
    intro i
    show (Function.update r.shards.maps (shardFor key) _ i).entries.length = _
    by_cases hi : i = shardFor key
    · rw [hi, Function.update_self, if_pos rfl,
        AList.entries_insert_of_notMem (AList.lookup_eq_none.mp h), List.length_cons]
    · rw [Function.update_of_ne hi, if_neg hi, Nat.add_zero]
  simp only [Registry.seriesCount, hlength, List.sum_map_add]
  rw [← Fin.sum_univ_def fun i => if i = shardFor key then 1 else 0, Finset.sum_ite_eq',
    if_pos (Finset.mem_univ _)]

end

/-! ## The operations -/

section

variable {F : Type} [LinearOrder F] [Zero F]

/-- A declaration of the same family. The bounds of histograms are finite and not zero, so they are
equal as numbers if they are the same. -/
def sameShape (fam : Family F) (kind : MetricsKind) (labelKeys : List Bytes)
    (buckets : List (Double F)) : Bool :=
  fam.kind = kind && fam.labelKeys = labelKeys && (kind ≠ .histogram || fam.buckets = buckets)

/-- The checks of `declare`, and the bounds that it stores. -/
def declareBuckets (f64 : Floats F) (kind : MetricsKind) (name : Bytes) (labelKeys : List Bytes)
    (buckets : List (Double F)) : Except MetricsError (List (Double F)) := do
  if !validMetricIdent name then throw (.invalidName name)
  if metricsMaxLabels < labelKeys.length then throw (.tooManyLabels labelKeys.length)
  match labelKeys.find? fun k => !validMetricIdent k with
  | some k => throw (.invalidLabel k)
  | none => sortedBuckets f64 kind buckets

def Registry.declare (f64 : Floats F) (r : Registry F) (kind : MetricsKind) (name : Bytes)
    (labelKeys : List Bytes) (buckets : List (Double F)) : Except MetricsError UInt32 × Registry F :=
  match declareBuckets f64 kind name labelKeys buckets with
  | .error e => (.error e, r)
  | .ok sorted =>
    match r.families.zipIdx.find? fun e => e.1.name = name with
    | some (fam, idx) =>
      if sameShape fam kind labelKeys sorted then (.ok (UInt32.ofNat idx), r)
      else (.error (.redeclared name), r)
    | none =>
      if metricsMaxFamilies ≤ r.families.length then (.error .full, r)
      else (.ok (UInt32.ofNat r.families.length),
        { r with families := r.families ++ [⟨name, kind, labelKeys, sorted⟩] })

/-- The checks of `add` before the series is looked up. -/
def Registry.addFamily (r : Registry F) (series : UInt32) (packedValues : Bytes) (amount : Double F) :
    Except MetricsError (Family F) := do
  if !amount.isFinite then throw .notFinite
  let fam ← r.family series
  validateValues packedValues fam.labelKeys.length
  return fam

/-- A `u64` after an addition; a sum that does not fit traps. -/
def u64 (n : Nat) : Option Nat := if n < 2 ^ 64 then some n else none

theorem u64_eq_some {n m : Nat} (h : u64 n = some m) : m = n :=
  (Option.some.inj (Option.ite_none_right_eq_some.mp h).2).symm

/-- `if let Some(c) = counts.get_mut(idx) { *c += 1 }`. -/
def bump (counts : List Nat) (idx : Nat) : Option (List Nat) :=
  match counts[idx]? with
  | some c => (u64 (c + 1)).map (counts.set idx)
  | none => some counts

/-- What `add` makes of a series, `none` if it traps. -/
def addValue (f64 : Floats F) (buckets : List (Double F)) (value : Value F) (amount : Double F) :
    Option (Except MetricsError (Value F)) :=
  match value with
  | .scalar s => some (.ok (.scalar (f64.plus s amount)))
  | .hist counts sum count =>
    if amount.lt (.finite 0) then some (.error .negative)
    else do
      let counts ← bump counts (bucketIndex buckets amount)
      let count ← u64 (count + 1)
      return .ok (.hist counts (f64.plus sum amount) count)

def Registry.add (f64 : Floats F) (r : Registry F) (series : UInt32) (packedValues : Bytes)
    (amount : Double F) : Option (Except MetricsError Unit × Registry F) :=
  match r.addFamily series packedValues amount with
  | .error e => some (.error e, r)
  | .ok fam =>
    let key := buildKey series packedValues
    let (value, r) := r.entry key (.newFor fam.kind fam.buckets)
    (addValue f64 fam.buckets value amount).map fun
      | .ok value => (.ok (), r.put key value)
      | .error e => (.error e, r)

/-- The checks of `set`. -/
def Registry.setFamily (r : Registry F) (series : UInt32) (packedValues : Bytes) (value : Double F) :
    Except MetricsError (Family F) := do
  if !value.isFinite then throw .notFinite
  let fam ← r.family series
  if fam.kind ≠ .gauge then throw .notGauge
  validateValues packedValues fam.labelKeys.length
  return fam

def Registry.set (r : Registry F) (series : UInt32) (packedValues : Bytes) (value : Double F) :
    Except MetricsError Unit × Registry F :=
  match r.setFamily series packedValues value with
  | .error e => (.error e, r)
  | .ok _ =>
    let key := buildKey series packedValues
    match r.entry key (.scalar value) with
    | (.scalar _, r) => (.ok (), r.put key (.scalar value))
    | (.hist .., r) => (.ok (), r)

inductive Update (F : Type) where
  | add (series : UInt32) (values : Bytes) (amount : Double F)
  | set (series : UInt32) (values : Bytes) (value : Double F)

def Update.series : Update F → UInt32
  | .add series _ _ | .set series _ _ => series

def Update.values : Update F → Bytes
  | .add _ values _ | .set _ values _ => values

/-- `none` for an update that traps. -/
def Registry.update (f64 : Floats F) (r : Registry F) :
    Update F → Option (Except MetricsError Unit × Registry F)
  | .add series values amount => r.add f64 series values amount
  | .set series values value => some (r.set series values value)

/-! ## What an update comes to -/

variable {f64 : Floats F} {r r' : Registry F} {series : UInt32} {values key : Bytes}
  {amount v : Double F} {value : Value F} {fam : Family F} {res : Except MetricsError Unit}

omit [LinearOrder F] [Zero F] in
theorem family_eq_ok_iff : r.family series = .ok fam ↔ r.families[series.toNat]? = some fam := by
  unfold Registry.family
  split
  · next h => rw [h, Except.ok.injEq, Option.some.injEq]
  · next h => exact iff_of_false nofun (by rw [h]; nofun)

omit [LinearOrder F] [Zero F] in
theorem addFamily_eq_ok_iff : r.addFamily series values amount = .ok fam ↔
    amount.isFinite = true ∧ r.families[series.toNat]? = some fam ∧
      validateValues values fam.labelKeys.length = .ok () := by
  unfold Registry.addFamily
  cases hfinite : amount.isFinite with
  | false => exact iff_of_false nofun nofun
  | true =>
    rw [and_iff_right rfl, ← family_eq_ok_iff]
    cases hfam : r.family series with
    | error e => exact iff_of_false nofun nofun
    | ok fam' =>
      show (validateValues values fam'.labelKeys.length >>= fun _ => pure fam') = _ ↔ _
      cases hvalid : validateValues values fam'.labelKeys.length with
      | error e =>
        refine iff_of_false nofun fun h => ?_
        cases h.1
        cases hvalid.symm.trans h.2
      | ok =>
        show Except.ok fam' = Except.ok fam ↔ _
        constructor
        · intro h
          cases h
          exact ⟨rfl, hvalid⟩
        · exact And.left

omit [LinearOrder F] [Zero F] in
/-- What is stored twice is stored once. -/
theorem put_put (r : Registry F) (key : Bytes) (value value' : Value F) :
    (r.put key value').put key value = r.put key value := by
  have hshards : (r.shards.put key value').put key value = r.shards.put key value := by
    apply Shards.ext
    show Function.update (Function.update r.shards.maps _ _) _
      (AList.insert key value (Function.update r.shards.maps _ _ _)) = _
    rw [Function.update_idem, Function.update_self, AList.insert_insert]
    rfl
  show Registry.mk r.families ((r.shards.put key value').put key value) = _
  rw [hshards]
  rfl

omit [LinearOrder F] [Zero F] in
theorem entry_fst (r : Registry F) (key : Bytes) (value : Value F) :
    (r.entry key value).1 = (r.shards.get key).getD value := by
  unfold Registry.entry
  cases r.shards.get key <;> rfl

omit [LinearOrder F] [Zero F] in
theorem entry_put (r : Registry F) (key : Bytes) (value value' : Value F) :
    (r.entry key value).2.put key value' = r.put key value' := by
  unfold Registry.entry
  cases r.shards.get key with
  | none => exact put_put r key value' value
  | some _ => rfl

/-- **What `add` comes to**: a check fails; or the series has a new value; or the value it has, or is
created with, does not take the amount. -/
theorem add_cases (h : r.add f64 series values amount = some (res, r')) :
    (∃ e, r.addFamily series values amount = .error e ∧ res = .error e ∧ r' = r) ∨
    ∃ fam, r.addFamily series values amount = .ok fam ∧
      ((∃ value, addValue f64 fam.buckets ((r.shards.get (buildKey series values)).getD
            (.newFor fam.kind fam.buckets)) amount = some (.ok value) ∧
          res = .ok () ∧ r' = r.put (buildKey series values) value) ∨
        ∃ e, addValue f64 fam.buckets ((r.shards.get (buildKey series values)).getD
            (.newFor fam.kind fam.buckets)) amount = some (.error e) ∧
          res = .error e ∧
          r' = (r.entry (buildKey series values) (.newFor fam.kind fam.buckets)).2) := by
  unfold Registry.add at h
  cases hfam : r.addFamily series values amount with
  | error e =>
    rw [hfam] at h
    cases h
    exact .inl ⟨e, rfl, rfl, rfl⟩
  | ok fam =>
    -- The entry is created before the amount is looked at, so it stays where the amount is refused.
    rw [hfam] at h
    change Option.map _ (addValue f64 fam.buckets
      (r.entry (buildKey series values) (.newFor fam.kind fam.buckets)).1 amount) = _ at h
    obtain ⟨made, hmade, heq⟩ := Option.map_eq_some_iff.mp h
    rw [entry_fst] at hmade
    refine .inr ⟨fam, rfl, ?_⟩
    cases made with
    | ok value =>
      obtain ⟨rfl, rfl⟩ := Prod.mk.inj heq
      exact .inl ⟨value, hmade, rfl, entry_put r _ _ value⟩
    | error e =>
      obtain ⟨rfl, rfl⟩ := Prod.mk.inj heq
      exact .inr ⟨e, hmade, rfl, rfl⟩

omit [LinearOrder F] [Zero F] in
/-- **What `set` comes to**: a check fails; or the series has the value; or it has been a histogram. -/
theorem set_cases (h : r.set series values v = (res, r')) :
    (∃ e, r.setFamily series values v = .error e ∧ res = .error e ∧ r' = r) ∨
    ∃ fam, r.setFamily series values v = .ok fam ∧ res = .ok () ∧
      (r' = r.put (buildKey series values) (.scalar v) ∨
        (∃ counts sum count, r.shards.get (buildKey series values) = some (.hist counts sum count)) ∧
          r' = r) := by
  unfold Registry.set at h
  cases hfam : r.setFamily series values v with
  | error e =>
    rw [hfam] at h
    cases h
    exact .inl ⟨e, rfl, rfl, rfl⟩
  | ok fam =>
    rw [hfam] at h
    right
    refine ⟨fam, rfl, ?_⟩
    have hput := entry_put r (buildKey series values) (.scalar v) (.scalar v)
    have hfst := entry_fst r (buildKey series values) (.scalar v)
    cases hentry : r.entry (buildKey series values) (.scalar v) with
    | mk value entered =>
      rw [hentry] at hput hfst
      -- a histogram that stands there already is left alone: the source sets scalars only
      cases value with
      | scalar s =>
        simp only [hentry, Prod.mk.injEq] at h
        exact ⟨h.1.symm, .inl (h.2.symm.trans hput)⟩
      | hist counts sum count =>
        simp only [hentry, Prod.mk.injEq] at h
        cases hget : r.shards.get (buildKey series values) with
        | none => rw [hget] at hfst; cases hfst
        | some value =>
          rw [hget] at hfst
          have hsame : r.entry (buildKey series values) (.scalar v) = (value, r) := by
            rw [Registry.entry, hget]
          have hentered := congrArg Prod.snd (hsame.symm.trans hentry)
          exact ⟨h.1.symm, .inr ⟨⟨counts, sum, count, congrArg some hfst.symm⟩, h.2.symm.trans hentered.symm⟩⟩

end

end Castrum.Metrics
