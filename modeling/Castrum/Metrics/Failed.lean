import Castrum.Metrics.Render

/-!
# Castrum — updates that fail (`add` and `set` of `rust/metrics/registry.rs`)

* `Whole.f64` — doubles without a fraction, for the examples;
* `update_error` — the one failed update that is not one of the checks before the lookup;
* `failsClean_iff` — when a failed update changes nothing that can be observed.

The sign of an observation is checked behind the lookup, which has created the series by then.
-/

namespace Castrum.Metrics

/-! ## Doubles without a fraction -/

namespace Whole

/-- The bits of a whole number less than `2 ^ 53`. -/
def bits (x : Int) : Nat :=
  if x = 0 then 0
  else
    let exponent := Nat.log2 x.natAbs
    (if x < 0 then 2 ^ 63 else 0) + (1023 + exponent) * 2 ^ 52 +
      (x.natAbs - 2 ^ exponent) * 2 ^ (52 - exponent)

/-- The decimal digits of a whole number, behind a sign. -/
def text (x : Int) : Bytes := (if x < 0 then [45] else []) ++ decimal x.natAbs

/-- The doubles that are whole numbers less than `9 * 10 ^ 15`. -/
def f64 : Floats Int where
  plus
    | .finite x, .finite y => .finite (x + y)
    | .negZero, y => y
    | x, .negZero => x
    | _, _ => .nan
  literal m e := .finite (m / 10 ^ e)
  integer x := if x.natAbs < 9000000000000000 then some (Int64.ofInt x) else none
  display
    | .finite x => text x
    | .negZero => [45, 48]
    | .posInf => [105, 110, 102]
    | .negInf => [45, 105, 110, 102]
    | .nan => [78, 97, 78]
  toLeBytes
    | .finite x => le64 (bits x)
    | .negZero => le64 (2 ^ 63)
    | .posInf => le64 (0x7ff * 2 ^ 52)
    | .negInf => le64 (0xfff * 2 ^ 52)
    | .nan => le64 (0x7ff8 * 2 ^ 48)

end Whole

/-! ## Updates -/

section

variable {F : Type} [LinearOrder F] [Zero F]

/-- What can be observed is the same. -/
def SameObserved (f64 : Floats F) (r r' : Registry F) : Prop :=
  r'.seriesCount = r.seriesCount ∧
    ∀ out, r'.renderInto f64 out = r.renderInto f64 out ∧
      r'.snapshotInto f64 out = r.snapshotInto f64 out

/-- If the update fails, it has changed nothing that can be observed. -/
def FailsClean (f64 : Floats F) (r : Registry F) (u : Update F) : Prop :=
  ∀ e r', r.update f64 u = some (.error e, r') → SameObserved f64 r r'

/-- A negative number, finite, is the first observation for valid values of a histogram's labels. -/
def NegativeFirst (r : Registry F) : Update F → Prop
  | .add series values amount =>
    amount.isFinite = true ∧ amount.lt (.finite 0) = true ∧
      ∃ fam, r.families[series.toNat]? = some fam ∧ fam.kind = .histogram ∧
        validateValues values fam.labelKeys.length = .ok () ∧
        r.shards.get (buildKey series values) = none
  | .set .. => False

variable {f64 : Floats F} {r r' : Registry F} {series : UInt32} {values : Bytes} {amount : Double F}
  {fam : Family F} {e : MetricsError}

/-- Only an observation that is less than zero is refused behind the checks. -/
theorem addValue_error {buckets : List (Double F)} {value : Value F}
    (h : addValue f64 buckets value amount = some (.error e)) :
    amount.lt (.finite 0) = true ∧ ∃ counts sum count, value = .hist counts sum count := by
  cases value with
  | scalar s => cases h
  | hist counts sum count =>
    refine ⟨?_, _, _, _, rfl⟩
    by_contra hlt
    rw [addValue, if_neg hlt] at h
    obtain ⟨counts', -, h⟩ := Option.bind_eq_some_iff.mp h
    obtain ⟨count', -, h⟩ := Option.bind_eq_some_iff.mp h
    cases h

omit [LinearOrder F] in
/-- A histogram is what a series of a histogram is created with. -/
theorem newFor_eq_hist {kind : MetricsKind} {buckets : List (Double F)} {counts : List Nat}
    {sum : Double F} {count : Nat} (h : Value.newFor kind buckets = .hist counts sum count) :
    kind = .histogram := by
  cases kind with
  | histogram => rfl
  | counter | gauge => cases h

/-! ## When a failed update is clean -/

/-- **A failed update** leaves the registry as it is, unless a negative observation is the first of its
series. -/
theorem update_error {u : Update F} (h : r.update f64 u = some (.error e, r')) :
    r' = r ∨ NegativeFirst r u := by
  cases u with
  | add series values amount =>
    rcases add_cases h with ⟨_, -, -, hr⟩ | ⟨fam, hfam, ⟨_, -, hres, -⟩ | ⟨e', hvalue, -, hr⟩⟩
    · exact .inl hr
    · cases hres
    · obtain ⟨hfinite, hget, hvalid⟩ := addFamily_eq_ok_iff.mp hfam
      obtain ⟨hlt, counts, sum, count, hhist⟩ := addValue_error hvalue
      unfold Registry.entry at hr
      -- the entry is made before the value is checked, and stays when the check fails
      cases hkey : r.shards.get (buildKey series values) with
      | some value =>
        rw [hkey] at hr
        exact .inl hr
      | none =>
        rw [hkey] at hhist
        exact .inr ⟨hfinite, hlt, fam, hget, newFor_eq_hist hhist, hvalid, hkey⟩
  | set series values value =>
    rcases set_cases (Option.some.inj h) with ⟨_, -, -, hr⟩ | ⟨_, -, hres, -⟩
    · exact .inl hr
    · cases hres

/-- A first observation that is negative fails, and leaves a series without observations. -/
theorem update_of_negativeFirst (f64 : Floats F) {u : Update F} (h : NegativeFirst r u) :
    ∃ r', r.update f64 u = some (.error .negative, r') ∧ r'.seriesCount = r.seriesCount + 1 := by
  cases u with
  | add series values amount =>
    obtain ⟨hfinite, hlt, fam, hget, hkind, hvalid, hkey⟩ := h
    have hfam := addFamily_eq_ok_iff.mpr ⟨hfinite, hget, hvalid⟩
    refine ⟨r.put (buildKey series values) (.newFor fam.kind fam.buckets), ?_, seriesCount_put hkey⟩
    show r.add f64 series values amount = _
    simp only [Registry.add, hfam, Registry.entry, hkey, hkind, Value.newFor, addValue, if_pos hlt]
    rfl
  | set series values value => exact h.elim

/-- **When a failed update changes nothing that can be observed**: always, unless it is a negative
observation, and the first for its label values. -/
theorem failsClean_iff (f64 : Floats F) (r : Registry F) (u : Update F) :
    FailsClean f64 r u ↔ ¬ NegativeFirst r u := by
  constructor
  · intro hclean hnegative
    obtain ⟨r', hr', hadded⟩ := update_of_negativeFirst f64 hnegative
    have hcount := (hclean _ _ hr').1
    omega
  · intro hnot e r' h
    rcases update_error h with rfl | hnegative
    · exact ⟨rfl, fun _ => ⟨rfl, rfl⟩⟩
    · exact absurd hnegative hnot

end

/-- A registry with a histogram `h` that has no labels, and the bound `1`. -/
def latency : Registry Int :=
  (Registry.new.declare Whole.f64 .histogram [104] [] [.finite 1]).2

/-- `-1` is refused, and the histogram has a series. -/
theorem negative_leaves_series :
    (∃ r', latency.update Whole.f64 (.add 0 [] (.finite (-1))) = some (.error .negative, r') ∧
      latency.seriesCount = 0 ∧ r'.seriesCount = 1) ∧
    ¬ FailsClean Whole.f64 latency (.add 0 [] (.finite (-1))) := by
  have hrun : ((latency.update Whole.f64 (.add 0 [] (.finite (-1)))).map fun done =>
      (done.1, latency.seriesCount, done.2.seriesCount)) = some (.error .negative, 0, 1) := by
    decide
  obtain ⟨⟨res, r'⟩, hr', heq⟩ := Option.map_eq_some_iff.mp hrun
  obtain ⟨rfl, hbefore, hafter⟩ := Prod.mk.inj heq |>.imp id Prod.mk.inj
  refine ⟨⟨r', hr', hbefore, hafter⟩, fun hclean => ?_⟩
  have hcount := (hclean _ _ hr').1
  rw [hbefore, hafter] at hcount
  cases hcount

end Castrum.Metrics
