import Castrum.Json.Value

/-!
# Castrum — `enum`, `const` and `uniqueItems` (`rust/json/fast_schema/validate.rs`)

The three keywords that compare DOM values. Object members are compared in insertion order, as
the reference crate does: two objects with the same members in another order are different
values here.

* `ValueConstraint.accepts` — the `enum` / `const` verdict on a parsed value;
* `uniqueStep` / `uniqueScan` — the duplicate scan of `uniqueItems`;
* `valueEquality_ordered` — the three keywords decide equality of ordered denotations.
-/

namespace Castrum

/-- `enum` / `const` constraints, stored as the schema's literal values. -/
inductive ValueConstraint where
  | enum (members : List Value)
  | const (x : Value)

/-- The verdict on a parsed value. -/
def ValueConstraint.accepts : ValueConstraint → Value → Bool
  | .enum members, val => members.any (fun m => sonicValuesEqual m val)
  | .const x, val => sonicValuesEqual x val

def ValueConstraint.keyword : ValueConstraint → String
  | .enum _ => "enum"
  | .const _ => "const"

def ValueConstraint.message : ValueConstraint → String
  | .enum _ => "value is not one of the allowed enum values"
  | .const _ => "value is not equal to the required constant"

/-- One element of the duplicate scan: a hit leaves `seen` alone, a miss pushes the value. -/
def uniqueStep (seen : List Value) (val : Value) : Bool × List Value :=
  if seen.any (fun v => sonicValuesEqual v val) then (false, seen) else (true, seen ++ [val])

/-- The scan over the remaining elements: a duplicate clears `arr_ok` and the scan goes on. -/
def uniqueScan (seen : List Value) : List Value → Bool
  | [] => true
  | val :: vals =>
    let r := uniqueStep seen val
    let rest := uniqueScan r.2 vals
    r.1 && rest

/-- One element of the scan: none of those seen equals it, and the rest passes behind it. -/
theorem uniqueScan_cons (seen : List Value) (val : Value) (vals : List Value) :
    uniqueScan seen (val :: vals) = true ↔
      (∀ v ∈ seen, sonicValuesEqual v val = false) ∧ uniqueScan (seen ++ [val]) vals = true := by
  rw [uniqueScan, uniqueStep]
  by_cases hdup : seen.any (fun v => sonicValuesEqual v val) = true
  · obtain ⟨v, hv, heq⟩ := List.any_eq_true.mp hdup
    rw [if_pos hdup]
    simp only [Bool.false_and, Bool.false_eq_true, false_iff, not_and]
    intro hnew
    rw [hnew v hv] at heq
    cases heq
  · have hnew : ∀ v ∈ seen, sonicValuesEqual v val = false := by
      simpa using hdup
    rw [if_neg hdup, Bool.true_and, and_iff_right hnew]

/-- A relation of all that was seen to all that is left, and among these, by the first of them. -/
theorem forall_pairwise_cons (R : Value → Value → Prop) {seen vals : List Value} {val : Value} :
    (∀ v ∈ seen, R v val) ∧ (∀ v ∈ seen ++ [val], ∀ x ∈ vals, R v x) ∧ vals.Pairwise R ↔
      (∀ v ∈ seen, ∀ x ∈ val :: vals, R v x) ∧ (val :: vals).Pairwise R := by
  simp only [List.mem_append, List.mem_singleton, List.forall_mem_cons, List.pairwise_cons]
  constructor
  · rintro ⟨hnew, hseen, hpair⟩
    exact ⟨fun v hv => ⟨hnew v hv, hseen v (.inl hv)⟩, hseen val (.inr rfl), hpair⟩
  · rintro ⟨hseen, hval, hpair⟩
    refine ⟨fun v hv => (hseen v hv).1, ?_, hpair⟩
    rintro v (hv | rfl)
    · exact (hseen v hv).2
    · exact hval

/-- The scan accepts exactly when no element equals one before it, `seen` included. -/
theorem uniqueScan_eq_true_iff (seen vals : List Value) :
    uniqueScan seen vals = true ↔
      (∀ v ∈ seen, ∀ val ∈ vals, sonicValuesEqual v val = false) ∧
        vals.Pairwise (fun a b => sonicValuesEqual a b = false) := by
  induction vals generalizing seen with
  | nil => simp [uniqueScan]
  | cons val vals ih =>
    rw [uniqueScan_cons, ih]
    exact forall_pairwise_cons (sonicValuesEqual · · = false)

/-! ## Equality of ordered denotations -/

/-- A value is compared with those of a list one after the other, up to the first one that it
equals. -/
def ComparableUpTo : List Value → Value → Prop
  | [], _ => True
  | m :: ms, val => Comparable m val ∧ (m.datum ≠ val.datum → ComparableUpTo ms val)

/-- Each value of an array is compared with those before it; behind the first duplicate the verdict
stands. -/
def ComparableScan (seen : List Value) : List Value → Prop
  | [] => True
  | val :: vals => ComparableUpTo seen val ∧
    ((∀ v ∈ seen, v.datum ≠ val.datum) → ComparableScan (seen ++ [val]) vals)

/-- A search for an equal value. -/
theorem any_sonicValuesEqual_iff {ms : List Value} {val : Value} (h : ComparableUpTo ms val) :
    ms.any (fun m => sonicValuesEqual m val) = true ↔ ∃ m ∈ ms, m.datum = val.datum := by
  induction ms with
  | nil => simp
  | cons m ms ih =>
    rw [ComparableUpTo] at h
    rw [List.any_cons, Bool.or_eq_true, sonicValuesEqual_iff_datum_eq m val h.1]
    simp only [List.mem_cons, exists_eq_or_imp]
    by_cases heq : m.datum = val.datum
    · simp [heq]
    · rw [ih (h.2 heq)]

/-- A value constraint accepts exactly the values that denote one of its literals. -/
theorem ValueConstraint.accepts_enum_iff {members : List Value} {val : Value}
    (h : ComparableUpTo members val) :
    (ValueConstraint.enum members).accepts val = true ↔ ∃ m ∈ members, m.datum = val.datum :=
  any_sonicValuesEqual_iff h

/-- **The duplicate scan** finds an element that denotes the same as one before it. Induction on the
elements: `seen` are those before, which are different ones as long as the scan has found nothing. -/
theorem uniqueScan_iff_datum {seen vals : List Value} (h : ComparableScan seen vals) :
    uniqueScan seen vals = true ↔
      (∀ v ∈ seen, ∀ val ∈ vals, v.datum ≠ val.datum) ∧
        vals.Pairwise (fun a b => a.datum ≠ b.datum) := by
  induction vals generalizing seen with
  | nil => simp [uniqueScan]
  | cons val vals ih =>
    rw [ComparableScan] at h
    have hnew : (∀ v ∈ seen, sonicValuesEqual v val = false) ↔ ∀ v ∈ seen, v.datum ≠ val.datum := by
      have hfound := not_congr (any_sonicValuesEqual_iff h.1)
      simpa using hfound
    rw [uniqueScan_cons, hnew]
    -- What is behind a duplicate is not compared, and does not matter.
    exact (and_congr_right fun hfresh => ih (h.2 hfresh)).trans
      (forall_pairwise_cons (·.datum ≠ ·.datum))

/-- **Value equality is equality of ordered denotations**, numbers compared as rationals and
members in insertion order. It decides `datum` equality of two values unless an `f64` of the first
meets an integer of the second that `as_f64` rounds to it; every value equals itself, and on values
that can be compared with one another it is an equivalence. The verdicts of `enum`, `const` and
`uniqueItems` are the ones this equality gives. -/
theorem valueEquality_ordered :
    (∀ a b : Value, Comparable a b → (sonicValuesEqual a b = true ↔ a.datum = b.datum)) ∧
    (∀ a : Value, sonicValuesEqual a a = true) ∧
    (∀ V : Set Value, (∀ a ∈ V, ∀ b ∈ V, Comparable a b) →
      Equivalence (fun a b : {v : Value // v ∈ V} => sonicValuesEqual a.1 b.1 = true)) ∧
    (∀ (members : List Value) (val : Value), ComparableUpTo members val →
      ((ValueConstraint.enum members).accepts val = true ↔
        ∃ m ∈ members, m.datum = val.datum)) ∧
    (∀ x val : Value, Comparable x val →
      ((ValueConstraint.const x).accepts val = true ↔ x.datum = val.datum)) ∧
    (∀ vals : List Value, ComparableScan [] vals →
      (uniqueScan [] vals = true ↔ vals.Pairwise (fun a b => a.datum ≠ b.datum))) := by
  have hrefl : ∀ a : Value, sonicValuesEqual a a = true := fun a =>
    (sonicValuesEqual_iff_datum_eq a a (Comparable.refl a)).mpr rfl
  refine ⟨sonicValuesEqual_iff_datum_eq, hrefl, fun V hV => ⟨fun a => hrefl a.1, ?_, ?_⟩,
    fun members val h => ValueConstraint.accepts_enum_iff h,
    fun x val h => sonicValuesEqual_iff_datum_eq x val h, fun vals h => ?_⟩
  · intro a b hab
    have heq := (sonicValuesEqual_iff_datum_eq _ _ (hV _ a.2 _ b.2)).mp hab
    exact (sonicValuesEqual_iff_datum_eq _ _ (hV _ b.2 _ a.2)).mpr heq.symm
  · intro a b c hab hbc
    have heq := (sonicValuesEqual_iff_datum_eq _ _ (hV _ a.2 _ b.2)).mp hab
    have heq' := (sonicValuesEqual_iff_datum_eq _ _ (hV _ b.2 _ c.2)).mp hbc
    exact (sonicValuesEqual_iff_datum_eq _ _ (hV _ a.2 _ c.2)).mpr (heq.trans heq')
  · rw [uniqueScan_iff_datum h]
    simp

/-- At `{"a": [1.0]}` and `{"a": [1]}`: the same denotation, one number held as an `f64`; and at
`[1.5, 9007199254740993]`, whose integer is no `f64` value and meets none. -/
theorem valueEquality_ordered_float_int :
    sonicValuesEqual (.object [([97], .array [.number (.float 1)])])
        (.object [([97], .array [.number (.posInt 1)])]) = true ∧
      sonicValuesEqual (.array [.number (.float (3 / 2)), .number (.posInt 9007199254740993)])
        (.array [.number (.float (3 / 2)), .number (.posInt 9007199254740993)]) = true ∧
      sonicValuesEqual (.array [.number (.float (3 / 2)), .number (.posInt 9007199254740993)])
        (.array [.number (.float (3 / 2)), .number (.posInt 9007199254740992)]) = false ∧
      uniqueScan [] [.number (.posInt 9007199254740993), .number (.float 1),
        .number (.posInt 1)] = false := by
  have hone : (Number.float 1).Comparable (.posInt 1) := by decide +kernel
  have hint : ∀ u v : UInt64, (Number.posInt u).Comparable (.posInt v) := fun _ _ h => h.elim
  have hfloat : ∀ q : ℚ, ∀ u : UInt64, (Number.posInt u).Comparable (.float q) := fun _ _ h => h.elim
  have h1 : Comparable (.object [([97], .array [.number (.float 1)])])
      (.object [([97], .array [.number (.posInt 1)])]) := by
    simp [Comparable, comparableMembers, comparableItems, hone]
  have h2 : Comparable (.array [.number (.float (3 / 2)), .number (.posInt 9007199254740993)])
      (.array [.number (.float (3 / 2)), .number (.posInt 9007199254740992)]) := by
    simp [Comparable, comparableItems, Number.Comparable.refl, hint]
  have h3 : ComparableScan [] [.number (.posInt 9007199254740993), .number (.float 1),
      .number (.posInt 1)] := by
    simp [ComparableScan, ComparableUpTo, Comparable, hone, hint, hfloat]
  refine ⟨(valueEquality_ordered.1 _ _ h1).mpr ?_, valueEquality_ordered.2.1 _, ?_, ?_⟩
  · simp [Value.datum, datumMembers, datumItems, Number.toRat]
  · rw [← Bool.not_eq_true, valueEquality_ordered.1 _ _ h2]
    simp [Value.datum, datumItems, Number.toRat]
  · rw [← Bool.not_eq_true, valueEquality_ordered.2.2.2.2.2 _ h3]
    simp [Value.datum, Number.toRat]

/-! ## Objects as unordered maps -/

/-- The same JSON value with objects as unordered maps: the same keys, and the same value at
every key. -/
inductive Datum.Same : Datum → Datum → Prop where
  | null : Same .null .null
  | bool (b : Bool) : Same (.bool b) (.bool b)
  | number (q : ℚ) : Same (.number q) (.number q)
  | string (s : Bytes) : Same (.string s) (.string s)
  | array {x y : List Datum} : List.Forall₂ Same x y → Same (.array x) (.array y)
  | object {x y : List (Bytes × Datum)} : (x.map Prod.fst).Perm (y.map Prod.fst) →
      (∀ k a b, (k, a) ∈ x → (k, b) ∈ y → Same a b) → Same (.object x) (.object y)

mutual

/-- No object of the value has two members with one key. -/
def Value.UniqueKeys : Value → Prop
  | .array items => uniqueKeysItems items
  | .object members => (members.map Prod.fst).Nodup ∧ uniqueKeysMembers members
  | _ => True

def uniqueKeysItems : List Value → Prop
  | [] => True
  | v :: vs => v.UniqueKeys ∧ uniqueKeysItems vs

def uniqueKeysMembers : List (Bytes × Value) → Prop
  | [] => True
  | (_, v) :: ms => v.UniqueKeys ∧ uniqueKeysMembers ms

end

/-- `{"a": 1, "b": 2}` and `{"b": 2, "a": 1}` are one unordered value and compare different. -/
theorem valueEquality_order_sensitive :
    ¬ ∀ a b : Value, a.UniqueKeys → b.UniqueKeys →
      (sonicValuesEqual a b = true ↔ a.datum.Same b.datum) := by
  intro h
  have hab := h (.object [([97], .number (.posInt 1)), ([98], .number (.posInt 2))])
    (.object [([98], .number (.posInt 2)), ([97], .number (.posInt 1))])
    (by simp [Value.UniqueKeys, uniqueKeysMembers]) (by simp [Value.UniqueKeys, uniqueKeysMembers])
  have hsame : Datum.Same (.object [([97], .number 1), ([98], .number 2)])
      (.object [([98], .number 2), ([97], .number 1)]) := by
    refine .object (List.Perm.swap _ _ _) ?_
    intro k a b ha hb
    simp only [List.mem_cons, Prod.mk.injEq, List.not_mem_nil, or_false] at ha hb
    rcases ha with ⟨rfl, rfl⟩ | ⟨rfl, rfl⟩ <;> rcases hb with ⟨hk, rfl⟩ | ⟨hk, rfl⟩
    · exact absurd hk (by decide)
    · exact .number 1
    · exact .number 2
    · exact absurd hk (by decide)
  have heq := hab.mpr (by simpa [Value.datum, datumMembers, Number.toRat] using hsame)
  simp [sonicValuesEqual, zipMembersEqual] at heq

end Castrum
