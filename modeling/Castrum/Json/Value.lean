import Castrum.Util.Bytes
import Mathlib.Data.Rat.Defs
import Mathlib.Algebra.Order.Field.Rat

/-!
# Castrum — DOM values and their equality (`rust/json/napi_marshal.rs`)

`serde_json::Value` (the schema side) and `sonic_rs::Value` (the document side) have the same
shape, and both keep object members in document order, so one inductive `Value` stands for both.
A number has one of three representations (`u64`, negative `i64`, finite `f64`); an `f64` enters
as the rational it denotes.

* `sonicNumbersEqual` / `sonicValuesEqual` — the comparison, branch for branch;
* `Datum` — what a value denotes: representations of numbers forgotten, member order kept;
* `Comparable` — no `f64` on the left meets an integer on the right that `as_f64` rounds to it;
* `sonicValuesEqual_iff_datum_eq` — on comparable values the comparison decides equality of
  denotations.
-/

namespace Castrum

/-! ## Numbers -/

/-- A DOM number (`N::PosInt(u64)`, `N::NegInt(i64)`, `N::Float(f64)`). `negInt n` is the integer
`-(n + 1)`, so a non-negative `NegInt` cannot be built. -/
inductive Number where
  | posInt (u : UInt64)
  | negInt (n : Fin (2 ^ 63))
  | float (q : ℚ)
  deriving DecidableEq

/-- The rational a number denotes. -/
def Number.toRat : Number → ℚ
  | .posInt u => (u.toNat : ℚ)
  | .negInt n => ((-(n.val + 1) : Int) : ℚ)
  | .float q => q

/-- `u as f64` on a natural number: 53 significant bits, ties to even. -/
def roundNat (n : Nat) : Nat :=
  let e := n.log2 - 52
  let q := n / 2 ^ e
  let r := n % 2 ^ e
  if e = 0 then n
  else if 2 ^ e / 2 < r ∨ (r = 2 ^ e / 2 ∧ q % 2 = 1) then (q + 1) * 2 ^ e
  else q * 2 ^ e

def Number.asU64 : Number → Option Nat
  | .posInt u => some u.toNat
  | _ => none

def Number.asI64 : Number → Option Int
  | .posInt u => if u.toNat < 2 ^ 63 then some u.toNat else none
  | .negInt n => some (-(n.val + 1))
  | .float _ => none

/-- `as_f64` answers for every number; an integer is rounded. -/
def Number.asF64 : Number → Option ℚ
  | .posInt u => some (roundNat u.toNat : ℚ)
  | .negInt n => some (-(roundNat (n.val + 1) : ℚ))
  | .float q => some q

/-- Cross-representation number equality (`sonic_numbers_equal`); `num_eq` compares a machine
integer with an `f64` exactly. -/
def sonicNumbersEqual (a b : Number) : Bool :=
  match a.asU64 with
  | some x =>
    match b.asU64 with
    | some y => x == y
    | none =>
      match b.asI64 with
      | some y => decide (y ≥ 0) && x == y.toNat
      | none => b.asF64.any (fun y => decide ((x : ℚ) = y))
  | none =>
    match a.asI64 with
    | some x =>
      match b.asI64 with
      | some y => x == y
      | none =>
        match b.asU64 with
        | some y => decide (x ≥ 0) && y == x.toNat
        | none => b.asF64.any (fun y => decide ((x : ℚ) = y))
    | none =>
      match a.asF64 with
      | some x =>
        match b.asF64 with
        | some y => decide (x = y)
        | none =>
          match b.asU64 with
          | some y => decide (x = (y : ℚ))
          | none => b.asI64.any (fun y : Int => decide (x = (y : ℚ)))
      | none => false

/-- A number that is an `f64` value, so that `as_f64` does not round it. -/
def Number.Exact (n : Number) : Prop := n.asF64 = some n.toRat

instance (n : Number) : Decidable n.Exact := inferInstanceAs (Decidable (_ = _))

/-- A number held as an `f64`. -/
def Number.IsFloat : Number → Prop
  | .float _ => True
  | _ => False

instance (n : Number) : Decidable n.IsFloat := by
  cases n <;> unfold Number.IsFloat <;> infer_instance

theorem roundNat_of_lt {n : Nat} (h : n < 2 ^ 53) : roundNat n = n := by
  have hlog : n.log2 - 52 = 0 := by
    by_cases hn : n = 0
    · subst hn; rfl
    · have := (Nat.log2_lt hn).mpr h
      omega
  simp [roundNat, hlog]

/-- The numbers are told apart by their values even if `as_f64` answers for the right one. It is asked
only where an `f64` stands on the left, and its answer can be wrong only for an integer that is no `f64`
value and is rounded to the very number on the left. -/
def Number.Comparable (x y : Number) : Prop :=
  x.IsFloat → y.asF64 = some x.toRat ∨ y.toRat = x.toRat → y.Exact

instance (x y : Number) : Decidable (x.Comparable y) := inferInstanceAs (Decidable (_ → _ → _))

theorem Number.Comparable.refl (x : Number) : x.Comparable x := by
  cases x with
  | posInt u => exact fun h => h.elim
  | negInt n => exact fun h => h.elim
  | float q => exact fun _ _ => rfl

/-- **Number equality is mathematical** unless the left operand is an `f64` and the right one an
integer that `as_f64` rounds to it. One case per pair of representations. -/
theorem sonicNumbersEqual_iff {a b : Number} (h : a.Comparable b) :
    sonicNumbersEqual a b = true ↔ a.toRat = b.toRat := by
  -- a non-negative integer is never a negative one
  have hne : ∀ (x : UInt64) (y : Fin (2 ^ 63)), (x.toNat : ℚ) ≠ ((-(y.val + 1) : Int) : ℚ) := by
    intro x y hxy
    have : (x.toNat : Int) = -(y.val + 1) := by exact_mod_cast hxy
    omega
  cases a with
  | posInt x =>
    cases b with
    | posInt y => simp [sonicNumbersEqual, Number.asU64, Number.toRat]
    | negInt y =>
      have hneg : ¬ (-((y.val : Int) + 1) ≥ 0) := by omega
      simp only [sonicNumbersEqual, Number.asU64, Number.asI64, Number.toRat, hneg, decide_false,
        Bool.false_and, Bool.false_eq_true, false_iff]
      exact hne x y
    | float q => simp [sonicNumbersEqual, Number.asU64, Number.asI64, Number.asF64, Number.toRat]
  | negInt x =>
    cases b with
    | posInt y =>
      have hneg : ¬ (-((x.val : Int) + 1) ≥ 0) := by omega
      have hne' := (hne y x).symm
      simp only [sonicNumbersEqual, Number.asU64, Number.asI64, Number.toRat]
      by_cases hy : y.toNat < 2 ^ 63
      · simp only [hy, if_true, beq_iff_eq]
        constructor
        · intro hxy; exfalso; omega
        · intro hxy; exact absurd hxy hne'
      · simp only [hy, if_false, hneg, decide_false, Bool.false_and, Bool.false_eq_true, false_iff]
        exact hne'
    | negInt y =>
      simp only [sonicNumbersEqual, Number.asU64, Number.asI64, Number.toRat, beq_iff_eq,
        Int.cast_inj]
    | float q =>
      simp [sonicNumbersEqual, Number.asU64, Number.asI64, Number.asF64, Number.toRat]
  | float q =>
    -- `as_f64` answers first: the exact branches behind it are never reached
    obtain ⟨y, hy⟩ : ∃ y, b.asF64 = some y := by cases b <;> exact ⟨_, rfl⟩
    have hanswer : sonicNumbersEqual (.float q) b = decide (q = y) := by
      simp only [sonicNumbersEqual, show (Number.float q).asU64 = none from rfl,
        show (Number.float q).asI64 = none from rfl, show (Number.float q).asF64 = some q from rfl, hy]
    rw [hanswer, decide_eq_true_iff]
    constructor
    · rintro rfl
      have hexact : b.asF64 = some b.toRat := h trivial (.inl hy)
      exact Option.some.inj (hy.symm.trans hexact)
    · intro hq
      have hexact : b.asF64 = some b.toRat := h trivial (.inr hq.symm)
      exact hq.trans (Option.some.inj (hexact.symm.trans hy))

/-! ## Values -/

/-- A DOM value. Strings and keys are their UTF-8 bytes; members keep document order. -/
inductive Value where
  | null
  | bool (b : Bool)
  | number (n : Number)
  | string (s : Bytes)
  | array (items : List Value)
  | object (members : List (Bytes × Value))

/-! `sonic_values_equal`, with the two `zip(..).all(..)` loops as functions of their own: `zip`
stops at the shorter list, so a loop that runs out on either side has seen no difference. -/

mutual

/-- JSON value equality (`sonic_values_equal`): arrays and objects position by position. -/
def sonicValuesEqual : Value → Value → Bool
  | .null, .null => true
  | .bool x, .bool y => x == y
  | .number x, .number y => sonicNumbersEqual x y
  | .string x, .string y => x == y
  | .array x, .array y => x.length == y.length && zipItemsEqual x y
  | .object x, .object y => x.length == y.length && zipMembersEqual x y
  | _, _ => false

def zipItemsEqual : List Value → List Value → Bool
  | a :: as, b :: bs => sonicValuesEqual a b && zipItemsEqual as bs
  | _, _ => true

def zipMembersEqual : List (Bytes × Value) → List (Bytes × Value) → Bool
  | (ka, va) :: as, (kb, vb) :: bs =>
    ka == kb && sonicValuesEqual va vb && zipMembersEqual as bs
  | _, _ => true

end

/-! ## Denotations -/

/-- What a value denotes when member order matters: the value with each number replaced by the
rational it stands for. -/
inductive Datum where
  | null
  | bool (b : Bool)
  | number (q : ℚ)
  | string (s : Bytes)
  | array (items : List Datum)
  | object (members : List (Bytes × Datum))

mutual

def Value.datum : Value → Datum
  | .null => .null
  | .bool b => .bool b
  | .number n => .number n.toRat
  | .string s => .string s
  | .array items => .array (datumItems items)
  | .object members => .object (datumMembers members)

def datumItems : List Value → List Datum
  | [] => []
  | v :: vs => v.datum :: datumItems vs

def datumMembers : List (Bytes × Value) → List (Bytes × Datum)
  | [] => []
  | (k, v) :: ms => (k, v.datum) :: datumMembers ms

end

theorem datumItems_length (vs : List Value) : (datumItems vs).length = vs.length := by
  induction vs with
  | nil => simp [datumItems]
  | cons v vs ih => simp [datumItems, ih]

theorem datumMembers_length (ms : List (Bytes × Value)) :
    (datumMembers ms).length = ms.length := by
  induction ms with
  | nil => simp [datumMembers]
  | cons m ms ih => simp [datumMembers, ih]

mutual

/-- Wherever two numbers meet in the comparison they are comparable. It goes through both values
position by position and stops at the first difference, so that nothing is asked of what lies behind
one. -/
def Comparable : Value → Value → Prop
  | .number x, .number y => x.Comparable y
  | .array x, .array y => x.length = y.length → comparableItems x y
  | .object x, .object y => x.length = y.length → comparableMembers x y
  | _, _ => True

def comparableItems : List Value → List Value → Prop
  | a :: as, b :: bs => Comparable a b ∧ (a.datum = b.datum → comparableItems as bs)
  | _, _ => True

def comparableMembers : List (Bytes × Value) → List (Bytes × Value) → Prop
  | (ka, va) :: as, (kb, vb) :: bs =>
    ka = kb → Comparable va vb ∧ (va.datum = vb.datum → comparableMembers as bs)
  | _, _ => True

end

mutual

/-- A value meets only itself in a comparison with itself. -/
theorem Comparable.refl (a : Value) : Comparable a a := by
  cases a with
  | null => exact trivial
  | bool b => exact trivial
  | string s => exact trivial
  | number x => exact Number.Comparable.refl x
  | array x =>
    rw [Comparable]
    exact fun _ => comparableItems_refl x
  | object x =>
    rw [Comparable]
    exact fun _ => comparableMembers_refl x

theorem comparableItems_refl (as : List Value) : comparableItems as as := by
  cases as with
  | nil => exact trivial
  | cons a as =>
    rw [comparableItems]
    exact ⟨Comparable.refl a, fun _ => comparableItems_refl as⟩

theorem comparableMembers_refl (as : List (Bytes × Value)) : comparableMembers as as := by
  cases as with
  | nil => exact trivial
  | cons a as =>
    obtain ⟨k, a⟩ := a
    rw [comparableMembers]
    exact fun _ => ⟨Comparable.refl a, fun _ => comparableMembers_refl as⟩

end

mutual

/-- **The comparison decides equality of denotations.** Induction on the left value; the two
loops are the array and the object case. -/
theorem sonicValuesEqual_iff_datum_eq (a b : Value) (h : Comparable a b) :
    sonicValuesEqual a b = true ↔ a.datum = b.datum := by
  cases a with
  | null => cases b <;> simp [sonicValuesEqual, Value.datum]
  | bool x => cases b <;> simp [sonicValuesEqual, Value.datum]
  | string x => cases b <;> simp [sonicValuesEqual, Value.datum]
  | number x =>
    cases b with
    | number y =>
      rw [Comparable] at h
      simpa [sonicValuesEqual, Value.datum] using sonicNumbersEqual_iff h
    | _ => simp [sonicValuesEqual, Value.datum]
  | array x =>
    cases b with
    | array y =>
      rw [Comparable] at h
      -- Arrays of different lengths denote different things, so the loop only runs on equal ones.
      have hlen : datumItems x = datumItems y → x.length = y.length := by
        intro hxy
        rw [← datumItems_length, ← datumItems_length, hxy]
      have hloop := fun hlength => zipItemsEqual_iff x y (h hlength) hlength
      simp only [sonicValuesEqual, Value.datum, Bool.and_eq_true, beq_iff_eq, Datum.array.injEq]
      exact ⟨fun hxy => (hloop hxy.1).mp hxy.2, fun hxy => ⟨hlen hxy, (hloop (hlen hxy)).mpr hxy⟩⟩
    | _ => simp [sonicValuesEqual, Value.datum]
  | object x =>
    cases b with
    | object y =>
      rw [Comparable] at h
      have hlen : datumMembers x = datumMembers y → x.length = y.length := by
        intro hxy
        rw [← datumMembers_length, ← datumMembers_length, hxy]
      have hloop := fun hlength => zipMembersEqual_iff x y (h hlength) hlength
      simp only [sonicValuesEqual, Value.datum, Bool.and_eq_true, beq_iff_eq, Datum.object.injEq]
      exact ⟨fun hxy => (hloop hxy.1).mp hxy.2, fun hxy => ⟨hlen hxy, (hloop (hlen hxy)).mpr hxy⟩⟩
    | _ => simp [sonicValuesEqual, Value.datum]

theorem zipItemsEqual_iff (as bs : List Value) (h : comparableItems as bs)
    (hlen : as.length = bs.length) : zipItemsEqual as bs = true ↔ datumItems as = datumItems bs := by
  match as, bs with
  | [], [] => simp [zipItemsEqual, datumItems]
  | a :: as, b :: bs =>
    rw [comparableItems] at h
    rw [zipItemsEqual, datumItems, datumItems, Bool.and_eq_true, List.cons.injEq,
      sonicValuesEqual_iff_datum_eq a b h.1]
    -- behind a difference neither side holds
    exact and_congr_right fun heq => zipItemsEqual_iff as bs (h.2 heq) (by simpa using hlen)

theorem zipMembersEqual_iff (as bs : List (Bytes × Value)) (h : comparableMembers as bs)
    (hlen : as.length = bs.length) :
    zipMembersEqual as bs = true ↔ datumMembers as = datumMembers bs := by
  match as, bs with
  | [], [] => simp [zipMembersEqual, datumMembers]
  | (ka, va) :: as, (kb, vb) :: bs =>
    rw [comparableMembers] at h
    rw [zipMembersEqual, datumMembers, datumMembers, Bool.and_eq_true, Bool.and_eq_true, beq_iff_eq,
      List.cons.injEq, Prod.mk.injEq, and_assoc, and_assoc]
    refine and_congr_right fun hkey => ?_
    obtain ⟨hvalue, hrest⟩ := h hkey
    rw [sonicValuesEqual_iff_datum_eq va vb hvalue]
    exact and_congr_right fun heq => zipMembersEqual_iff as bs (hrest heq) (by simpa using hlen)

end

end Castrum
