import Mathlib.Data.List.Basic
import Mathlib.Tactic

/-!
# Castrum — plain JavaScript objects

Values as `JSON.parse` makes them, and what two ways of filling an object do. Defining a property makes
it an own one. Assigning to it does the same, except to `__proto__`: as long as the lookup of that name
comes out at the accessor of `Object.prototype`, the assignment replaces the prototype, or does nothing.

* `Js.define` / `Js.assign` — `CreateDataProperty` and `o[k] = v`;
* `Js.lookup_assign_self` — what an assignment changes;
* `Js.DeepEq` — equality of own properties, all the way down.
-/

namespace Castrum

/-- A value. A number is the bits of a double; an object has own properties and a prototype, `none` for
`Object.prototype`. An array's prototype is never changed. -/
inductive Js where
  | undefined
  | null
  | bool (b : Bool)
  | number (bits : UInt64)
  | string (s : String)
  | array (items : List Js)
  | object (own : List (String × Js)) (proto : Option Js)

namespace Js

/-- The name whose inherited property is an accessor. -/
def protoKey : String := "__proto__"

/-- The names of the properties of `Object.prototype`. All but the accessor are functions. -/
def objectPrototypeNames : List String :=
  ["constructor", "__defineGetter__", "__defineSetter__", "hasOwnProperty", "__lookupGetter__",
    "__lookupSetter__", "isPrototypeOf", "propertyIsEnumerable", "toString", "valueOf",
    protoKey, "toLocaleString"]

/-- The value of an own property. -/
def lookup (own : List (String × Js)) (k : String) : Option Js :=
  match own with
  | [] => none
  | (k', v) :: own => if k' = k then some v else lookup own k

/-- `CreateDataProperty`: an own property is replaced in its place, a new one comes last. -/
def define (own : List (String × Js)) (k : String) (v : Js) : List (String × Js) :=
  match own with
  | [] => [(k, v)]
  | (k', v') :: own => if k' = k then (k, v) :: own else (k', v') :: define own k v

/-- The lookup of `__proto__` in a value, along its prototypes, comes out at `Object.prototype`. -/
def reaches : Js → Bool
  | .object own none => (lookup own protoKey).isNone
  | .object own (some proto) => (lookup own protoKey).isNone && proto.reaches
  | .null => false
  | _ => true

/-- `o[k] = v`. The accessor takes an object or `null` as the new prototype, and ignores the rest. -/
def assign (own : List (String × Js)) (proto : Option Js) (k : String) (v : Js) :
    List (String × Js) × Option Js :=
  if k = protoKey ∧ (Js.object own proto).reaches = true then
    match v with
    | .null => (own, some .null)
    | .array items => (own, some (.array items))
    | .object own' proto' => (own, some (.object own' proto'))
    | _ => (own, proto)
  else (define own k v, proto)

/-- Deep equality: the same own properties with equal values, in any order. -/
inductive DeepEq : Js → Js → Prop where
  | undefined : DeepEq .undefined .undefined
  | null : DeepEq .null .null
  | bool (b : Bool) : DeepEq (.bool b) (.bool b)
  | number (bits : UInt64) : DeepEq (.number bits) (.number bits)
  | string (s : String) : DeepEq (.string s) (.string s)
  | array {xs ys : List Js} (hlength : xs.length = ys.length)
      (h : ∀ (i : Nat) (x y : Js), xs[i]? = some x → ys[i]? = some y → DeepEq x y) :
      DeepEq (.array xs) (.array ys)
  | object {own own' : List (String × Js)} {proto proto' : Option Js}
      (hkeys : ∀ k, (lookup own k).isSome = (lookup own' k).isSome)
      (h : ∀ (k : String) (x y : Js), lookup own k = some x → lookup own' k = some y → DeepEq x y) :
      DeepEq (.object own proto) (.object own' proto')

/-! ## Properties -/

section

variable {own own' : List (String × Js)} {proto proto' : Option Js} {k k' : String} {v w : Js}

theorem lookup_define_self : lookup (define own k v) k = some v := by
  induction own with
  | nil => rw [define, lookup, if_pos rfl]
  | cons m own ih =>
    obtain ⟨k₁, v₁⟩ := m
    rw [define]
    by_cases heq : k₁ = k
    · rw [if_pos heq, lookup, if_pos rfl]
    · rw [if_neg heq, lookup, if_neg heq, ih]

theorem lookup_define_of_ne (h : k' ≠ k) : lookup (define own k v) k' = lookup own k' := by
  induction own with
  | nil =>
    show (if k = k' then some v else none) = none
    rw [if_neg (Ne.symm h)]
  | cons m own ih =>
    obtain ⟨k₁, v₁⟩ := m
    rw [define]
    by_cases heq : k₁ = k
    · rw [if_pos heq, lookup, if_neg (Ne.symm h), lookup, if_neg (by rw [heq]; exact Ne.symm h)]
    · rw [if_neg heq, lookup, lookup, ih]

theorem reaches_object :
    (Js.object own proto).reaches = ((lookup own protoKey).isNone && (proto.elim true reaches)) := by
  cases proto with
  | none => rw [reaches, Option.elim_none, Bool.and_true]
  | some proto => rw [reaches, Option.elim_some]

/-- An object that reaches the accessor has no own `__proto__`. -/
theorem lookup_protoKey_of_reaches (h : (Js.object own proto).reaches = true) :
    lookup own protoKey = none := by
  rw [reaches_object, Bool.and_eq_true, Option.isNone_iff_eq_none] at h
  exact h.1

/-- **What an assignment changes**: the property, unless it goes to the accessor, and no other one. -/
theorem lookup_assign_self : lookup (assign own proto k v).1 k =
    if k = protoKey ∧ (Js.object own proto).reaches = true then none else some v := by
  unfold assign
  by_cases haccessor : k = protoKey ∧ (Js.object own proto).reaches = true
  · rw [if_pos haccessor, if_pos haccessor, haccessor.1]
    have hnone := lookup_protoKey_of_reaches haccessor.2
    cases v <;> exact hnone
  · rw [if_neg haccessor, if_neg haccessor]
    exact lookup_define_self

theorem lookup_assign_of_ne (h : k' ≠ k) : lookup (assign own proto k v).1 k' = lookup own k' := by
  unfold assign
  split
  · cases v <;> rfl
  · exact lookup_define_of_ne h

/-- What ends the lookup of `__proto__` before the accessor when it becomes the prototype. -/
def cuts : Js → Bool
  | .null => true
  | .object own proto => !(Js.object own proto).reaches
  | _ => false

/-- **When the accessor is still reached** after an assignment. -/
theorem reaches_assign :
    (Js.object (assign own proto k v).1 (assign own proto k v).2).reaches =
      ((Js.object own proto).reaches && !(decide (k = protoKey) && v.cuts)) := by
  unfold assign
  by_cases hkey : k = protoKey
  · cases hreaches : (Js.object own proto).reaches with
    | false =>
      rw [if_neg (by simp), reaches_object, hkey, lookup_define_self]
      rfl
    | true =>
      have hnone := lookup_protoKey_of_reaches hreaches
      rw [if_pos ⟨hkey, rfl⟩, decide_eq_true hkey]
      cases v with
      | null => rw [reaches_object, hnone]; rfl
      | object own' proto' =>
        rw [reaches_object, hnone]
        show (true && (Js.object own' proto').reaches) =
          (true && !(true && !(Js.object own' proto').reaches))
        rw [Bool.true_and, Bool.true_and, Bool.true_and, Bool.not_not]
      | array items => rw [reaches_object, hnone]; rfl
      | undefined => exact hreaches
      | bool b => exact hreaches
      | number bits => exact hreaches
      | string s => exact hreaches
  · rw [if_neg (fun h => hkey h.1), decide_eq_false hkey, Bool.false_and, Bool.not_false, Bool.and_true,
      reaches_object, reaches_object, lookup_define_of_ne (Ne.symm hkey)]

end

/-! ## Deep equality -/

/-- Two own properties, both there and equal, or both missing. -/
def SameProp : Option Js → Option Js → Prop
  | none, none => True
  | some x, some y => DeepEq x y
  | _, _ => False

theorem deepEq_object_iff {own own' : List (String × Js)} {proto proto' : Option Js} :
    DeepEq (.object own proto) (.object own' proto') ↔
      ∀ k, SameProp (lookup own k) (lookup own' k) := by
  constructor
  · intro h k
    cases h with
    | object hkeys h =>
      -- a key that one side lacks is lacking in the other
      have hkey := hkeys k
      cases hx : lookup own k with
      | none =>
        rw [hx, Option.isSome_none] at hkey
        have hnone : lookup own' k = none := by
          rw [← Option.not_isSome_iff_eq_none, ← hkey]
          exact Bool.false_ne_true
        rw [hnone]
        trivial
      | some x =>
        rw [hx, Option.isSome_some] at hkey
        obtain ⟨y, hy⟩ := Option.isSome_iff_exists.mp hkey.symm
        rw [hy]
        exact h k x y hx hy
  · intro h
    refine .object (fun k => ?_) fun k x y hx hy => ?_
    · have hsame := h k
      cases hx : lookup own k with
      | none =>
        cases hy : lookup own' k with
        | none => rfl
        | some y => rw [hx, hy] at hsame; exact hsame.elim
      | some x =>
        cases hy : lookup own' k with
        | none => rw [hx, hy] at hsame; exact hsame.elim
        | some y => rfl
    · have hsame := h k
      rw [hx, hy] at hsame
      exact hsame

theorem deepEq_array_nil : DeepEq (.array []) (.array []) :=
  .array rfl fun i x y hx _ => by simp at hx

theorem deepEq_array_cons_iff {x y : Js} {xs ys : List Js} :
    DeepEq (.array (x :: xs)) (.array (y :: ys)) ↔ DeepEq x y ∧ DeepEq (.array xs) (.array ys) := by
  constructor
  · intro h
    cases h with
    | array hlength h =>
      refine ⟨h 0 x y rfl rfl, .array (Nat.succ.inj hlength) fun i x' y' hx hy => ?_⟩
      exact h (i + 1) x' y' hx hy
  · rintro ⟨hhead, htail⟩
    cases htail with
    | array hlength h =>
      refine .array (congrArg Nat.succ hlength) fun i x' y' hx hy => ?_
      cases i with
      | zero =>
        rw [← Option.some.inj hx, ← Option.some.inj hy]
        exact hhead
      | succ i => exact h i x' y' hx hy

end Js

end Castrum
