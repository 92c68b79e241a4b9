import Castrum.Lib.JsObject
import Castrum.Lib.Scan
import Castrum.Lib.Utf16
import Mathlib.Data.List.AList

/-!
# Castrum — pairs as an object (`pairsToObject` of `src/shared/packed/wire.ts`)

`out[key]` finds inherited properties too. A name of `Object.prototype` is taken for a key that has
occurred, with the inherited value as its first one; and what is assigned to `__proto__` becomes the
prototype, whose properties are inherited from then on.

* `Obj.get` / `Obj.set` — `out[key]` and `out[key] = v`;
* `ownValues_eq` — what is own after pairs without `__proto__`;
* `keeps_iff` — when the object holds the values of all keys.
-/

namespace Castrum.PackedPairs

abbrev Pair := JsString × JsString

/-- The code units of an ASCII text. -/
def units (s : String) : JsString := s.toList.map fun c => UInt16.ofNat c.toNat

def protoKey : JsString := units Js.protoKey

/-- The names of the properties of `Object.prototype`. -/
def objectPrototypeNames : List JsString := Js.objectPrototypeNames.map units

/-- What a property of `out` can hold, or what is inherited by it. -/
inductive Value where
  | string (s : JsString)
  | array (items : List Value)
  | number (n : Nat)
  /-- The inherited function of a name. -/
  | function (name : JsString)
  /-- `Object.prototype`. -/
  | objectPrototype

/-- `out`: its own properties, and its prototype, `none` for `Object.prototype`. No other prototype than an
array is ever assigned. -/
structure Obj where
  own : AList fun _ : JsString => Value
  proto : Option (List Value)

/-- `{}`. -/
def Obj.empty : Obj := ⟨∅, none⟩

section

-- the names of the functions of `Array.prototype`
variable (arrayNames : List JsString)

/-- What is inherited under a key. `__proto__` reads as the prototype itself. -/
def inherited (proto : Option (List Value)) (key : JsString) : Option Value :=
  match proto with
  | none =>
    if key = protoKey then some .objectPrototype
    else if key ∈ objectPrototypeNames then some (.function key)
    else none
  | some items =>
    if key = protoKey then some (.array items)
    else if key = units "length" then some (.number items.length)
    else
      match items.zipIdx.find? fun e => key = units (toString e.2) with
      | some e => some e.1
      | none =>
        if key ∈ arrayNames ∨ key ∈ objectPrototypeNames then some (.function key) else none

/-- `out[key]`. -/
def Obj.get (out : Obj) (key : JsString) : Option Value :=
  match out.own.lookup key with
  | some v => some v
  | none => inherited arrayNames out.proto key

/-- `out[key] = v`. The accessor takes an array as the new prototype, and ignores a string. -/
def Obj.set (out : Obj) (key : JsString) (v : Value) : Obj :=
  if key = protoKey ∧ key ∉ out.own then
    match v with
    | .array items => { out with proto := some items }
    | _ => out
  else { out with own := out.own.insert key v }

/-- `existing.push(value)` for the array `out[key]`. The only array that is inherited is the prototype
itself. -/
def Obj.push (out : Obj) (key : JsString) (items : List Value) (v : Value) : Obj :=
  if key ∈ out.own then { out with own := out.own.insert key (.array (items ++ [v])) }
  else { out with proto := some (items ++ [v]) }

/-- The body of the loop. -/
def add (out : Obj) (pair : Pair) : Obj :=
  match out.get arrayNames pair.1 with
  | none => out.set pair.1 (.string pair.2)
  | some (.array items) => out.push pair.1 items (.string pair.2)
  | some existing => out.set pair.1 (.array [existing, .string pair.2])

def pairsToObject (pairs : List Pair) : Obj := pairs.foldl (add arrayNames) .empty

end

/-! ## What the object is to hold -/

/-- The values of a key, in the order of the list. -/
def valuesOf (pairs : List Pair) (key : JsString) : List JsString :=
  (pairs.filter (·.1 = key)).map Prod.snd

/-- The own property for some values: none, the only one, or all of them. -/
def folded : List JsString → Option Value
  | [] => none
  | [v] => some (.string v)
  | vs => some (.array (vs.map .string))

/-- The own properties are the keys that occur, with their values. -/
def Keeps (pairs : List Pair) (out : Obj) : Prop :=
  ∀ key, out.own.lookup key = folded (valuesOf pairs key)

/-- The own property that the values of a key come to: behind the inherited function, if there is one. For all
keys but `__proto__`. -/
def ownValues (key : JsString) (vs : List JsString) : Option Value :=
  if key ∈ objectPrototypeNames then
    if vs = [] then none else some (.array (.function key :: vs.map .string))
  else folded vs

variable {arrayNames : List JsString} {pairs : List Pair}

theorem valuesOf_append (pairs : List Pair) (pair : Pair) (key : JsString) :
    valuesOf (pairs ++ [pair]) key = valuesOf pairs key ++ if pair.1 = key then [pair.2] else [] := by
  rw [valuesOf, List.filter_append, List.map_append, List.filter_cons]
  by_cases h : pair.1 = key
  · rw [if_pos h, if_pos (decide_eq_true h)]
    rfl
  · rw [if_neg h, if_neg (by rw [decide_eq_false h]; exact Bool.false_ne_true)]
    rfl

theorem valuesOf_eq_nil_iff {key : JsString} : valuesOf pairs key = [] ↔ ∀ p ∈ pairs, p.1 ≠ key := by
  rw [valuesOf, List.map_eq_nil_iff, List.filter_eq_nil_iff]
  exact forall₂_congr fun p _ => by rw [decide_eq_true_iff]

theorem protoKey_mem : protoKey ∈ objectPrototypeNames :=
  List.mem_map_of_mem (by decide)

/-! ## The loop -/

/-- What is inherited without `__proto__` among the keys. -/
theorem inherited_none {key : JsString} (h : key ≠ protoKey) :
    inherited arrayNames none key = if key ∈ objectPrototypeNames then some (.function key) else none := by
  rw [inherited, if_neg h]

/-- One more value behind those of a key. -/
theorem ownValues_append (key value : JsString) (vs : List JsString) :
    ownValues key (vs ++ [value]) =
      match (ownValues key vs).or
        (if key ∈ objectPrototypeNames then some (.function key) else none) with
      | none => some (.string value)
      | some (.array items) => some (.array (items ++ [.string value]))
      | some existing => some (.array [existing, .string value]) := by
  unfold ownValues
  by_cases hname : key ∈ objectPrototypeNames
  · rw [if_pos hname, if_pos hname, if_pos hname,
      if_neg (List.append_ne_nil_of_right_ne_nil vs (List.cons_ne_nil _ _))]
    cases vs with
    | nil => rfl
    | cons v vs =>
      rw [if_neg (List.cons_ne_nil v vs), List.map_append]
      rfl
  · rw [if_neg hname, if_neg hname, if_neg hname]
    match vs with
    | [] => rfl
    | [v] => rfl
    | v :: w :: vs =>
      show some (Value.array (((v :: w :: vs) ++ [value]).map .string)) = _
      rw [List.map_append]
      rfl

/-- An own property that is assigned or pushed to. -/
theorem add_own (arrayNames : List JsString) {out : Obj} {pair : Pair} (hkey : pair.1 ≠ protoKey)
    (hproto : out.proto = none)
    {vs : List JsString} (hown : out.own.lookup pair.1 = ownValues pair.1 vs) :
    ∃ v, add arrayNames out pair = { out with own := out.own.insert pair.1 v } ∧
      ownValues pair.1 (vs ++ [pair.2]) = some v := by
  have hget : out.get arrayNames pair.1 = (ownValues pair.1 vs).or
      (if pair.1 ∈ objectPrototypeNames then some (.function pair.1) else none) := by
    rw [Obj.get, hown, hproto, inherited_none hkey]
    cases ownValues pair.1 vs <;> rfl
  have hset : ∀ v, out.set pair.1 v = { out with own := out.own.insert pair.1 v } :=
    fun v => if_neg fun h => hkey h.1
  rw [ownValues_append, ← hget]
  unfold add
  cases hexisting : out.get arrayNames pair.1 with
  | none => exact ⟨_, hset _, rfl⟩
  | some existing =>
    cases existing with
    | array items =>
      -- no array is inherited
      have hmem : pair.1 ∈ out.own := by
        rw [← AList.lookup_isSome]
        cases hlookup : out.own.lookup pair.1 with
        | some v => rfl
        | none =>
          rw [Obj.get, hlookup, hproto] at hexisting
          simp only [inherited_none hkey] at hexisting
          by_cases hname : pair.1 ∈ objectPrototypeNames
          · rw [if_pos hname] at hexisting
            cases hexisting
          · rw [if_neg hname] at hexisting
            cases hexisting
      exact ⟨_, if_pos hmem, rfl⟩
    | string | number | function | objectPrototype => exact ⟨_, hset _, rfl⟩

/-- **What is own** after pairs without the key `__proto__`. -/
theorem ownValues_eq (arrayNames : List JsString) (h : ∀ p ∈ pairs, p.1 ≠ protoKey) :
    (pairsToObject arrayNames pairs).proto = none ∧ ∀ key,
      (pairsToObject arrayNames pairs).own.lookup key = ownValues key (valuesOf pairs key) := by
  induction pairs using List.reverseRecOn with
  | nil =>
    refine ⟨rfl, fun key => ?_⟩
    rw [valuesOf, List.filter_nil, List.map_nil, ownValues, folded, if_pos rfl, ite_self]
    exact AList.lookup_empty key
  | append_singleton pairs pair ih =>
    obtain ⟨hproto, hown⟩ := ih fun p hp => h p (List.mem_append_left _ hp)
    have hkey := h pair (List.mem_append_right _ (List.mem_singleton_self _))
    obtain ⟨v, hadd, hv⟩ := add_own arrayNames hkey hproto (hown pair.1)
    rw [pairsToObject, List.foldl_append, List.foldl_cons, List.foldl_nil, ← pairsToObject, hadd]
    refine ⟨hproto, fun key => ?_⟩
    rw [valuesOf_append]
    by_cases heq : pair.1 = key
    · rw [← heq, AList.lookup_insert, if_pos rfl, hv]
    · rw [AList.lookup_insert_ne (Ne.symm heq), if_neg heq, List.append_nil]
      exact hown key

/-- `__proto__` is never own. -/
theorem protoKey_not_own (arrayNames : List JsString) (pairs : List Pair) :
    (pairsToObject arrayNames pairs).own.lookup protoKey = none := by
  have hstep : ∀ (out : Obj) (pair : Pair), out.own.lookup protoKey = none →
      (add arrayNames out pair).own.lookup protoKey = none := by
    intro out pair hnone
    -- an assignment to this name calls the setter, and makes no property
    have hset : ∀ v, (out.set pair.1 v).own.lookup protoKey = none := by
      intro v
      unfold Obj.set
      by_cases hkey : pair.1 = protoKey
      · rw [if_pos ⟨hkey, by rw [hkey]; exact AList.lookup_eq_none.mp hnone⟩]
        cases v <;> exact hnone
      · rw [if_neg fun h => hkey h.1, AList.lookup_insert_ne (Ne.symm hkey)]
        exact hnone
    unfold add
    split
    · exact hset _
    · next items _ =>
      unfold Obj.push
      by_cases hkey : pair.1 = protoKey
      · rw [hkey, if_neg (AList.lookup_eq_none.mp hnone)]
        exact hnone
      · split
        · rw [AList.lookup_insert_ne (Ne.symm hkey)]
          exact hnone
        · exact hnone
    · exact hset _
  induction pairs using List.reverseRecOn with
  | nil => exact AList.lookup_empty protoKey
  | append_singleton pairs pair ih =>
    rw [pairsToObject, List.foldl_append, List.foldl_cons, List.foldl_nil, ← pairsToObject]
    exact hstep _ pair ih

/-! ## When all values are kept -/

/-- Only strings come of values that are kept. -/
theorem folded_ne_function (vs : List JsString) (key : JsString) (rest : List Value) :
    folded vs ≠ some (.array (.function key :: rest)) := by
  match vs with
  | [] => nofun
  | [v] => nofun
  | v :: w :: vs =>
    intro heq
    cases heq

/-- **When the object holds the values of all keys**: when no key is the name of a property of
`Object.prototype`. -/
theorem keeps_iff (arrayNames : List JsString) (pairs : List Pair) :
    Keeps pairs (pairsToObject arrayNames pairs) ↔ ∀ p ∈ pairs, p.1 ∉ objectPrototypeNames := by
  constructor
  · intro hkeeps p hp hname
    have hne : valuesOf pairs p.1 ≠ [] := fun hnil => valuesOf_eq_nil_iff.mp hnil p hp rfl
    -- a pair with this name may change what all the others inherit
    by_cases hproto : ∃ p ∈ pairs, p.1 = protoKey
    · obtain ⟨q, hq, hkey⟩ := hproto
      have hnone := hkeeps protoKey
      rw [protoKey_not_own] at hnone
      have hvalues : valuesOf pairs protoKey ≠ [] := fun hnil => valuesOf_eq_nil_iff.mp hnil q hq hkey
      match hvs : valuesOf pairs protoKey with
      | [] => exact hvalues hvs
      | [v] => rw [hvs] at hnone; cases hnone
      | v :: w :: vs => rw [hvs] at hnone; cases hnone
    · have hown := (ownValues_eq arrayNames fun p hp hkey => hproto ⟨p, hp, hkey⟩).2 p.1
      rw [hkeeps p.1, ownValues, if_pos hname, if_neg hne] at hown
      exact folded_ne_function _ _ _ hown
  · intro hnames key
    have hproto : ∀ p ∈ pairs, p.1 ≠ protoKey := by
      intro p hp hkey
      exact hnames p hp (hkey ▸ protoKey_mem)
    rw [(ownValues_eq arrayNames hproto).2 key, ownValues]
    by_cases hname : key ∈ objectPrototypeNames
    · -- a name of `Object.prototype` has no values
      have hnil : valuesOf pairs key = [] :=
        valuesOf_eq_nil_iff.mpr fun p hp hkey => hnames p hp (hkey ▸ hname)
      rw [if_pos hname, hnil, if_pos rfl, folded]
    · rw [if_neg hname]

/-- The names of the functions of `Array.prototype`. -/
def arrayPrototypeNames : List JsString :=
  ["at", "concat", "constructor", "copyWithin", "entries", "every", "fill", "filter", "find", "findIndex",
    "findLast", "findLastIndex", "flat", "flatMap", "forEach", "includes", "indexOf", "join", "keys",
    "lastIndexOf", "map", "pop", "push", "reduce", "reduceRight", "reverse", "shift", "slice", "some",
    "sort", "splice", "toLocaleString", "toReversed", "toSorted", "toSpliced", "toString", "unshift",
    "values", "with"].map units

/-- The query string `constructor=1`: the object has the function `Object` and the value. -/
theorem constructor_not_kept :
    ¬ Keeps [(units "constructor", units "1")]
      (pairsToObject arrayPrototypeNames [(units "constructor", units "1")]) ∧
    (pairsToObject arrayPrototypeNames [(units "constructor", units "1")]).own.lookup
      (units "constructor") =
        some (.array [.function (units "constructor"), .string (units "1")]) := by
  have hown : (pairsToObject arrayPrototypeNames [(units "constructor", units "1")]).own.lookup
      (units "constructor") =
        some (.array [.function (units "constructor"), .string (units "1")]) := rfl
  refine ⟨fun hkeeps => ?_, hown⟩
  have hone : folded (valuesOf [(units "constructor", units "1")] (units "constructor")) =
      some (.string (units "1")) := rfl
  cases hown.symm.trans ((hkeeps _).trans hone)

end Castrum.PackedPairs
