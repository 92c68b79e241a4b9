import Castrum.FastSchema.Equality
import Castrum.FastSchema.Strings

/-!
# Castrum — the compiled fast-path schema (`rust/json/fast_schema/types.rs`)

The nodes `compile` builds and the walk reads. Sub-schemas are nodes of the same type; the
constraint records are generic in it, so that `FastNode` ties the knot once.

`Oracles` gathers the crates the fast path calls: `f64` parsing and printing, `fraction`,
`fancy_regex`, `sonic_rs::from_slice`, and the e-mail format check.
-/

namespace Castrum

/-- An `f64` that can come out of a JSON number: a finite value or an infinity. -/
inductive F64 where
  | negInf
  | fin (q : ℚ)
  | posInf
  deriving DecidableEq

/-- `a < b` on `f64`s that are not NaN. -/
def F64.lt : F64 → F64 → Bool
  | .negInf, .negInf => false
  | .negInf, _ => true
  | .fin _, .negInf => false
  | .fin a, .fin b => decide (a < b)
  | .fin _, .posInf => true
  | .posInf, _ => false

/-- `a <= b`. -/
def F64.le (a b : F64) : Bool := !F64.lt b a

/-- `n.fract() != 0.0`; the fraction of an infinity is NaN. -/
def F64.hasFract : F64 → Bool
  | .fin q => q.den != 1
  | _ => true

/-- What the fast path takes from other crates. `isMatch` is only asked about valid UTF-8;
`bigFraction` is `BigFraction::from` on a finite `f64`, which reads its shortest decimal form. -/
structure Oracles where
  parseF64 : Bytes → F64
  showF64 : F64 → String
  bigFraction : ℚ → ℚ
  fromUtf8Lossy : Bytes → String
  Regex : Type
  regexNew : Bytes → Option Regex
  isMatch : Regex → Bytes → Bool
  isValidEmailFormat : Bytes → Bool
  fromSlice : Bytes → Option Value

/-- Oracles that can parse `null` and little else, for examples on small documents. -/
def Oracles.nullOnly : Oracles where
  parseF64 _ := .fin 0
  showF64 _ := "0"
  bigFraction q := q
  fromUtf8Lossy s := String.ofList (s.map fun b => Char.ofNat b.toNat)
  Regex := Unit
  regexNew _ := none
  isMatch _ _ := false
  isValidEmailFormat _ := false
  fromSlice s := if s = Ascii.nullTok then some .null else none

/-- `std::str::from_utf8(..).is_ok()`. -/
def validUtf8 (bytes : Bytes) : Bool := (ByteArray.mk bytes.toArray).validateUTF8

/-! ## Kinds -/

abbrev tNull : UInt8 := 1
abbrev tBool : UInt8 := 2
abbrev tNum : UInt8 := 4
abbrev tInt : UInt8 := 8
abbrev tStr : UInt8 := 16
abbrev tArr : UInt8 := 32
abbrev tObj : UInt8 := 64

inductive Kind where
  | null | boolean | number | string | array | object
  deriving DecidableEq

/-- The kind a first byte announces. -/
def kindOf (b : UInt8) : Option Kind :=
  if b = 123 then some .object
  else if b = 91 then some .array
  else if b = 34 then some .string
  else if b = 116 ∨ b = 102 then some .boolean
  else if b = 110 then some .null
  else if b = 45 ∨ isDigit b then some .number
  else none

/-! ## Constraint records -/

structure FastString (Re : Type) where
  minLen : Option Nat
  maxLen : Option Nat
  pattern : Option Re
  formatEmail : Bool

structure FastNumber where
  minimum : Option F64
  maximum : Option F64
  exclusiveMin : Option F64
  exclusiveMax : Option F64
  multipleOf : Option F64

inductive Additional (N : Type) where
  | allow
  | deny
  | schema (n : N)

structure FastArray (N : Type) where
  items : Option N
  tupleItems : Option (List N)
  additionalItems : Option (Additional N)
  minItems : Option Nat
  maxItems : Option Nat
  unique : Bool
  contains : Option N

/-- The required keys; the bit of a key is its index, so that there are at most 64. -/
structure RequiredKeys where
  keys : List Bytes
  nodup : keys.Nodup
  length_le : keys.length ≤ 64

/-- Object constraints. The hash maps are association lists in insertion order. -/
structure FastObject (Re N : Type) where
  props : List (Bytes × N)
  patterns : List (Re × N)
  required : RequiredKeys
  additional : Additional N
  minProps : Option Nat
  maxProps : Option Nat
  dependentRequired : List (Bytes × List Bytes)

/-- `allOf`, `anyOf`, `oneOf`, `not` and `(if, then, else)`. -/
structure FastComb (N : Type) where
  allOf : List N
  anyOf : List N
  oneOf : List N
  not : Option N
  ifThenElse : Option (N × Option N × Option N)

/-- One compiled schema node; `types` is a bitmask of allowed kinds (`0` = any). -/
structure FastNode (Re : Type) where
  never : Bool
  types : UInt8
  obj : Option (FastObject Re (FastNode Re))
  arr : Option (FastArray (FastNode Re))
  str : Option (FastString Re)
  num : Option FastNumber
  comb : Option (FastComb (FastNode Re))
  value : Option ValueConstraint
  schemaPath : Option String

/-- `FastNode::any()`, the default node. -/
def FastNode.any {Re : Type} : FastNode Re :=
  ⟨false, 0, none, none, none, none, none, none, none⟩

/-- `FastNode::never()`. -/
def FastNode.neverNode {Re : Type} : FastNode Re := { FastNode.any with never := true }

def FastNode.base {Re : Type} (node : FastNode Re) : String := node.schemaPath.getD ""

/-- `props.get(key)`. -/
def FastObject.prop? {Re N : Type} (o : FastObject Re N) (key : Bytes) : Option N :=
  o.props.lookup key

end Castrum
