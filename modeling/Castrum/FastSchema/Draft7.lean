import Castrum.FastSchema.Compile
import Castrum.FastSchema.Semantics
import Mathlib.Order.Filter.AtTopBot.Basic

/-!
# Castrum — draft-07 satisfaction

The declarative meaning of a JSON schema over a document, keyword by keyword, for the keywords the
fast path supports. It is stated over the schema itself and knows nothing of the compiler: a schema
object is satisfied when every keyword in it holds, and an object with `$ref` when the schema its
JSON pointer leads to is.

A keyword whose value does not have the form the specification gives it asserts nothing; an empty
`type`, `anyOf` or `oneOf` array is such a value. Strings are read through a `Reading` of their
bodies.

* `KeywordHolds` — the keywords;
* `Points` — JSON pointer evaluation (RFC 6901);
* `Satisfies` — satisfaction. References may nest; a document satisfies a schema when it does for
  every unfolding of them that is deep enough.
-/

namespace Castrum

/-- How the body of a string is read: its length in characters and its text. -/
structure Reading where
  len : Bytes → Nat
  text : Bytes → Bytes

inductive Keyword where
  | type | enum | const
  | multipleOf | maximum | exclusiveMaximum | minimum | exclusiveMinimum
  | maxLength | minLength | pattern | format
  | items | additionalItems | maxItems | minItems | uniqueItems | contains
  | maxProperties | minProperties | required | properties | patternProperties
  | additionalProperties | dependencies
  | allOf | anyOf | oneOf | not | ifThenElse

def Keyword.name : Keyword → String
  | .type => "type"
  | .enum => "enum"
  | .const => "const"
  | .multipleOf => "multipleOf"
  | .maximum => "maximum"
  | .exclusiveMaximum => "exclusiveMaximum"
  | .minimum => "minimum"
  | .exclusiveMinimum => "exclusiveMinimum"
  | .maxLength => "maxLength"
  | .minLength => "minLength"
  | .pattern => "pattern"
  | .format => "format"
  | .items => "items"
  | .additionalItems => "additionalItems"
  | .maxItems => "maxItems"
  | .minItems => "minItems"
  | .uniqueItems => "uniqueItems"
  | .contains => "contains"
  | .maxProperties => "maxProperties"
  | .minProperties => "minProperties"
  | .required => "required"
  | .properties => "properties"
  | .patternProperties => "patternProperties"
  | .additionalProperties => "additionalProperties"
  | .dependencies => "dependencies"
  | .allOf => "allOf"
  | .anyOf => "anyOf"
  | .oneOf => "oneOf"
  | .not => "not"
  | .ifThenElse => "if"

/-! ## Keywords -/

section

variable (S : Oracles) (dom : Json → Option Value) (R : Reading)

/-- A keyword that constrains numbers, strings, arrays or objects only. -/
def onNum (v : Json) (f : F64 → Prop) : Prop := ∀ tok, v = .num tok → f (S.parseF64 tok)

def onStr (v : Json) (f : Bytes → Prop) : Prop := ∀ raw, v = .str raw → f raw

def onArr (v : Json) (f : List Json → Prop) : Prop := ∀ items, v = .arr items → f items

def onObj (v : Json) (f : List (Bytes × Json) → Prop) : Prop := ∀ ms, v = .obj ms → f ms

/-- The strings of an array of strings, if it is one. -/
def stringsOf (kv : Value) : List Bytes := (stringItems kv).getD []

/-- The names a `type` keyword lists. -/
def typeList : Value → List Bytes
  | .string t => [t]
  | kv => stringsOf kv

def HasType (t : Bytes) (v : Json) : Prop :=
  t = utf8 v.kind.name ∨
    (t = utf8 "integer" ∧ ∃ tok, v = .num tok ∧ (S.parseF64 tok).hasFract = false)

/-- The document parses to a value equal to `x`. -/
def Equals (x : Value) (v : Json) : Prop := ∃ y, dom v = some y ∧ sonicValuesEqual x y = true

/-- The keys of an object keyword such as `properties`. -/
def namesOf : Option Value → List Bytes
  | some (.object ms) => ms.map Prod.fst
  | _ => []

/-- The pattern `re` matches the key. -/
def MatchesKey (re key : Bytes) : Prop := ∃ rx, S.regexNew re = some rx ∧ covers S key rx = true

/-- The keys of an object of the document. -/
def keysOf (ms : List (Bytes × Json)) : List Bytes := ms.map fun m => R.text m.1

/-- The keyword `k` with value `kv`, in the schema object `map`, holds of `v`; `P` is what the
sub-schemas mean. -/
def KeywordHolds (P : Value → Json → Prop) (map : SchemaMap) (k : Keyword) (kv : Value)
    (v : Json) : Prop :=
  match k with
  | .type => typeList kv = [] ∨ ∃ t ∈ typeList kv, HasType S t v
  | .enum => ∀ members, kv = .array members → ∃ x ∈ members, Equals dom x v
  | .const => Equals dom kv v
  | .multipleOf => onNum S v fun n => ∀ m ∈ numberF64 kv, MultipleOf S n m
  | .maximum => onNum S v fun n => ∀ b ∈ numberF64 kv, b.lt n = false
  | .exclusiveMaximum => onNum S v fun n => ∀ b ∈ numberF64 kv, n.lt b = true
  | .minimum => onNum S v fun n => ∀ b ∈ numberF64 kv, n.lt b = false
  | .exclusiveMinimum => onNum S v fun n => ∀ b ∈ numberF64 kv, b.lt n = true
  | .maxLength => onStr v fun raw => ∀ n ∈ nonnegUsize kv, R.len raw ≤ n
  | .minLength => onStr v fun raw => ∀ n ∈ nonnegUsize kv, n ≤ R.len raw
  | .pattern => onStr v fun raw =>
      ∀ re rx, kv = .string re → S.regexNew re = some rx → PatternHolds S rx (R.text raw)
  | .format => onStr v fun raw =>
      kv = .string (utf8 "email") → S.isValidEmailFormat (R.text raw) = true
  | .items => onArr v fun items =>
      (∀ tuple, kv = .array tuple →
        ∀ (i : Nat) s w, tuple[i]? = some s → items[i]? = some w → P s w) ∧
      ((∀ tuple, kv ≠ .array tuple) → ∀ w ∈ items, P kv w)
  | .additionalItems => onArr v fun items =>
      ∀ tuple, get? map "items" = some (.array tuple) →
        ∀ (i : Nat) w, tuple.length ≤ i → items[i]? = some w → P kv w
  | .maxItems => onArr v fun items => ∀ n ∈ nonnegUsize kv, items.length ≤ n
  | .minItems => onArr v fun items => ∀ n ∈ nonnegUsize kv, n ≤ items.length
  | .uniqueItems => onArr v fun items => kv = .bool true →
      (items.filterMap dom).Pairwise fun x y => sonicValuesEqual x y = false
  | .contains => onArr v fun items => ∃ w ∈ items, P kv w
  | .maxProperties => onObj v fun ms => ∀ n ∈ nonnegUsize kv, (keysOf R ms).dedup.length ≤ n
  | .minProperties => onObj v fun ms => ∀ n ∈ nonnegUsize kv, n ≤ (keysOf R ms).dedup.length
  | .required => onObj v fun ms => ∀ key ∈ stringsOf kv, key ∈ keysOf R ms
  | .properties => onObj v fun ms => ∀ props, kv = .object props →
      ∀ p ∈ props, ∀ m ∈ ms, R.text m.1 = p.1 → P p.2 m.2
  | .patternProperties => onObj v fun ms => ∀ pats, kv = .object pats →
      ∀ p ∈ pats, ∀ m ∈ ms, MatchesKey S p.1 (R.text m.1) → P p.2 m.2
  | .additionalProperties => onObj v fun ms => ∀ m ∈ ms,
      R.text m.1 ∉ namesOf (get? map "properties") →
      (∀ re ∈ namesOf (get? map "patternProperties"), ¬ MatchesKey S re (R.text m.1)) → P kv m.2
  | .dependencies => onObj v fun ms => ∀ deps, kv = .object deps →
      ∀ d ∈ deps, d.1 ∈ keysOf R ms → ∀ key ∈ stringsOf d.2, key ∈ keysOf R ms
  | .allOf => ∀ subs, kv = .array subs → ∀ s ∈ subs, P s v
  | .anyOf => ∀ subs, kv = .array subs → subs ≠ [] → ∃ s ∈ subs, P s v
  | .oneOf => ∀ subs, kv = .array subs → subs ≠ [] → ExactlyOne (P · v) subs
  | .not => ¬ P kv v
  | .ifThenElse => (P kv v → ∀ t ∈ get? map "then", P t v) ∧
      (¬ P kv v → ∀ e ∈ get? map "else", P e v)

/-! ## References -/

/-- One step of a JSON pointer: a member by its unescaped key, an element by its index. -/
inductive Step : Value → Bytes → Value → Prop where
  | member {map : SchemaMap} {k : Bytes} {v : Value} : (k, v) ∈ map →
      Step (.object map) (escapePointer k) v
  | element {items : List Value} {i : Nat} {v : Value} : items[i]? = some v →
      Step (.array items) (decimal i) v

/-- The pointer leads from the first value to the second. -/
inductive Points : Value → Bytes → Value → Prop where
  | here (v : Value) : Points v [] v
  | step {v w u : Value} {tok rest : Bytes} : Step v tok w → Points w rest u →
      Points v (47 :: (tok ++ rest)) u

/-! ## Schemas -/

/-- One level of satisfaction. -/
def SchemaHolds (root : Value) (P : Value → Json → Prop) (schema : Value) (v : Json) : Prop :=
  match schema with
  | .bool b => b = true
  | .object map =>
    match get? map "$ref" with
    | some (.string r) => ∃ pointer target, r = 35 :: pointer ∧ Points root pointer target ∧
        P target v
    | _ => ∀ k kv, get? map k.name = some kv → KeywordHolds S dom R P map k kv v
  | _ => False

/-- Satisfaction with the schema unfolded `n` levels. -/
def satN (root : Value) : Nat → Value → Json → Prop
  | 0 => fun _ _ => False
  | n + 1 => SchemaHolds S dom R root (satN root n)

/-- The document satisfies the schema, in the schema document `root`. -/
def Satisfies (root schema : Value) (v : Json) : Prop :=
  ∀ᶠ n in Filter.atTop, satN S dom R root n schema v

end

end Castrum
