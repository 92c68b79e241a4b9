import Castrum.FastSchema.Types
import Castrum.Json.Decimal
import Castrum.Lib.StateOption

/-!
# Castrum — the schema compiler (`rust/json/fast_schema/compile.rs`)

A `serde_json` schema becomes a `FastNode`, or `none` (`Err(())`) when it uses something outside
the supported subset. The state is the index of sub-schemas by JSON pointer, the cache of compiled
`$ref` targets, and the stack of targets being compiled. A key of a schema object occurs once.

The functions take `sub`, the recursive call; `compileLevels` ties the knot over a fuel that bounds
how deep schemas and references nest.
-/

namespace Castrum

/-- The members of a schema object. -/
abbrev SchemaMap := List (Bytes × Value)

/-- `map.get(name)`. -/
def get? (map : SchemaMap) (name : String) : Option Value := map.lookup (utf8 name)

/-- `[..].iter().any(|k| map.contains_key(*k))`. -/
def hasAny (map : SchemaMap) (names : List String) : Bool :=
  names.any fun name => (get? map name).isSome

/-! ## Leaves -/

def Value.asStr : Value → Option Bytes
  | .string s => some s
  | _ => none

def Value.asArray : Value → Option (List Value)
  | .array items => some items
  | _ => none

/-- `nonneg_usize`. -/
def nonnegUsize : Value → Option Nat
  | .number n => n.asU64
  | _ => none

/-- `number_f64`. -/
def numberF64 : Value → Option F64
  | .number n => n.asF64.map .fin
  | _ => none

/-- A keyword that may be missing but not malformed. -/
def optional {α : Type} (f : Value → Option α) : Option Value → Option (Option α)
  | none => some none
  | some v => (f v).map some

/-- The bit of a type name. -/
def typeBit (s : Bytes) : Option UInt8 :=
  if s = utf8 "null" then some tNull
  else if s = utf8 "boolean" then some tBool
  else if s = utf8 "number" then some tNum
  else if s = utf8 "integer" then some tInt
  else if s = utf8 "string" then some tStr
  else if s = utf8 "array" then some tArr
  else if s = utf8 "object" then some tObj
  else none

def addTypes : List Value → UInt8 → Option UInt8
  | [], mask => some mask
  | x :: xs, mask => do
    let bit ← typeBit (← x.asStr)
    addTypes xs (mask ||| bit)

def compileType : Value → Option UInt8
  | .string s => addTypes [.string s] 0
  | .array items => addTypes items 0
  | _ => none

/-- RFC 6901 escaping (`escape_pointer`). -/
def escapePointer (s : Bytes) : Bytes :=
  s.flatMap fun b => if b = 126 then [126, 48] else if b = 47 then [126, 49] else [b]

def insertKey (keys : List Bytes) (key : Bytes) : List Bytes :=
  if key ∈ keys then keys else keys ++ [key]

theorem nodup_foldl_insertKey {keys ks : List Bytes} (h : keys.Nodup) :
    (ks.foldl insertKey keys).Nodup := by
  induction ks generalizing keys with
  | nil => exact h
  | cons k ks ih =>
    refine ih ?_
    unfold insertKey
    split
    · exact h
    · next hk =>
      refine List.nodup_append.mpr ⟨h, by simp, ?_⟩
      intro a ha b hb heq
      rw [List.mem_singleton.mp hb] at heq
      exact hk (heq ▸ ha)

/-- The bits of the required keys: each key gets the next bit the first time, and 64 are all. -/
def requiredKeys (ks : List Bytes) : Option RequiredKeys :=
  if h : (ks.foldl insertKey []).length ≤ 64 then
    some ⟨ks.foldl insertKey [], nodup_foldl_insertKey List.nodup_nil, h⟩
  else none

/-- The strings of an array of strings. -/
def stringItems (v : Value) : Option (List Bytes) := do
  let items ← v.asArray
  items.mapM Value.asStr

def compileRequired : Option Value → Option RequiredKeys
  | none => requiredKeys []
  | some v => (stringItems v).bind requiredKeys

/-- The array form of one dependency. -/
def compileDependency (dep : Bytes × Value) : Option (Bytes × List Bytes) :=
  (stringItems dep.2).map (dep.1, ·)

def compileEnum (v : Value) : Option ValueConstraint := v.asArray.map .enum

section

variable (S : Oracles)

/-- `pattern`; a value that is no string is passed over. -/
def compilePattern : Option Value → Option (Option S.Regex)
  | some (.string re) => (S.regexNew re).map some
  | _ => some none

def isEmailFormat : Option Value → Bool
  | some (.string f) => f = utf8 "email"
  | _ => false

def compileStringConstraints (map : SchemaMap) : Option (FastString S.Regex) := do
  let minLen ← optional nonnegUsize (get? map "minLength")
  let maxLen ← optional nonnegUsize (get? map "maxLength")
  let pattern ← compilePattern S (get? map "pattern")
  some ⟨minLen, maxLen, pattern, isEmailFormat (get? map "format")⟩

def compileNumberConstraints (map : SchemaMap) : Option FastNumber := do
  let minimum ← optional numberF64 (get? map "minimum")
  let maximum ← optional numberF64 (get? map "maximum")
  let exclusiveMin ← optional numberF64 (get? map "exclusiveMinimum")
  let exclusiveMax ← optional numberF64 (get? map "exclusiveMaximum")
  let multipleOf ← optional numberF64 (get? map "multipleOf")
  some ⟨minimum, maximum, exclusiveMin, exclusiveMax, multipleOf⟩

/-! ## References -/

structure CompileCtx where
  refs : List (Bytes × Value)
  cache : List (Bytes × FastNode S.Regex)
  inProgress : List Bytes

/-- A compilation; `M` is how it may end. -/
abbrev CompileIn (M : Type → Type) := StateT (CompileCtx S) M

/-- A compilation that ends in a result or in `Err(())`. -/
abbrev CompileM := CompileIn S Option

end

mutual

/-- Every object or bool value of the schema with its pointer (`collect_refs`). -/
def collectRefs : Value → Bytes → List (Bytes × Value)
  | .object map, ptr =>
    (if ptr.isEmpty then [] else [(ptr, .object map)]) ++ collectMembers map ptr
  | .bool b, ptr => if ptr.isEmpty then [] else [(ptr, .bool b)]
  | .array items, ptr => collectItems items 0 ptr
  | _, _ => []

def collectMembers : List (Bytes × Value) → Bytes → List (Bytes × Value)
  | [], _ => []
  | (k, v) :: ms, ptr => collectRefs v (ptr ++ 47 :: escapePointer k) ++ collectMembers ms ptr

def collectItems : List Value → Nat → Bytes → List (Bytes × Value)
  | [], _, _ => []
  | v :: vs, i, ptr => collectRefs v (ptr ++ 47 :: decimal i) ++ collectItems vs (i + 1) ptr

end

/-- The pointer index of a schema; a later entry of a pointer replaces an earlier one. -/
def refIndex (schema : Value) : List (Bytes × Value) :=
  (([], schema) :: collectRefs schema []).reverse

section

variable (S : Oracles) {M : Type → Type} [Failing M]

/-- Resolve an in-document `$ref` (`compile_ref`). -/
def compileRef (sub : Value → String → CompileIn S M (FastNode S.Regex)) (r : Bytes) :
    CompileIn S M (FastNode S.Regex) := fun ctx =>
  match r with
  | 35 :: pointer =>
    if pointer ≠ [] ∧ pointer.head? ≠ some 47 then failure
    else
      match ctx.cache.lookup pointer with
      | some node => pure (node, ctx)
      | none =>
        if pointer ∈ ctx.inProgress then failure
        else
          match ctx.refs.lookup pointer with
          | none => failure
          | some target => do
            let (node, ctx) ← sub target (S.fromUtf8Lossy pointer)
              { ctx with inProgress := ctx.inProgress ++ [pointer] }
            pure (node, { ctx with
              inProgress := ctx.inProgress.dropLast, cache := (pointer, node) :: ctx.cache })
  | _ => failure

/-! ## Nodes -/

variable (sub : Value → String → CompileIn S M (FastNode S.Regex))

/-- A bool or an object schema in `additionalProperties` and `additionalItems`. -/
def compileAdditional (v : Value) (path : String) : CompileIn S M (Additional (FastNode S.Regex)) :=
  match v with
  | .bool true => pure .allow
  | .bool false => pure .deny
  | .object map => do
    let n ← sub (.object map) path
    pure (.schema n)
  | _ => failure

def compileAdditionalProps (v : Option Value) (path : String) :
    CompileIn S M (Additional (FastNode S.Regex)) :=
  match v with
  | none => pure .allow
  | some v => compileAdditional S sub v path

def compileProps (map : SchemaMap) (path : String) :
    CompileIn S M (List (Bytes × FastNode S.Regex)) :=
  match get? map "properties" with
  | some (.object props) => props.mapM fun p => do
    let n ← sub p.2 (path ++ "/properties/" ++ S.fromUtf8Lossy (escapePointer p.1))
    pure (p.1, n)
  | _ => pure []

def compilePatterns (map : SchemaMap) (path : String) :
    CompileIn S M (List (S.Regex × FastNode S.Regex)) :=
  match get? map "patternProperties" with
  | some (.object pats) => pats.mapM fun p => do
    let re ← liftOption (S.regexNew p.1)
    let n ← sub p.2 (path ++ "/patternProperties/" ++ S.fromUtf8Lossy (escapePointer p.1))
    pure (re, n)
  | _ => pure []

def compileDependencies (map : SchemaMap) : Option (List (Bytes × List Bytes)) :=
  match get? map "dependencies" with
  | some (.object deps) => deps.mapM compileDependency
  | _ => some []

def compileObjectConstraints (map : SchemaMap) (path : String) :
    CompileIn S M (FastObject S.Regex (FastNode S.Regex)) := do
  let props ← compileProps S sub map path
  let patterns ← compilePatterns S sub map path
  let required ← liftOption (compileRequired (get? map "required"))
  let additional ← compileAdditionalProps S sub (get? map "additionalProperties")
    (path ++ "/additionalProperties")
  let minProps ← liftOption (optional nonnegUsize (get? map "minProperties"))
  let maxProps ← liftOption (optional nonnegUsize (get? map "maxProperties"))
  let dependentRequired ← liftOption (compileDependencies map)
  pure ⟨props, patterns, required, additional, minProps, maxProps, dependentRequired⟩

/-- A list of sub-schemas at `path/0`, `path/1`, … -/
def compileSubs (items : List Value) (path : String) : CompileIn S M (List (FastNode S.Regex)) :=
  items.zipIdx.mapM fun p => sub p.1 (path ++ "/" ++ toString p.2)

/-- An optional sub-schema. -/
def compileSub? (v : Option Value) (path : String) : CompileIn S M (Option (FastNode S.Regex)) :=
  match v with
  | none => pure none
  | some v => do
    let n ← sub v path
    pure (some n)

/-- `items`: the tuple form and the single form. -/
def compileItems (map : SchemaMap) (path : String) :
    CompileIn S M (Option (FastNode S.Regex) × Option (List (FastNode S.Regex))) :=
  match get? map "items" with
  | some (.array tuple) => do
    let nodes ← compileSubs S sub tuple (path ++ "/items")
    pure (none, some nodes)
  | v => do
    let n ← compileSub? S sub v (path ++ "/items")
    pure (n, none)

/-- `additionalItems` only applies alongside tuple `items`. -/
def compileAdditionalItems (v : Option Value) (tupleItems : Option (List (FastNode S.Regex)))
    (path : String) : CompileIn S M (Option (Additional (FastNode S.Regex))) :=
  match v, tupleItems with
  | some v, some _ => do
    let add ← compileAdditional S sub v path
    pure (some add)
  | _, _ => pure none

def compileUnique : Option Value → Option Bool
  | none => some false
  | some (.bool b) => some b
  | some _ => none

def compileArrayConstraints (map : SchemaMap) (path : String) :
    CompileIn S M (FastArray (FastNode S.Regex)) := do
  let items ← compileItems S sub map path
  let additionalItems ← compileAdditionalItems S sub (get? map "additionalItems") items.2
    (path ++ "/additionalItems")
  let minItems ← liftOption (optional nonnegUsize (get? map "minItems"))
  let maxItems ← liftOption (optional nonnegUsize (get? map "maxItems"))
  let unique ← liftOption (compileUnique (get? map "uniqueItems"))
  let contains ← compileSub? S sub (get? map "contains") (path ++ "/contains")
  pure ⟨items.1, items.2, additionalItems, minItems, maxItems, unique, contains⟩

/-- `allOf`, `anyOf` and `oneOf`; a value that is no array is passed over. -/
def compileBranches (map : SchemaMap) (name path : String) :
    CompileIn S M (List (FastNode S.Regex)) :=
  match get? map name with
  | some (.array items) => compileSubs S sub items (path ++ "/" ++ name)
  | _ => pure []

def compileIf (map : SchemaMap) (path : String) :
    CompileIn S M
      (Option (FastNode S.Regex × Option (FastNode S.Regex) × Option (FastNode S.Regex))) :=
  match get? map "if" with
  | none => pure none
  | some v => do
    let ifNode ← sub v (path ++ "/if")
    let thenNode ← compileSub? S sub (get? map "then") (path ++ "/then")
    let elseNode ← compileSub? S sub (get? map "else") (path ++ "/else")
    pure (some (ifNode, thenNode, elseNode))

def compileCombinators (map : SchemaMap) (path : String) :
    CompileIn S M (FastComb (FastNode S.Regex)) := do
  let allOf ← compileBranches S sub map "allOf" path
  let anyOf ← compileBranches S sub map "anyOf" path
  let oneOf ← compileBranches S sub map "oneOf" path
  let not ← compileSub? S sub (get? map "not") (path ++ "/not")
  let ifThenElse ← compileIf S sub map path
  pure ⟨allOf, anyOf, oneOf, not, ifThenElse⟩

/-- A group of constraints, compiled when one of its keywords is there. -/
def whenAny {α : Type} (map : SchemaMap) (names : List String) (m : CompileIn S M α) :
    CompileIn S M (Option α) :=
  if hasAny map names then do
    let a ← m
    pure (some a)
  else pure none

def isNumberOrMissing (v : Option Value) : Bool :=
  match v with
  | none | some (.number _) => true
  | _ => false

/-- What the fast path cannot honor under draft-07. -/
def unsupported (map : SchemaMap) : Bool :=
  (get? map "propertyNames").isSome ||
  (match get? map "dependencies" with
    | some (.object deps) => deps.any fun d => d.2.asArray.isNone
    | _ => false) ||
  (match get? map "format" with
    | some (.string f) => f ≠ utf8 "email"
    | _ => false) ||
  !isNumberOrMissing (get? map "exclusiveMinimum") ||
  !isNumberOrMissing (get? map "exclusiveMaximum") ||
  ((get? map "enum").isSome && (get? map "const").isSome)

def compileValue (map : SchemaMap) : Option (Option ValueConstraint) :=
  match get? map "enum" with
  | some v => (compileEnum v).map some
  | none => some ((get? map "const").map .const)

def objectNames : List String :=
  ["required", "properties", "patternProperties", "additionalProperties", "minProperties",
    "maxProperties", "dependencies"]

def arrayNames : List String :=
  ["items", "additionalItems", "minItems", "maxItems", "uniqueItems", "contains"]

def stringNames : List String := ["minLength", "maxLength", "pattern", "format"]

def numberNames : List String :=
  ["minimum", "maximum", "exclusiveMinimum", "exclusiveMaximum", "multipleOf"]

def combNames : List String := ["allOf", "anyOf", "oneOf", "not", "if", "then", "else"]

/-- The keywords of an object schema without `$ref`. -/
def compileKeywords (map : SchemaMap) (path : String) : CompileIn S M (FastNode S.Regex) :=
  if unsupported map then failure
  else do
    let types ← liftOption ((optional compileType (get? map "type")).map (·.getD 0))
    let obj ← whenAny S map objectNames (compileObjectConstraints S sub map path)
    let arr ← whenAny S map arrayNames (compileArrayConstraints S sub map path)
    let str ← whenAny S map stringNames (liftOption (compileStringConstraints S map))
    let num ← whenAny S map numberNames (liftOption (compileNumberConstraints map))
    let comb ← whenAny S map combNames (compileCombinators S sub map path)
    let value ← liftOption (compileValue map)
    pure ⟨false, types, obj, arr, str, num, comb, value, some path⟩

/-- One level of `compile_node`. -/
def compileNode (schema : Value) (path : String) : CompileIn S M (FastNode S.Regex) :=
  match schema with
  | .bool true => pure .any
  | .bool false => pure .neverNode
  | .object map =>
    -- under draft-07 the siblings of `$ref` are ignored
    match get? map "$ref" with
    | some (.string r) => compileRef S sub r
    | _ => compileKeywords S sub map path
  | _ => failure

end

section

variable (S : Oracles)

/-- `compile_node` to a nesting of `fuel` levels. -/
def compileLevels : Nat → Value → String → CompileM S (FastNode S.Regex)
  | 0, _, _ => failure
  | fuel + 1, schema, path => compileNode S (compileLevels fuel) schema path

/-- A `$schema` other than draft-07. -/
def otherDraft : Value → Bool
  | .object map =>
    match get? map "$schema" with
    | some (.string ss) => ¬ (utf8 "draft-07" <:+: ss)
    | _ => false
  | _ => false

/-- Compile a schema, or `none` for `Err(())` (`compile`). -/
def compile (fuel : Nat) (schema : Value) : Option (FastNode S.Regex) :=
  if otherDraft schema then none
  else (compileLevels S fuel schema "" ⟨refIndex schema, [], []⟩).map Prod.fst

end

end Castrum
