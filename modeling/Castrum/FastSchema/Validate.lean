import Castrum.FastSchema.Errors
import Castrum.FastSchema.Skip
import Castrum.FastSchema.Types

/-!
# Castrum — the validating walk (`rust/json/fast_schema/validate.rs`)

A compiled node is walked over raw bytes with a cursor. One walk serves bool mode, detailed mode
and derive capture; what differs is the `Ctx`. A walk returns its verdict with the cursor and the
context it leaves behind.

Every function takes `walk`, the recursive call on a sub-schema, so that each can be specified on
its own; `validateLevels` ties the knot. It recurses on the levels left below `MAX_DEPTH`: a walk
that runs out of them is one that `enter_depth` refuses.
-/

namespace Castrum

open Ascii

/-- What a walk leaves behind. -/
structure Walk where
  ok : Bool
  c : Cursor
  ctx : Ctx

/-- A keyword that failed, and the message recorded for it. -/
abbrev Fault := String × String

/-- Record the fault, if there is one; the verdict is whether there was none. -/
def Ctx.report (ctx : Ctx) (base : String) : Option Fault → Bool × Ctx
  | none => (true, ctx)
  | some (keyword, message) => (false, ctx.record base keyword message)

/-- `Ctx::with_suppressed`. -/
def Ctx.withSuppressed (ctx : Ctx) (f : Ctx → Bool × Ctx) : Bool × Ctx :=
  let r := f { ctx with suppress := true }
  (r.1, { r.2 with suppress := ctx.suppress })

/-- One optional bound: a fault when it is set and `bad`. -/
def failWhen {α : Type} (bound : Option α) (bad : α → Bool) (keyword : String)
    (message : α → String) : Option Fault :=
  match bound with
  | some b => if bad b then some (keyword, message b) else none
  | none => none

/-! ## `type` -/

def Kind.name : Kind → String
  | .object => "object"
  | .array => "array"
  | .string => "string"
  | .number => "number"
  | .boolean => "boolean"
  | .null => "null"

/-- The type bits that allow a kind. -/
def Kind.mask : Kind → UInt8
  | .number => tNum ||| tInt
  | .null => tNull
  | .boolean => tBool
  | .string => tStr
  | .array => tArr
  | .object => tObj

def typeNames (mask : UInt8) : String :=
  let names := ([(tNull, "null"), (tBool, "boolean"), (tNum, "number"), (tInt, "integer"),
    (tStr, "string"), (tArr, "array"), (tObj, "object")].filter (fun p => mask &&& p.1 ≠ 0)).map
      Prod.snd
  if names.isEmpty then "any value" else String.intercalate " or " names

section

variable {Re : Type}

/-- The `type` check on the first byte of the value. -/
def FastNode.typeFault (node : FastNode Re) (b : UInt8) : Option Fault :=
  if node.types = 0 then none
  else
    match kindOf b with
    | none => some ("type", "unexpected JSON token")
    | some k =>
      if node.types &&& k.mask ≠ 0 then none
      else some ("type", "expected " ++ typeNames node.types ++ " but found " ++ k.name)

/-- `type: "integer"` without `number`. -/
def FastNode.integerOnly (node : FastNode Re) : Bool :=
  node.types &&& tInt ≠ 0 && node.types &&& tNum = 0

end

/-! ## Scalars -/

section

variable (S : Oracles)

/-- Exact divisibility (`is_multiple_of`). A zero divisor gives an infinite fraction, which has no
denominator; the quotient by `0` of `ℚ` has the denominator `1`. -/
def isMultipleOf : F64 → F64 → Bool
  | .fin value, .fin multiple =>
    if value = 0 then true
    else if |value| < multiple then false
    else (S.bigFraction value / S.bigFraction multiple).den = 1
  | _, _ => false

def FastNumber.fault (num : FastNumber) (n : F64) : Option Fault :=
  failWhen num.minimum (n.lt ·) "minimum" ("number must be >= " ++ S.showF64 ·) <|>
  failWhen num.maximum (·.lt n) "maximum" ("number must be <= " ++ S.showF64 ·) <|>
  failWhen num.exclusiveMin (n.le ·) "exclusiveMinimum" ("number must be > " ++ S.showF64 ·) <|>
  failWhen num.exclusiveMax (·.le n) "exclusiveMaximum" ("number must be < " ++ S.showF64 ·) <|>
  failWhen num.multipleOf (!isMultipleOf S n ·) "multipleOf"
    ("number must be a multiple of " ++ S.showF64 ·)

/-- The number branch of `validate_kind`, on the token. -/
def FastNode.numberFault (node : FastNode S.Regex) (tok : Bytes) : Option Fault :=
  let n := S.parseF64 tok
  if node.integerOnly && n.hasFract then some ("type", "expected an integer")
  else
    match node.num with
    | some num => num.fault S n
    | none => none

/-- The `pattern` check on the decoded text. -/
def patternFault (re : S.Regex) (text : Bytes) : Option Fault :=
  if validUtf8 text = false then some ("pattern", "string is not valid UTF-8")
  else if S.isMatch re text then none
  else some ("pattern", "string does not match the required pattern")

/-- `validate_string`, on the raw body. -/
def FastString.fault (str : FastString S.Regex) (inner : Bytes) : Option Fault :=
  failWhen str.minLen (countChars inner < ·) "minLength"
    (fun min => "string is shorter than " ++ toString min ++ " characters") <|>
  failWhen str.maxLen (· < countChars inner) "maxLength"
    (fun max => "string is longer than " ++ toString max ++ " characters") <|>
  (str.pattern.bind fun re => patternFault S re (textOf inner)) <|>
  if str.formatEmail && !S.isValidEmailFormat (textOf inner) then
    some ("format", "string is not a valid email address")
  else none

def FastNode.stringFault (node : FastNode S.Regex) (inner : Bytes) : Option Fault :=
  match node.str with
  | some str => str.fault S inner
  | none => none

end

/-! ## Object bookkeeping -/

/-- Distinct keys seen so far: up to 16 keys of at most 48 bytes inline, then on the heap. -/
inductive DistinctKeys where
  | inline (keys : List Bytes)
  | heap (keys : List Bytes)

def inlineDistinct : Nat := 16

def inlineKeyBytes : Nat := 48

def DistinctKeys.new : DistinctKeys := .inline []

def DistinctKeys.insert : DistinctKeys → Bytes → DistinctKeys
  | .inline keys, key =>
    if key ∈ keys then .inline keys
    else if keys.length < inlineDistinct ∧ key.length ≤ inlineKeyBytes then .inline (keys ++ [key])
    else .heap (keys ++ [key])
  | .heap keys, key => if key ∈ keys then .heap keys else .heap (keys ++ [key])

def DistinctKeys.len : DistinctKeys → Nat
  | .inline keys => keys.length
  | .heap keys => keys.length

/-- What the member loop carries. `seenRequired` is the bitmask of required keys. -/
structure ObjState where
  count : Nat
  seenRequired : Nat
  objOk : Bool
  distinct : Option DistinctKeys
  present : Option (List Bytes)

section

variable {Re N : Type}

def FastObject.init (o : FastObject Re N) : ObjState where
  count := 0
  seenRequired := 0
  objOk := true
  distinct := if o.minProps.isSome || o.maxProps.isSome then some .new else none
  present := if o.dependentRequired.isEmpty then none else some []

/-- Note one member key. -/
def FastObject.note (o : FastObject Re N) (st : ObjState) (key : Bytes) : ObjState where
  count := st.count + 1
  seenRequired :=
    match o.required.keys.idxOf? key with
    | some bit => st.seenRequired ||| 1 <<< bit
    | none => st.seenRequired
  objOk := st.objOk
  distinct := st.distinct.map (·.insert key)
  present := st.present.map (· ++ [key])

/-- The keys whose bit is not set, for the message. -/
def FastObject.missing (o : FastObject Re N) (seen : Nat) : List Bytes :=
  (o.required.keys.zipIdx.filter fun p => !seen.testBit p.2).map Prod.fst

def FastObject.requiredFault (o : FastObject Re N) (lossy : Bytes → String) (seen : Nat) :
    Option Fault :=
  let requiredCount := o.required.keys.length
  if 0 < requiredCount ∧ seen ≠ 2 ^ requiredCount - 1 then
    some ("required", "missing required properties: " ++
      String.intercalate ", " ((o.missing seen).map lossy))
  else none

/-- The first requirement of `prop` that is not among the present keys. -/
def dependencyFault (lossy : Bytes → String) (present : List Bytes) (dep : Bytes × List Bytes) :
    Option Fault :=
  if dep.1 ∈ present then
    (dep.2.find? (· ∉ present)).map fun r =>
      ("dependencies", "property \"" ++ lossy dep.1 ++ "\" requires property \"" ++ lossy r ++ "\"")
  else none

/-- `finish_object`. -/
def FastObject.fault (o : FastObject Re N) (lossy : Bytes → String) (st : ObjState) :
    Option Fault :=
  let total := (st.distinct.map DistinctKeys.len).getD st.count
  failWhen o.minProps (total < ·) "minProperties"
    (fun min => "object must have at least " ++ toString min ++ " properties") <|>
  failWhen o.maxProps (· < total) "maxProperties"
    (fun max => "object must have at most " ++ toString max ++ " properties") <|>
  o.requiredFault lossy st.seenRequired <|>
  st.present.bind fun present => o.dependentRequired.findSome? (dependencyFault lossy present)

end

/-! ## Array bookkeeping -/

/-- What the element loop carries. -/
structure ArrState where
  count : Nat
  arrOk : Bool
  uniqueSeen : Option (List Value)
  containsFound : Bool

section

variable {N : Type}

def FastArray.init (a : FastArray N) : ArrState where
  count := 0
  arrOk := true
  uniqueSeen := if a.unique then some [] else none
  containsFound := a.contains.isNone

/-- The early `maxItems` exit of the loop. -/
def FastArray.overflow (a : FastArray N) (count : Nat) : Option Fault :=
  failWhen a.maxItems (· < count) "maxItems"
    (fun max => "array has more than " ++ toString max ++ " items")

/-- `check_array_counts`. -/
def FastArray.countFault (a : FastArray N) (count : Nat) : Option Fault :=
  failWhen a.minItems (count < ·) "minItems"
    (fun min => "array must have at least " ++ toString min ++ " items") <|>
  failWhen a.maxItems (· < count) "maxItems"
    (fun max => "array must have at most " ++ toString max ++ " items")

/-- `check_array_counts(..) && contains_ok(..)`. -/
def FastArray.fault (a : FastArray N) (st : ArrState) : Option Fault :=
  a.countFault st.count <|>
  if a.contains.isSome && !st.containsFound then
    some ("contains", "array does not contain a matching item")
  else none

end

/-! ## The walk -/

section

variable (S : Oracles) (walk : FastNode S.Regex → Cursor → Ctx → Walk)

/-- A sub-schema over a slice, on a cursor of its own. -/
def onRaw (sub : FastNode S.Regex) (raw : Cursor) (ctx : Ctx) : Bool × Ctx :=
  let r := walk sub raw ctx
  (r.ok, r.ctx)

/-- Skip the value at `c`. -/
def skipWalk (c : Cursor) (ctx : Ctx) : Walk :=
  let r := c.skipValue ctx.depth
  ⟨r.1, r.2, ctx⟩

/-- All of `subs` in order, up to the first that fails. -/
def walkAll (raw : Cursor) : List (FastNode S.Regex) → Ctx → Bool × Ctx
  | [], ctx => (true, ctx)
  | sub :: subs, ctx =>
    match onRaw S walk sub raw ctx with
    | (false, ctx) => (false, ctx)
    | (true, ctx) => walkAll raw subs ctx

/-- A suppressed sub-walk. -/
def probe (raw : Cursor) (sub : FastNode S.Regex) (ctx : Ctx) : Bool × Ctx :=
  ctx.withSuppressed fun ctx => onRaw S walk sub raw ctx

/-- `anyOf`: up to the first that passes. -/
def probeAny (raw : Cursor) : List (FastNode S.Regex) → Ctx → Bool × Ctx
  | [], ctx => (false, ctx)
  | sub :: subs, ctx =>
    match probe S walk raw sub ctx with
    | (true, ctx) => (true, ctx)
    | (false, ctx) => probeAny raw subs ctx

/-- `oneOf`: how many pass. -/
def probeCount (raw : Cursor) : List (FastNode S.Regex) → Ctx → Nat × Ctx
  | [], ctx => (0, ctx)
  | sub :: subs, ctx =>
    let r := probe S walk raw sub ctx
    let rest := probeCount raw subs r.2
    (rest.1 + r.1.toNat, rest.2)

def combAnyOf (comb : FastComb (FastNode S.Regex)) (base : String) (raw : Cursor) (ctx : Ctx) :
    Bool × Ctx :=
  if comb.anyOf.isEmpty then (true, ctx)
  else
    let r := probeAny S walk raw comb.anyOf ctx
    r.2.report base
      (if r.1 then none else some ("anyOf", "value does not match any of the allowed schemas"))

def combOneOf (comb : FastComb (FastNode S.Regex)) (base : String) (raw : Cursor) (ctx : Ctx) :
    Bool × Ctx :=
  if comb.oneOf.isEmpty then (true, ctx)
  else
    let r := probeCount S walk raw comb.oneOf ctx
    r.2.report base
      (if r.1 = 1 then none
      else some ("oneOf",
        if r.1 = 0 then "value matches none of the required schemas"
        else "value matches more than one of the required schemas"))

def combNot (comb : FastComb (FastNode S.Regex)) (base : String) (raw : Cursor) (ctx : Ctx) :
    Bool × Ctx :=
  match comb.not with
  | none => (true, ctx)
  | some sub =>
    let r := probe S walk raw sub ctx
    r.2.report base (if r.1 then some ("not", "value matches the forbidden schema") else none)

def combIf (comb : FastComb (FastNode S.Regex)) (raw : Cursor) (ctx : Ctx) : Bool × Ctx :=
  match comb.ifThenElse with
  | none => (true, ctx)
  | some (ifNode, thenNode, elseNode) =>
    let r := probe S walk raw ifNode ctx
    match if r.1 then thenNode else elseNode with
    | none => (true, r.2)
    | some sub => onRaw S walk sub raw r.2

/-- `f` and then `g`, which is not run when `f` fails. -/
def andThen (f g : Ctx → Bool × Ctx) (ctx : Ctx) : Bool × Ctx :=
  match f ctx with
  | (false, ctx) => (false, ctx)
  | (true, ctx) => g ctx

/-- The combinators over the value's raw bytes (`validate_comb_raw`). -/
def validateCombRaw (node : FastNode S.Regex) (raw : Cursor) (ctx : Ctx) : Bool × Ctx :=
  match node.comb with
  | none => (true, ctx)
  | some comb =>
    andThen (walkAll S walk raw comb.allOf)
      (andThen (combAnyOf S walk comb node.base raw)
        (andThen (combOneOf S walk comb node.base raw)
          (andThen (combNot S walk comb node.base raw) (combIf S walk comb raw)))) ctx

/-- Does the pattern cover the key? -/
def covers (key : Bytes) (re : S.Regex) : Bool := validUtf8 key && S.isMatch re key

/-- The pattern loop over one member: whether a pattern matched, and the verdict. -/
def walkPatterns (key : Bytes) (raw : Cursor) :
    List (S.Regex × FastNode S.Regex) → Ctx → Bool × Bool × Ctx
  | [], ctx => (false, true, ctx)
  | (re, sub) :: patterns, ctx =>
    if covers S key re then
      match onRaw S walk sub raw ctx with
      | (false, ctx) => (true, false, ctx)
      | (true, ctx) =>
        let r := walkPatterns key raw patterns ctx
        (true, r.2)
    else walkPatterns key raw patterns ctx

/-- `additionalProperties` over a member no schema covers; `skip` is what `Allow` does. -/
def walkAdditional (additional : Additional (FastNode S.Regex)) (base : String)
    (c : Cursor) (ctx : Ctx) (allow : Walk) : Walk :=
  match additional with
  | .allow => allow
  | .deny =>
    ⟨false, c, ctx.record base "additionalProperties" "additional properties are not allowed"⟩
  | .schema sub => walk sub c ctx

/-- Every schema that applies to one member value, over its slice. -/
def memberRaw (o : FastObject S.Regex (FastNode S.Regex)) (base : String) (key : Bytes)
    (raw : Cursor) (ctx : Ctx) : Bool × Ctx :=
  andThen
    (fun ctx =>
      match o.prop? key with
      | some sub => onRaw S walk sub raw ctx
      | none => (true, ctx))
    (fun ctx =>
      match walkPatterns S walk key raw o.patterns ctx with
      | (_, false, ctx) => (false, ctx)
      | (matched, true, ctx) =>
        if matched || (o.prop? key).isSome then (true, ctx)
        else
          let r := walkAdditional S walk o.additional base raw ctx ⟨true, raw, ctx⟩
          (r.ok, r.ctx))
    ctx

/-- The value of one member. -/
def memberValue (o : FastObject S.Regex (FastNode S.Regex)) (base : String) (key : Bytes)
    (c : Cursor) (ctx : Ctx) : Walk :=
  if o.patterns.isEmpty then
    match o.prop? key with
    | some sub => walk sub c ctx
    | none => walkAdditional S walk o.additional base c ctx (skipWalk c ctx)
  else
    match c.skipValue ctx.depth with
    | (false, c') => ⟨false, c', ctx⟩
    | (true, c') =>
      let r := memberRaw S walk o base key (c'.slice c.pos) ctx
      ⟨r.1, c', r.2⟩

/-- One member value with its path step and its place in the capture trie. -/
def member (o : FastObject S.Regex (FastNode S.Regex)) (base : String) (key : Bytes)
    (c : Cursor) (ctx : Ctx) : Walk :=
  let r := memberValue S walk o base key c ((ctx.captureEnterKey c.ptr key).pushKey key)
  ⟨r.ok, r.c, ((r.ctx.captureRecordValue c.ptr c.pos r.c.pos).captureExitKey c.ptr).pop⟩

/-- Skip the remainder of a failed value that starts at `start`; no-op if it is malformed. -/
def realign (start c : Cursor) (depth : Nat) : Cursor :=
  match start.skipValue depth with
  | (true, c') => c'
  | (false, _) => c

/-- The member loop of `validate_object`. -/
def objectMembers (o : FastObject S.Regex (FastNode S.Regex)) (base : String) :
    Nat → ObjState → Cursor → Ctx → Walk
  | 0, _, c, ctx => ⟨false, c, ctx⟩
  | n + 1, st, c, ctx =>
    match c.skipWs.rawString with
    | (none, c) => ⟨false, c, ctx⟩
    | (some raw, c) =>
      match c.skipWs.eat colon with
      | (false, c) => ⟨false, c, ctx⟩
      | (true, c) =>
        let r := member S walk o base (textOf raw) c.skipWs ctx
        if !r.ok && !r.ctx.isDetailed then ⟨false, r.c, r.ctx⟩
        else
          let st := o.note { st with objOk := st.objOk && r.ok } (textOf raw)
          let c' := if r.ok then r.c else realign c.skipWs r.c r.ctx.depth
          match c'.skipWs.eat rbrace with
          | (true, c) =>
            let fin := r.ctx.report base (o.fault S.fromUtf8Lossy st)
            ⟨st.objOk && fin.1, c, fin.2⟩
          | (false, c) =>
            match c.eat comma with
            | (false, c) => ⟨false, c, r.ctx⟩
            | (true, c) => objectMembers o base n st c r.ctx

def validateObject (o : FastObject S.Regex (FastNode S.Regex)) (base : String) (c : Cursor)
    (ctx : Ctx) : Walk :=
  match c.eat lbrace with
  | (false, c) => ⟨false, c, ctx⟩
  | (true, c) =>
    match c.skipWs.eat rbrace with
    | (true, c) =>
      let fin := ctx.report base (o.fault S.fromUtf8Lossy o.init)
      ⟨fin.1, c, fin.2⟩
    | (false, c) => objectMembers S walk o base (c.rest.length + 1) o.init c ctx

/-- `validate_element`. -/
def validateElement (sub : FastNode S.Regex) (idx : Nat) (c : Cursor) (ctx : Ctx) : Walk :=
  let r := walk sub c (ctx.pushIdx idx)
  ⟨r.ok, r.c, r.ctx.pop⟩

/-- The schema of element `idx`, `deny` where there may be none. -/
def FastArray.schemaAt (a : FastArray (FastNode S.Regex)) (idx : Nat) :
    Additional (FastNode S.Regex) :=
  match a.tupleItems with
  | some tuple =>
    match tuple[idx]? with
    | some sub => .schema sub
    | none => a.additionalItems.getD .allow
  | none =>
    match a.items with
    | some sub => .schema sub
    | none => .allow

/-- The schema an element must satisfy. -/
def elementValue (a : FastArray (FastNode S.Regex)) (base : String) (idx : Nat) (c : Cursor)
    (ctx : Ctx) : Walk :=
  match a.schemaAt S idx with
  | .allow => skipWalk c ctx
  | .deny =>
    ⟨false, c, ((ctx.pushIdx idx).record base "additionalItems"
      "additional array items are not allowed").pop⟩
  | .schema sub => validateElement S walk sub idx c ctx

/-- `uniqueItems` on one element. -/
def uniqueItem (base : String) (raw : Cursor) (st : ArrState) (ctx : Ctx) : ArrState × Ctx :=
  match st.uniqueSeen with
  | none => (st, ctx)
  | some seen =>
    match S.fromSlice raw.data with
    | none => (st, ctx)
    | some val =>
      match uniqueStep seen val with
      | (false, _) =>
        ({ st with arrOk := false }, ctx.record base "uniqueItems" "array items must be unique")
      | (true, seen) => ({ st with uniqueSeen := some seen }, ctx)

/-- `contains` on one element. -/
def containsItem (a : FastArray (FastNode S.Regex)) (raw : Cursor) (st : ArrState) (ctx : Ctx) :
    ArrState × Ctx :=
  match st.containsFound, a.contains with
  | false, some con =>
    let r := probe S walk raw con ctx
    ({ st with containsFound := r.1 }, r.2)
  | _, _ => (st, ctx)

/-- The element loop of `validate_array`. -/
def arrayElements (a : FastArray (FastNode S.Regex)) (base : String) :
    Nat → ArrState → Cursor → Ctx → Walk
  | 0, _, c, ctx => ⟨false, c, ctx⟩
  | n + 1, st, c, ctx =>
    match a.overflow (st.count + 1) with
    | some fault => ⟨false, c, (ctx.report base (some fault)).2⟩
    | none =>
      let r := elementValue S walk a base st.count c ctx
      if !r.ok && !r.ctx.isDetailed then ⟨false, r.c, r.ctx⟩
      else
        let c' := if r.ok then r.c else realign c r.c r.ctx.depth
        let raw := c'.slice c.pos
        let u := uniqueItem S base raw
          { st with count := st.count + 1, arrOk := st.arrOk && r.ok } r.ctx
        let k := containsItem S walk a raw u.1 u.2
        match c'.skipWs.eat rbracket with
        | (true, c'') =>
          let fin := k.2.report base (a.fault k.1)
          ⟨k.1.arrOk && fin.1, c'', fin.2.captureRecordLength c.ptr k.1.count⟩
        | (false, c'') =>
          match c''.eat comma with
          | (false, c'') => ⟨false, c'', k.2⟩
          | (true, c'') => arrayElements a base n k.1 c''.skipWs k.2

def validateArray (a : FastArray (FastNode S.Regex)) (base : String) (c : Cursor) (ctx : Ctx) :
    Walk :=
  match c.eat lbracket with
  | (false, c) => ⟨false, c, ctx⟩
  | (true, c) =>
    match c.skipWs.eat rbracket with
    | (true, c) =>
      let fin := ctx.report base (a.fault a.init)
      ⟨fin.1, c, fin.2⟩
    | (false, c) => arrayElements S walk a base (c.rest.length + 1) a.init c ctx

/-- A literal token (`true`, `false`, `null`). -/
def validateLiteral (base : String) (tok : Bytes) (c : Cursor) (ctx : Ctx) : Walk :=
  match c.eatToken tok with
  | (true, c) => ⟨true, c, ctx⟩
  | (false, c) => ⟨false, c, ctx.record base "parse" "malformed literal"⟩

/-- Kind-specific structural constraints (`validate_kind`). -/
def validateKind (node : FastNode S.Regex) (c : Cursor) (ctx : Ctx) : Walk :=
  match c.peek with
  | none => ⟨false, c, ctx.record node.base "type" "expected a JSON value"⟩
  | some b =>
    if b = lbrace then
      match node.obj with
      | some o => validateObject S walk o node.base c ctx
      | none => skipWalk c ctx
    else if b = lbracket then
      match node.arr with
      | some a => validateArray S walk a node.base c ctx
      | none => skipWalk c ctx
    else if b = quote then
      match c.rawString with
      | (none, c) => ⟨false, c, ctx.record node.base "parse" "malformed string"⟩
      | (some inner, c) =>
        let r := ctx.report node.base (node.stringFault S inner)
        ⟨r.1, c, r.2⟩
    else if b = 116 then validateLiteral node.base trueTok c ctx
    else if b = 102 then validateLiteral node.base falseTok c ctx
    else if b = 110 then validateLiteral node.base nullTok c ctx
    else
      match c.number with
      | (none, c) => ⟨false, c, ctx.record node.base "parse" "malformed number"⟩
      | (some (tok, _), c) =>
        let r := ctx.report node.base (node.numberFault S tok)
        ⟨r.1, c, r.2⟩

/-- The structural constraints at `c`, then the combinators over the slice they consumed. -/
def validateStructure (node : FastNode S.Regex) (c : Cursor) (ctx : Ctx) : Walk :=
  let k := validateKind S walk node c ctx
  if k.ok then
    let r := validateCombRaw S walk node (k.c.slice c.pos) k.ctx
    ⟨r.1, k.c, r.2⟩
  else ⟨false, k.c, k.ctx⟩

/-- The `enum` / `const` branch: the value is parsed and compared, and then re-walked from its
own slice. -/
def validateValue (value : ValueConstraint) (node : FastNode S.Regex) (c : Cursor) (ctx : Ctx) :
    Walk :=
  match c.skipValue ctx.depth with
  | (false, c') => ⟨false, c', ctx.record node.base "parse" "malformed JSON value"⟩
  | (true, c') =>
    let raw := c'.slice c.pos
    match S.fromSlice raw.data with
    | none => ⟨false, c', ctx.record node.base "parse" "malformed JSON value"⟩
    | some val =>
      if value.accepts val then
        let r := andThen (fun ctx => ((validateKind S walk node raw ctx).ok,
          (validateKind S walk node raw ctx).ctx)) (validateCombRaw S walk node raw) ctx
        ⟨r.1, c', r.2⟩
      else ⟨false, c', ctx.record node.base value.keyword value.message⟩

def validateInner (node : FastNode S.Regex) (c : Cursor) (ctx : Ctx) : Walk :=
  if node.never then
    ⟨false, c, ctx.record node.base "false schema" "the schema is false and rejects every value"⟩
  else
    let c := c.skipWs
    match c.peek with
    | none =>
      ⟨false, c, ctx.record node.base "type" "expected a JSON value but found end of input"⟩
    | some b =>
      match node.typeFault b with
      | some fault => ⟨false, c, (ctx.report node.base (some fault)).2⟩
      | none =>
        match node.value with
        | some value => validateValue S walk value node c ctx
        | none => validateStructure S walk node c ctx

end

/-! ## Entry points -/

section

variable (S : Oracles)

/-- `FastNode::validate` with at most `n` levels left below the cap. A refused `enter_depth` has
counted its level and is not left again. -/
def validateLevels : Nat → FastNode S.Regex → Cursor → Ctx → Walk
  | n, node, c, ctx =>
    let ctx := { ctx with depth := ctx.depth + 1 }
    match n with
    | 0 => ⟨false, c, ctx.record "" "maxDepth" "maximum JSON nesting depth exceeded"⟩
    | n + 1 =>
      if ctx.depth ≤ maxDepth then
        let r := validateInner S (validateLevels n) node c ctx
        ⟨r.ok, r.c, { r.ctx with depth := r.ctx.depth - 1 }⟩
      else ⟨false, c, ctx.record "" "maxDepth" "maximum JSON nesting depth exceeded"⟩

/-- `FastNode::validate`. -/
def validate (node : FastNode S.Regex) (c : Cursor) (ctx : Ctx) : Walk :=
  validateLevels S (maxDepth - ctx.depth) node c ctx

/-- Validate a complete document (`is_valid_bytes`). -/
def isValidBytes (node : FastNode S.Regex) (bytes : Bytes) : Bool :=
  let r := validate S node (Cursor.new bytes 0) Ctx.boolMode
  r.ok && r.c.skipWs.pos == bytes.length

/-- Validate while capturing the targets (`validate_with_capture`). -/
def validateWithCapture (node : FastNode S.Regex) (bytes : Bytes) (targets : List TargetPath) :
    Bool × Capture :=
  let capture := Capture.new targets
  let r := validate S node (Cursor.new bytes 0)
    { Ctx.boolMode with capture := some capture, inputPtr := some 0 }
  (r.ok && r.c.skipWs.pos == bytes.length, r.ctx.capture.getD capture)

end

end Castrum
