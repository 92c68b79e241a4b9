import Castrum.Crypto.CookieSign
import Castrum.Lib.JsObject
import Castrum.Util.Wire

/-!
# Castrum — the packed JSON stream (`rust/ffi/json.rs`, `src/rust-ffi/scalar/json-packed.ts`)

The parser drives a visitor that writes tokens: a container is a start and an end, and keys and strings
are numbers of entries in a table in front of the tokens, where each text comes once. JavaScript reads
the table, then the tokens with a stack of frames, and fills its objects by assignment.

* `Emitter.visit` / `castrumJsonParsePacked` — the emitter;
* `decodeJsonPacked` — the decoder, with the table entries it looks at;
* `Doc.value` — what `JSON.parse` makes of the same document.
-/

namespace Castrum.JsonPacked

/-- A document, as the parser hands it to the visitor: an integer that is an `i64` or a `u64`, any other
number as the bits of a double, and the members of an object in order, with their duplicates. -/
inductive Doc where
  | null
  | bool (b : Bool)
  | int (v : Int)
  | float (bits : UInt64)
  | string (s : String)
  | array (items : List Doc)
  | object (members : List (String × Doc))

/-- `JSON_PACKED_*` and `TAG_*`. -/
@[match_pattern] abbrev tagNull : UInt8 := 0
@[match_pattern] abbrev tagFalse : UInt8 := 1
@[match_pattern] abbrev tagTrue : UInt8 := 2
@[match_pattern] abbrev tagNumber : UInt8 := 3
@[match_pattern] abbrev tagString : UInt8 := 4
@[match_pattern] abbrev tagArrayStart : UInt8 := 5
@[match_pattern] abbrev tagObjectStart : UInt8 := 6
@[match_pattern] abbrev tagArrayEnd : UInt8 := 7
@[match_pattern] abbrev tagObjectEnd : UInt8 := 8
@[match_pattern] abbrev tagKey : UInt8 := 9

/-! ## The emitter -/

/-- The map from texts to numbers, as the list of the texts in the order of their numbers; the table and
the tokens written so far. -/
structure Emitter where
  strings : List Bytes
  table : Bytes
  tree : Bytes

namespace Emitter

def new : Emitter := ⟨[], [], []⟩

def push (e : Emitter) (tag : UInt8) : Emitter := { e with tree := e.tree ++ [tag] }

def intern (e : Emitter) (bytes : Bytes) : Nat × Emitter :=
  match e.strings.idxOf? bytes with
  | some idx => (idx, e)
  | none =>
    (e.strings.length,
      { e with strings := e.strings ++ [bytes], table := e.table ++ packedComponent bytes })

def emitU32 (e : Emitter) (v : Nat) : Emitter := { e with tree := e.tree ++ le32 v }

/-- `emit_string` and `emit_key` differ in the tag. -/
def emitText (e : Emitter) (tag : UInt8) (s : String) : Emitter :=
  let r := (e.push tag).intern (utf8 s)
  r.2.emitU32 r.1

def emitString (e : Emitter) (s : String) : Emitter := e.emitText tagString s

def emitKey (e : Emitter) (s : String) : Emitter := e.emitText tagKey s

def emitNumber (e : Emitter) (bits : UInt64) : Emitter :=
  { e.push tagNumber with tree := (e.push tagNumber).tree ++ le64 bits.toNat }

/-! `JsonPackedVisitor`. `asF64` is the cast of an integer to a double. -/

mutual

def visit (asF64 : Int → UInt64) (e : Emitter) : Doc → Emitter
  | .null => e.push tagNull
  | .bool v => e.push (if v then tagTrue else tagFalse)
  | .int v => e.emitNumber (asF64 v)
  | .float bits => e.emitNumber bits
  | .string s => e.emitString s
  | .array items => (visitItems asF64 (e.push tagArrayStart) items).push tagArrayEnd
  | .object members => (visitMembers asF64 (e.push tagObjectStart) members).push tagObjectEnd

def visitItems (asF64 : Int → UInt64) (e : Emitter) : List Doc → Emitter
  | [] => e
  | v :: vs => visitItems asF64 (visit asF64 e v) vs

def visitMembers (asF64 : Int → UInt64) (e : Emitter) : List (String × Doc) → Emitter
  | [] => e
  | (k, v) :: ms => visitMembers asF64 (visit asF64 (e.emitKey k) v) ms

end

/-- `[u32 strCount][table][u32 treeLen][tree]`. -/
def packed (e : Emitter) : Bytes :=
  le32 e.strings.length ++ (e.table ++ (le32 e.tree.length ++ e.tree))

end Emitter

/-- `castrum_json_parse_packed`: `0` for an invalid document, the needed size where that does not fit. -/
def castrumJsonParsePacked (parse : Bytes → Option Doc) (asF64 : Int → UInt64)
    (data out : Option Bytes) : Nat × Bytes :=
  match data, out with
  | some input, some out =>
    match parse input with
    | none => (0, out)
    | some doc =>
      let emitter := Emitter.new.visit asF64 doc
      let needed := 4 + emitter.table.length + 4 + emitter.tree.length
      if needed > out.length then (needed, out) else (needed, copyInto emitter.packed out)
  | _, _ => (0, out.getD [])

/-! ## The decoder -/

/-- A container that is open: an array's values, or an object's properties and the key of the next one. -/
structure Frame where
  isObj : Bool
  arr : List Js
  own : List (String × Js)
  proto : Option Js
  key : String

/-- The position in the bytes, the value that is done, the open containers, the last one first, and the
table entries that were looked at. -/
structure State where
  p : Nat
  root : Js
  frames : List Frame
  indices : List Nat

/-- A value goes to the container on top, or is the root. -/
def State.attach (s : State) (v : Js) : State :=
  match s.frames with
  | [] => { s with root := v }
  | f :: frames =>
    if f.isObj then
      let o := Js.assign f.own f.proto f.key v
      { s with frames := { f with own := o.1, proto := o.2 } :: frames }
    else { s with frames := { f with arr := f.arr ++ [v] } :: frames }

/-- What a view throws that is read beyond its end. -/
def rangeError : String := "RangeError"

def malformed : String := "json parse: malformed packed stream"

section

variable (bytes : Bytes)

def u32 (p : Nat) : Except String Nat := (readU32 bytes p).elim (.error rangeError) .ok

/-- The table index at the position, which is stepped over. -/
def readIndex (s : State) : Except String (Nat × State) :=
  (u32 bytes s.p).map fun i => (i, { s with p := s.p + 4, indices := s.indices ++ [i] })

/-- One token. Beyond the table there is `undefined`, the property `"undefined"` if it is a key. -/
def step (strings : List String) (s : State) : Except String State :=
  match bytes[s.p]? with
  | none => .error rangeError
  | some t =>
    let s := { s with p := s.p + 1 }
    match t with
    | tagNull => .ok (s.attach .null)
    | tagFalse => .ok (s.attach (.bool false))
    | tagTrue => .ok (s.attach (.bool true))
    | tagNumber =>
      (readWord 8 bytes s.p).elim (.error rangeError) fun w =>
        .ok ({ s with p := s.p + 8 }.attach (.number (UInt64.ofNat w)))
    | tagString =>
      (readIndex bytes s).map fun r => r.2.attach ((strings[r.1]?).elim .undefined .string)
    | tagArrayStart => .ok { s with frames := ⟨false, [], [], none, ""⟩ :: s.frames }
    | tagObjectStart => .ok { s with frames := ⟨true, [], [], none, ""⟩ :: s.frames }
    | tagArrayEnd =>
      match s.frames with
      | [] => .error malformed
      | f :: frames => .ok ({ s with frames := frames }.attach (.array f.arr))
    | tagObjectEnd =>
      match s.frames with
      | [] => .error malformed
      | f :: frames => .ok ({ s with frames := frames }.attach (.object f.own f.proto))
    | tagKey =>
      (readIndex bytes s).bind fun r =>
        match r.2.frames with
        | [] => .error "TypeError"
        | f :: frames =>
          .ok { r.2 with frames := { f with key := (strings[r.1]?).getD "undefined" } :: frames }
    | _ => .error "json parse: malformed packed token"

/-- The loop over the tokens up to `stop`. Each one is a byte at least, so that `stop` rounds are enough. -/
def loop (strings : List String) (stop : Nat) : Nat → State → Except String State
  | 0, s => .ok s
  | fuel + 1, s => if s.p < stop then (step bytes strings s).bind (loop strings stop fuel) else .ok s

/-- `fastDecodeUtf8`, with the engine's codec. -/
def fastDecodeUtf8 (codec : Bytes → String) (bytes : Bytes) : String :=
  if bytes.length = 0 then "" else codec bytes

/-- The table: `n` texts from `p` on. -/
def readStrings (codec : Bytes → String) : Nat → Nat → Except String (List String × Nat)
  | 0, p => .ok ([], p)
  | n + 1, p =>
    (u32 bytes p).bind fun len =>
      (readStrings codec n (p + 4 + len)).map fun r =>
        (fastDecodeUtf8 codec ((bytes.drop (p + 4)).take len) :: r.1, r.2)

/-- A decoded value, where the decoder stopped, how many texts there are and which were looked at. -/
structure Decoded where
  root : Js
  consumed : Nat
  strCount : Nat
  indices : List Nat

def decodeJsonPacked (codec : Bytes → String) : Except String Decoded := do
  let strCount ← u32 bytes 0
  let (strings, p) ← readStrings bytes codec strCount 4
  let treeLen ← u32 bytes p
  let stop := p + 4 + treeLen
  let s ← loop bytes strings stop stop ⟨p + 4, .undefined, [], []⟩
  if s.p ≠ stop ∨ s.frames.length ≠ 0 then .error malformed
  else .ok ⟨s.root, s.p, strCount, s.indices⟩

end

/-! ## `JSON.parse` -/

section

variable (asF64 : Int → UInt64)

mutual

/-- The value of a document: an object's members become own properties one by one. -/
def Doc.value : Doc → Js
  | .null => .null
  | .bool b => .bool b
  | .int v => .number (asF64 v)
  | .float bits => .number bits
  | .string s => .string s
  | .array items => .array (valueItems items)
  | .object members => .object (valueMembers [] members) none

def valueItems : List Doc → List Js
  | [] => []
  | v :: vs => v.value :: valueItems vs

def valueMembers (own : List (String × Js)) : List (String × Doc) → List (String × Js)
  | [] => own
  | (k, v) :: ms => valueMembers (Js.define own k v.value) ms

end

end

end Castrum.JsonPacked
