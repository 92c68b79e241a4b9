import Castrum.Http.Headers
import Castrum.Lib.JsObject
import Castrum.Lib.Utf16

/-!
# Castrum — the headers of a request (`src/ingress/packing/*.ts`)

JavaScript selects the headers that the native pipeline is going to look at and writes them into a
scratch buffer, which still holds what earlier requests left in it. One path writes every request's
headers; the other one keeps the blocks of requests that send nothing but an origin.

* `packHeaders_eq` — the plain path writes the block of the selected headers;
* `OriginCache.Sound` — the blocks that are kept are those the plain path writes;
* `gather_spec` — both paths return the same bytes, whatever came before;
* `length_block_le` — how long a block can get.
-/

namespace Castrum.Packing

/-! ## Requests and plans -/

/-- A request, as far as headers are concerned: its method and `headers.get`. -/
structure JsRequest where
  method : String
  get : Bytes → Option JsString

/-- The own properties of `METHOD_KIND`. -/
def ownMethodKind (method : String) : MethodKind :=
  match method with
  | "GET" => .get
  | "HEAD" => .head
  | "POST" => .post
  | "PUT" => .put
  | "PATCH" => .patch
  | "DELETE" => .delete
  | "OPTIONS" => .options
  | _ => .other

/-- `METHOD_KIND[method] ?? METHOD_KIND_UNKNOWN`, as the byte it is written as. What is inherited is no
number and becomes the byte of `GET`. -/
def methodKindOf (method : String) : MethodKind :=
  if method ∈ Js.objectPrototypeNames then .get else ownMethodKind method

/-- Which request headers are extracted. -/
structure HeaderPlan where
  cookie : Bool
  cors : Bool
  proxy : Bool
  proto : Bool
  deriving DecidableEq, Repr

def headerBufSize : Nat := 8192

def maxCookieHeaderBytes : Nat := 8192

def maxSmallHeaderBytes : Nat := 2048

def maxXffHeaderBytes : Nat := 8192

def hdrCookie : Bytes := utf8 "cookie"
def hdrOrigin : Bytes := utf8 "origin"
def hdrAcrm : Bytes := utf8 "access-control-request-method"
def hdrAcrh : Bytes := utf8 "access-control-request-headers"
def hdrXff : Bytes := utf8 "x-forwarded-for"
def hdrXri : Bytes := utf8 "x-real-ip"
def hdrXfp : Bytes := utf8 "x-forwarded-proto"

/-- The visit of one header: none where it is missing, or longer than its guard. -/
def visited (name : Bytes) (bound : Nat) (value : Option JsString) : List (Bytes × JsString) :=
  match value with
  | some v => if v.length ≤ bound then [(name, v)] else []
  | none => []

/-- The headers that are visited, in order. An outer `none` is an argument that is left out. -/
def forEachSelectedHeader (req : JsRequest) (plan : HeaderPlan) (methodKind : MethodKind)
    (originValue cookieValue : Option (Option JsString)) : List (Bytes × JsString) :=
  (if plan.cookie then
    visited hdrCookie maxCookieHeaderBytes (cookieValue.getD (req.get hdrCookie)) else []) ++
  (if plan.cors then
    visited hdrOrigin maxSmallHeaderBytes (originValue.getD (req.get hdrOrigin)) ++
    (if methodKind = .options then
      visited hdrAcrm maxSmallHeaderBytes (req.get hdrAcrm) ++
      visited hdrAcrh maxSmallHeaderBytes (req.get hdrAcrh) else []) else []) ++
  (if plan.proxy then
    visited hdrXff maxXffHeaderBytes (req.get hdrXff) ++
    visited hdrXri maxSmallHeaderBytes (req.get hdrXri) else []) ++
  (if plan.proto then visited hdrXfp maxSmallHeaderBytes (req.get hdrXfp) else [])

/-! ## Writing into a buffer -/

/-- A buffer from the pool, with what earlier calls left in it. A buffer that had to grow does not
come back to the pool. -/
abbrev Scratch : Type := { buf : Bytes // buf.length = headerBufSize }

/-- `encodeUtf8Into(value, buf, pos)`: bytes written, and the buffer. -/
def encodeUtf8Into (value : JsString) (buf : Bytes) (pos : Nat) : Nat × Bytes :=
  let text := Utf16.encodeFitting (buf.length - pos) value
  (text.length, placed buf pos text)

/-- The larger buffer, with what was written so far. -/
def growBuf (buf : Bytes) (pos needed : Nat) : Bytes :=
  if buf.length < pos + needed then
    buf.take pos ++ List.replicate (max (buf.length * 2) (pos + needed) - pos) 0
  else buf

/-- One pair at `pos`: the position behind it, and the buffer. -/
def writeHeaderPair (buf : Bytes) (pos : Nat) (name : Bytes) (value : JsString) : Nat × Bytes :=
  let needed := 2 + name.length + 4 + value.length * 3
  let buf := growBuf buf pos needed
  let buf := placed buf pos (le16 name.length)
  let buf := placed buf (pos + 2) name
  let pos := pos + 2 + name.length
  let valueLenPos := pos
  let pos := pos + 4
  let (written, buf) := encodeUtf8Into value buf pos
  let buf := placed buf valueLenPos (le32 written)
  (pos + written, buf)

/-- The pairs one after another, behind the room for their count. -/
def writePairs (visits : List (Bytes × JsString)) (scratch : Scratch) : Nat × Bytes :=
  visits.foldl (fun r p => writeHeaderPair r.2 r.1 p.1 p.2) (2, scratch.val)

/-- The packed block of the headers that `plan` selects. -/
def packHeaders (scratch : Scratch) (req : JsRequest) (plan : HeaderPlan) : Bytes :=
  let visits := forEachSelectedHeader req plan (methodKindOf req.method) none none
  let r := writePairs visits scratch
  (placed r.2 0 (le16 visits.length)).take r.1

/-! ## The blocks that are kept -/

/-- `ORIGIN_BLOCK_CACHE`: a map in insertion order. -/
abbrev OriginCache : Type := List (JsString × Bytes)

def originCacheMax : Nat := 8

def emptyHeadersBlock : Bytes := [0, 0]

def cachedOriginBlock (cache : OriginCache) (scratch : Scratch) (origin : JsString) :
    Bytes × OriginCache :=
  match cache.lookup origin with
  | some hit => (hit, cache)
  | none =>
    let r := writeHeaderPair scratch.val 2 hdrOrigin origin
    let block := (placed r.2 0 (le16 1)).take r.1
    let cache := if originCacheMax ≤ cache.length then cache.drop 1 else cache
    (block, cache ++ [(origin, block)])

/-- The block of a request whose only selected header is the origin. -/
def originOnlyBlock (cache : OriginCache) (scratch : Scratch) (origin : Option JsString) :
    Bytes × OriginCache :=
  match origin with
  | none => (emptyHeadersBlock, cache)
  | some origin =>
    if maxSmallHeaderBytes < origin.length then (emptyHeadersBlock, cache)
    else cachedOriginBlock cache scratch origin

/-- The general path of `gatherRawHeadersPacked`. -/
def gatherGeneral (scratch : Scratch) (req : JsRequest) (plan : HeaderPlan) (methodKind : MethodKind)
    (originValue preFetchedCookie : Option (Option JsString)) : Bytes :=
  let visits := forEachSelectedHeader req plan methodKind originValue preFetchedCookie
  let r := writePairs visits scratch
  if visits.length = 0 then emptyHeadersBlock
  else (placed r.2 0 (le16 visits.length)).take r.1

def gatherRawHeadersPacked (cache : OriginCache) (scratch : Scratch) (req : JsRequest)
    (plan : HeaderPlan) (methodKind : MethodKind) (originValue : Option (Option JsString)) :
    Bytes × OriginCache :=
  if !plan.cookie && !plan.cors && !plan.proxy && !plan.proto then (emptyHeadersBlock, cache)
  else
    let nonPreflight := methodKind ≠ .options
    let origin := originValue.getD (req.get hdrOrigin)
    if plan.cors && !plan.cookie && !plan.proxy && !plan.proto && nonPreflight then
      originOnlyBlock cache scratch origin
    else if plan.cors && plan.cookie && !plan.proxy && !plan.proto && nonPreflight then
      match req.get hdrCookie with
      | none => originOnlyBlock cache scratch origin
      | some cookie =>
        (gatherGeneral scratch req plan methodKind originValue (some (some cookie)), cache)
    else (gatherGeneral scratch req plan methodKind originValue none, cache)

/-- The configured origins, each with the buffer its block is written into. -/
def prewarmOriginBlocks (cache : OriginCache) (origins : List (JsString × Scratch)) : OriginCache :=
  origins.foldl (fun cache o =>
    if 0 < o.1.length && o.1.length ≤ maxSmallHeaderBytes && !o.1.contains 42 then
      (cachedOriginBlock cache o.2 o.1).2
    else cache) cache

/-- What has been asked of the module before. -/
inductive CacheCall where
  | gather (scratch : Scratch) (req : JsRequest) (plan : HeaderPlan) (methodKind : MethodKind)
      (originValue : Option (Option JsString))
  | prewarm (origins : List (JsString × Scratch))

def OriginCache.after (cache : OriginCache) : CacheCall → OriginCache
  | .gather scratch req plan methodKind originValue =>
    (gatherRawHeadersPacked cache scratch req plan methodKind originValue).2
  | .prewarm origins => prewarmOriginBlocks cache origins

/-! ## The plain path -/

/-- What is written of a visit: the name, and the UTF-8 of the value. -/
def encoded (p : Bytes × JsString) : Bytes × Bytes := (p.1, Utf16.encode p.2)

/-- The header block of some visits. -/
def block (visits : List (Bytes × JsString)) : Bytes := Castrum.packHeaders (visits.map encoded)

theorem growBuf_spec {buf : Bytes} {pos : Nat} (hpos : pos ≤ buf.length) (needed : Nat) :
    pos + needed ≤ (growBuf buf pos needed).length ∧
      (growBuf buf pos needed).take pos = buf.take pos := by
  unfold growBuf
  split
  · constructor
    · rw [List.length_append, List.length_take_of_le hpos, List.length_replicate]
      omega
    · exact List.take_left' (List.length_take_of_le hpos)
  · exact ⟨by omega, rfl⟩

/-- **One pair** is written behind what was there, and stays inside the buffer. -/
theorem writeHeaderPair_appends {buf : Bytes} {pos : Nat} (hpos : pos ≤ buf.length) (name : Bytes)
    (value : JsString) :
    Appends (pos, buf) (writeHeaderPair buf pos name value) (packPair (encoded (name, value))) := by
  let needed := 2 + name.length + 4 + value.length * 3
  obtain ⟨hroom, htake⟩ := growBuf_spec hpos needed
  apply Appends.of_take htake
  generalize hout : growBuf buf pos needed = out at hroom htake
  have hencode := Utf16.length_encode_le value
  let text := Utf16.encode value
  let front := le16 name.length ++ name
  have hfront : front.length = 2 + name.length := by
    rw [List.length_append, length_le16]
  have hle : pos + front.length ≤ out.length := by omega
  -- the value fits, as three bytes were asked for each of its units
  have hvalue : Utf16.encodeFitting ((placed out pos front).length - (pos + 2 + name.length + 4))
      value = text := by
    apply Utf16.encodeFitting_of_le
    rw [length_placed hle]
    omega
  have hname : placed (placed out pos (le16 name.length)) (pos + 2) name = placed out pos front :=
    placed_placed (by omega) (le16 name.length) name
  have hresult : writeHeaderPair buf pos name value =
      (pos + front.length + (le32 text.length).length + text.length,
        placed (placed (placed out pos front) (pos + front.length + (le32 text.length).length) text)
          (pos + front.length) (le32 text.length)) := by
    have hsum : pos + front.length = pos + 2 + name.length := by omega
    unfold writeHeaderPair encodeUtf8Into
    dsimp only
    rw [hout, hname, hvalue, hsum, length_le32]
  have hbehind : pos + front.length + (le32 text.length).length + text.length ≤
      (placed out pos front).length := by
    rw [length_placed hle, length_le32]
    show pos + front.length + 4 + (Utf16.encode value).length ≤ _
    omega
  have hpair : packPair (encoded (name, value)) = front ++ (le32 text.length ++ text) :=
    (List.append_assoc _ _ _).symm
  rw [hresult, hpair]
  exact (Appends.placed hle).trans (Appends.behind_gap hbehind)

/-- The pairs behind the room for their count. Induction on the visits: each starts where the one
before it ended. -/
theorem writePairs_appends (visits : List (Bytes × JsString)) {r : Nat × Bytes}
    (hpos : r.1 ≤ r.2.length) :
    Appends r (visits.foldl (fun r p => writeHeaderPair r.2 r.1 p.1 p.2) r)
      ((visits.map encoded).flatMap packPair) := by
  induction visits generalizing r with
  | nil => exact .refl hpos
  | cons p visits ih =>
    have hfirst := writeHeaderPair_appends hpos p.1 p.2
    rw [List.foldl_cons, List.map_cons, List.flatMap_cons]
    exact hfirst.trans (ih hfirst.le)

theorem two_le_scratch (scratch : Scratch) : 2 ≤ scratch.val.length := by
  rw [scratch.property]
  decide

/-- The count in front of what was written. -/
theorem take_placed_count {buf pairs start : Bytes} {n : Nat} (count : Nat)
    (hn : n = 2 + pairs.length) (hstart : start.length = 2)
    (htake : buf.take n = start ++ pairs) :
    (placed buf 0 (le16 count)).take n = le16 count ++ pairs := by
  have hbuf : buf = placed buf 0 (start ++ pairs) := by
    rw [placed, List.length_append, hstart, Nat.zero_add, ← hn, ← htake, List.take_zero,
      List.nil_append, List.take_append_drop]
  rw [hbuf]
  have hsame : (le16 count).length = start.length := by rw [length_le16, hstart]
  have hpatch := placed_patch (Nat.zero_le buf.length) hsame [] pairs
  rw [List.nil_append, List.nil_append, List.length_nil] at hpatch
  rw [hpatch]
  have hlast := take_placed (Nat.zero_le buf.length) (le16 count ++ pairs)
  rw [List.length_append, length_le16, Nat.zero_add, List.take_zero, List.nil_append, ← hn] at hlast
  exact hlast

theorem writePairs_block (scratch : Scratch) (visits : List (Bytes × JsString)) :
    (placed (writePairs visits scratch).2 0 (le16 visits.length)).take (writePairs visits scratch).1 =
      block visits := by
  have hpairs := writePairs_appends visits (r := (2, scratch.val)) (two_le_scratch scratch)
  rw [block, Castrum.packHeaders, List.length_map]
  exact take_placed_count _ hpairs.next (List.length_take_of_le (two_le_scratch scratch)) hpairs.take

/-- **The plain path** writes the block of the selected headers, whatever the buffer held. -/
theorem packHeaders_eq (scratch : Scratch) (req : JsRequest) (plan : HeaderPlan) :
    packHeaders scratch req plan =
      block (forEachSelectedHeader req plan (methodKindOf req.method) none none) :=
  writePairs_block scratch _

/-! ## Both paths -/

theorem visited_of_le {name : Bytes} {bound : Nat} {value : JsString} (h : value.length ≤ bound) :
    visited name bound (some value) = [(name, value)] := if_pos h

theorem visited_of_lt {name : Bytes} {bound : Nat} {value : JsString} (h : bound < value.length) :
    visited name bound (some value) = [] := if_neg (by omega)

/-- Every block that is kept is the one the plain path writes for a request with that origin. -/
structure OriginCache.Sound (cache : OriginCache) : Prop where
  blocks : ∀ origin b, (origin, b) ∈ cache → b = block [(hdrOrigin, origin)]
  length_le : cache.length ≤ originCacheMax

theorem OriginCache.sound_nil : OriginCache.Sound [] :=
  ⟨fun _ _ h => absurd h List.not_mem_nil, Nat.zero_le _⟩

section

variable {cache : OriginCache}

/-- A block from the map, or a new one: the block of the origin, and the map still sound. -/
theorem cachedOriginBlock_spec (h : cache.Sound) (scratch : Scratch) (origin : JsString) :
    (cachedOriginBlock cache scratch origin).1 = block [(hdrOrigin, origin)] ∧
      (cachedOriginBlock cache scratch origin).2.Sound := by
  unfold cachedOriginBlock
  split
  · next hit hlookup =>
    obtain ⟨before, behind, hsplit, -⟩ := List.lookup_eq_some_iff.mp hlookup
    refine ⟨h.blocks origin hit ?_, h⟩
    rw [hsplit]
    exact List.mem_append_right _ List.mem_cons_self
  · next hnone =>
    have hblock := writePairs_block scratch [(hdrOrigin, origin)]
    refine ⟨hblock, ?_, ?_⟩
    · intro o b hmem
      rcases List.mem_append.mp hmem with hmem | hmem
      · apply h.blocks
        split at hmem
        · exact List.mem_of_mem_drop hmem
        · exact hmem
      · obtain ⟨rfl, rfl⟩ := Prod.mk.inj (List.mem_singleton.mp hmem)
        exact hblock
    · -- the first key leaves when the map is full
      have hlen := h.length_le
      have hpos : 0 < originCacheMax := by decide
      rw [List.length_append, List.length_singleton]
      split
      · rw [List.length_drop]
        omega
      · omega

theorem originOnlyBlock_spec (h : cache.Sound) (scratch : Scratch) (origin : Option JsString) :
    (originOnlyBlock cache scratch origin).1 =
        block (visited hdrOrigin maxSmallHeaderBytes origin) ∧
      (originOnlyBlock cache scratch origin).2.Sound := by
  cases origin with
  | none => exact ⟨rfl, h⟩
  | some origin =>
    unfold originOnlyBlock
    dsimp only
    split
    · next hlong =>
      rw [visited_of_lt hlong]
      exact ⟨rfl, h⟩
    · next hshort =>
      rw [visited_of_le (Nat.le_of_not_lt hshort)]
      exact cachedOriginBlock_spec h scratch origin

theorem gatherGeneral_eq (scratch : Scratch) (req : JsRequest) (plan : HeaderPlan)
    (methodKind : MethodKind) (originValue preFetchedCookie : Option (Option JsString)) :
    gatherGeneral scratch req plan methodKind originValue preFetchedCookie =
      block (forEachSelectedHeader req plan methodKind originValue preFetchedCookie) := by
  unfold gatherGeneral
  dsimp only
  split
  · next hnone =>
    rw [List.eq_nil_of_length_eq_zero hnone]
    rfl
  · exact writePairs_block scratch _

/-- A cookie that was fetched before is the request's. -/
theorem forEachSelectedHeader_fetched (req : JsRequest) (plan : HeaderPlan)
    (methodKind : MethodKind) (originValue : Option (Option JsString)) :
    forEachSelectedHeader req plan methodKind originValue (some (req.get hdrCookie)) =
      forEachSelectedHeader req plan methodKind originValue none := rfl

/-- **One call** returns the block of the selected headers, and keeps the map sound. -/
theorem gather_spec (h : cache.Sound) (scratch : Scratch) (req : JsRequest) (plan : HeaderPlan)
    (methodKind : MethodKind) (originValue : Option (Option JsString)) :
    (gatherRawHeadersPacked cache scratch req plan methodKind originValue).1 =
        block (forEachSelectedHeader req plan methodKind originValue none) ∧
      (gatherRawHeadersPacked cache scratch req plan methodKind originValue).2.Sound := by
  unfold gatherRawHeadersPacked
  dsimp only
  split
  · next hnone =>
    simp only [Bool.and_eq_true, Bool.not_eq_true'] at hnone
    obtain ⟨⟨⟨hcookie, hcors⟩, hproxy⟩, hproto⟩ := hnone
    unfold forEachSelectedHeader
    simp only [hcookie, hcors, hproxy, hproto, Bool.false_eq_true, if_false, List.append_nil]
    exact ⟨rfl, h⟩
  split
  · next honly =>
    simp only [Bool.and_eq_true, Bool.not_eq_true', decide_eq_true_iff] at honly
    obtain ⟨⟨⟨⟨hcors, hcookie⟩, hproxy⟩, hproto⟩, hkind⟩ := honly
    have hselected : forEachSelectedHeader req plan methodKind originValue none =
        visited hdrOrigin maxSmallHeaderBytes (originValue.getD (req.get hdrOrigin)) := by
      unfold forEachSelectedHeader
      simp [hcors, hcookie, hproxy, hproto, hkind]
    rw [hselected]
    exact originOnlyBlock_spec h scratch _
  split
  · next hboth =>
    simp only [Bool.and_eq_true, Bool.not_eq_true', decide_eq_true_iff] at hboth
    obtain ⟨⟨⟨⟨hcors, hcookie⟩, hproxy⟩, hproto⟩, hkind⟩ := hboth
    split
    · next habsent =>
      -- without a cookie only the origin is visited
      have hselected : forEachSelectedHeader req plan methodKind originValue none =
          visited hdrOrigin maxSmallHeaderBytes (originValue.getD (req.get hdrOrigin)) := by
        unfold forEachSelectedHeader
        simp [hcors, hcookie, hproxy, hproto, hkind, habsent, visited]
      rw [hselected]
      exact originOnlyBlock_spec h scratch _
    · next cookie hpresent =>
      rw [gatherGeneral_eq, ← hpresent, forEachSelectedHeader_fetched]
      exact ⟨rfl, h⟩
  · rw [gatherGeneral_eq]
    exact ⟨rfl, h⟩

theorem OriginCache.Sound.prewarm (h : cache.Sound) (origins : List (JsString × Scratch)) :
    (prewarmOriginBlocks cache origins).Sound := by
  unfold prewarmOriginBlocks
  induction origins generalizing cache with
  | nil => exact h
  | cons o origins ih =>
    rw [List.foldl_cons]
    apply ih
    split
    · exact (cachedOriginBlock_spec h o.2 o.1).2
    · exact h

theorem OriginCache.Sound.after (h : cache.Sound) (call : CacheCall) : (cache.after call).Sound := by
  cases call with
  | gather scratch req plan methodKind originValue =>
    exact (gather_spec h scratch req plan methodKind originValue).2
  | prewarm origins => exact h.prewarm origins

end

/-- **Whatever was asked before**, the blocks that are kept are right. -/
theorem OriginCache.sound_history (history : List CacheCall) :
    (history.foldl OriginCache.after []).Sound := by
  have hall : ∀ cache : OriginCache, cache.Sound → (history.foldl OriginCache.after cache).Sound := by
    induction history with
    | nil => exact fun _ h => h
    | cons call history ih => exact fun cache h => ih _ (h.after call)
  exact hall [] OriginCache.sound_nil

/-! ## The size of a block -/

section

variable {name : Bytes} {bound : Nat} {value : Option JsString}

theorem flatMap_visited (name : Bytes) (bound : Nat) (value : Option JsString) :
    visited name bound value = [] ∨
      ∃ v, value = some v ∧ v.length ≤ bound ∧ visited name bound value = [(name, v)] := by
  cases value with
  | none => exact .inl rfl
  | some v =>
    rcases Nat.lt_or_ge bound v.length with h | h
    · exact .inl (visited_of_lt h)
    · exact .inr ⟨v, rfl, h, visited_of_le h⟩

/-- A visit takes its name, six bytes of lengths, and so many bytes for each unit of its value. -/
theorem length_visited_le {k : Nat} (h : ∀ v, value = some v → (Utf16.encode v).length ≤ k * v.length) :
    (((visited name bound value).map encoded).flatMap packPair).length ≤
      6 + name.length + k * bound := by
  rcases flatMap_visited name bound value with hnone | ⟨v, hv, hle, hone⟩
  · rw [hnone]
    exact Nat.zero_le _
  · have hencode := (h v hv).trans (Nat.mul_le_mul_left k hle)
    rw [hone, List.map_singleton, List.flatMap_singleton, length_packPair]
    show 6 + name.length + (Utf16.encode v).length ≤ _
    omega

end

/-- The values of a request are Latin-1. -/
def JsRequest.Latin1 (req : JsRequest) : Prop :=
  ∀ name v, req.get name = some v → Utf16.Latin1 v

/-- The names and lengths of a block take 156 bytes, and the guards let 26 624 units through. -/
theorem length_block_le_mul {req : JsRequest} {k : Nat}
    (h : ∀ name v, req.get name = some v → (Utf16.encode v).length ≤ k * v.length)
    (plan : HeaderPlan) (methodKind : MethodKind) :
    (block (forEachSelectedHeader req plan methodKind none none)).length ≤ 156 + k * 26624 := by
  have length_visited : ∀ name bound,
      (((visited name bound (req.get name)).map encoded).flatMap packPair).length ≤
        6 + name.length + k * bound := fun name _ => length_visited_le (h name)
  -- each bound with the length of its name
  have hcookie : (((visited hdrCookie maxCookieHeaderBytes (req.get hdrCookie)).map encoded).flatMap
      packPair).length ≤ 12 + k * 8192 := length_visited hdrCookie maxCookieHeaderBytes
  have horigin : (((visited hdrOrigin maxSmallHeaderBytes (req.get hdrOrigin)).map encoded).flatMap
      packPair).length ≤ 12 + k * 2048 := length_visited hdrOrigin maxSmallHeaderBytes
  have hacrm : (((visited hdrAcrm maxSmallHeaderBytes (req.get hdrAcrm)).map encoded).flatMap
      packPair).length ≤ 35 + k * 2048 := length_visited hdrAcrm maxSmallHeaderBytes
  have hacrh : (((visited hdrAcrh maxSmallHeaderBytes (req.get hdrAcrh)).map encoded).flatMap
      packPair).length ≤ 36 + k * 2048 := length_visited hdrAcrh maxSmallHeaderBytes
  have hxff : (((visited hdrXff maxXffHeaderBytes (req.get hdrXff)).map encoded).flatMap
      packPair).length ≤ 21 + k * 8192 := length_visited hdrXff maxXffHeaderBytes
  have hxri : (((visited hdrXri maxSmallHeaderBytes (req.get hdrXri)).map encoded).flatMap
      packPair).length ≤ 15 + k * 2048 := length_visited hdrXri maxSmallHeaderBytes
  have hxfp : (((visited hdrXfp maxSmallHeaderBytes (req.get hdrXfp)).map encoded).flatMap
      packPair).length ≤ 23 + k * 2048 := length_visited hdrXfp maxSmallHeaderBytes
  -- a group that the plan leaves out takes nothing
  have hgroup : ∀ (b : Bool) (visits : List (Bytes × JsString)),
      (((if b then visits else []).map encoded).flatMap packPair).length ≤
        ((visits.map encoded).flatMap packPair).length := by
    intro b visits
    cases b with
    | false => exact Nat.zero_le _
    | true => exact Nat.le_refl _
  have hpreflight : ∀ visits : List (Bytes × JsString),
      (((if methodKind = .options then visits else []).map encoded).flatMap packPair).length ≤
        ((visits.map encoded).flatMap packPair).length := by
    intro visits
    split
    · exact Nat.le_refl _
    · exact Nat.zero_le _
  unfold block forEachSelectedHeader
  rw [Castrum.packHeaders, List.length_append, length_le16]
  simp only [List.map_append, List.flatMap_append, List.length_append, Option.getD_none]
  have g1 := hgroup plan.cookie (visited hdrCookie maxCookieHeaderBytes (req.get hdrCookie))
  have g2 := hgroup plan.cors (visited hdrOrigin maxSmallHeaderBytes (req.get hdrOrigin) ++
    (if methodKind = .options then
      visited hdrAcrm maxSmallHeaderBytes (req.get hdrAcrm) ++
      visited hdrAcrh maxSmallHeaderBytes (req.get hdrAcrh) else []))
  have g3 := hgroup plan.proxy (visited hdrXff maxXffHeaderBytes (req.get hdrXff) ++
    visited hdrXri maxSmallHeaderBytes (req.get hdrXri))
  have g4 := hgroup plan.proto (visited hdrXfp maxSmallHeaderBytes (req.get hdrXfp))
  have g5 := hpreflight (visited hdrAcrm maxSmallHeaderBytes (req.get hdrAcrm) ++
      visited hdrAcrh maxSmallHeaderBytes (req.get hdrAcrh))
  simp only [List.map_append, List.flatMap_append, List.length_append] at g2 g3 g5
  omega

/-- **No block of Latin-1 headers is larger than 53 404 bytes**, which the native limit allows. -/
theorem length_block_le {req : JsRequest} (h : req.Latin1) (plan : HeaderPlan)
    (methodKind : MethodKind) :
    (block (forEachSelectedHeader req plan methodKind none none)).length ≤ 53404 :=
  length_block_le_mul (fun name v hv => Utf16.length_encode_le_of_latin1 (h name v hv)) plan methodKind

/-- No block is larger than 80 028 bytes. -/
theorem length_block_le_any (req : JsRequest) (plan : HeaderPlan) (methodKind : MethodKind) :
    (block (forEachSelectedHeader req plan methodKind none none)).length ≤ 80028 :=
  length_block_le_mul (fun _ v _ => Utf16.length_encode_le v) plan methodKind

/-! ## What the native side reads -/

/-- The UTF-8 of a value that passes its guard. -/
def kept (bound : Nat) (value : Option JsString) : Option Bytes :=
  (value.filter fun v => v.length ≤ bound).map Utf16.encode

/-- The headers that the native side gets to see. -/
def selectedRefs (req : JsRequest) (plan : HeaderPlan) (methodKind : MethodKind) : HeaderRefs where
  cookie := if plan.cookie then kept maxCookieHeaderBytes (req.get hdrCookie) else none
  origin := if plan.cors then kept maxSmallHeaderBytes (req.get hdrOrigin) else none
  acrm := if plan.cors && methodKind = .options then kept maxSmallHeaderBytes (req.get hdrAcrm) else none
  acrh := if plan.cors && methodKind = .options then kept maxSmallHeaderBytes (req.get hdrAcrh) else none
  xff := if plan.proxy then kept maxXffHeaderBytes (req.get hdrXff) else none
  xRealIp := if plan.proxy then kept maxSmallHeaderBytes (req.get hdrXri) else none
  xForwardedProto := if plan.proto then kept maxSmallHeaderBytes (req.get hdrXfp) else none

/-- A visit under a condition. -/
def visitedIf (b : Bool) (name : Bytes) (bound : Nat) (value : Option JsString) :
    List (Bytes × JsString) :=
  if b then visited name bound value else []

/-- Noting a visit sets the field of its header to the value that is kept. -/
theorem foldl_note_visitedIf (set : HeaderRefs → Option Bytes → HeaderRefs) {name : Bytes}
    {isOptions b : Bool} (hset : ∀ h, set h none = h)
    (hnote : b = true → ∀ h v, HeaderRefs.note isOptions h (name, v) = set h (some v)) (bound : Nat)
    (value : Option JsString) (h : HeaderRefs) :
    ((visitedIf b name bound value).map encoded).foldl (HeaderRefs.note isOptions) h =
      set h (if b then kept bound value else none) := by
  cases b with
  | false => exact (hset h).symm
  | true =>
    show ((visited name bound value).map encoded).foldl _ h = set h (kept bound value)
    rcases flatMap_visited name bound value with hnone | ⟨v, rfl, hle, hone⟩
    · have hkept : kept bound value = none := by
        cases value with
        | none => rfl
        | some v =>
          have hlong : ¬ v.length ≤ bound := fun hle => by
            rw [visited_of_le hle] at hnone
            cases hnone
          rw [kept, Option.filter_some, if_neg (by simpa using hlong)]
          rfl
      rw [hnone, hkept]
      exact (hset h).symm
    · have hkept : kept bound (some v) = some (Utf16.encode v) := by
        rw [kept, Option.filter_some, if_pos (by simpa using hle)]
        rfl
      rw [hone, hkept]
      exact hnote rfl h _

theorem asciiEqIgnoreCase_self (a : Bytes) : asciiEqIgnoreCase a a = true := by
  unfold asciiEqIgnoreCase
  simp

section

variable (isOptions : Bool) (h : HeaderRefs) (v : Bytes)

theorem note_cookie : HeaderRefs.note isOptions h (hdrCookie, v) = { h with cookie := some v } := by
  have hname : utf8 "cookie" = [99, 111, 111, 107, 105, 101] := by decide
  unfold HeaderRefs.note hdrCookie
  rw [hname]
  dsimp only
  rw [if_neg (by decide), if_pos (by decide), if_pos (asciiEqIgnoreCase_self _)]

theorem note_origin : HeaderRefs.note isOptions h (hdrOrigin, v) = { h with origin := some v } := by
  have hname : utf8 "origin" = [111, 114, 105, 103, 105, 110] := by decide
  unfold HeaderRefs.note hdrOrigin
  rw [hname]
  dsimp only
  rw [if_pos (by decide), if_pos (asciiEqIgnoreCase_self _)]

theorem note_xff : HeaderRefs.note isOptions h (hdrXff, v) = { h with xff := some v } := by
  have hname : utf8 "x-forwarded-for" =
      [120, 45, 102, 111, 114, 119, 97, 114, 100, 101, 100, 45, 102, 111, 114] := by decide
  unfold HeaderRefs.note hdrXff
  rw [hname]
  dsimp only
  rw [if_neg (by decide), if_neg (by decide), if_pos (by decide),
    if_pos ⟨by decide, asciiEqIgnoreCase_self _⟩]

theorem note_xri : HeaderRefs.note isOptions h (hdrXri, v) = { h with xRealIp := some v } := by
  have hname : utf8 "x-real-ip" = [120, 45, 114, 101, 97, 108, 45, 105, 112] := by decide
  unfold HeaderRefs.note hdrXri
  rw [hname]
  dsimp only
  rw [if_neg (by decide), if_neg (by decide), if_pos (by decide), if_neg (by decide),
    if_pos ⟨by decide, asciiEqIgnoreCase_self _⟩]

theorem note_xfp : HeaderRefs.note isOptions h (hdrXfp, v) = { h with xForwardedProto := some v } := by
  have hname : utf8 "x-forwarded-proto" =
      [120, 45, 102, 111, 114, 119, 97, 114, 100, 101, 100, 45, 112, 114, 111, 116, 111] := by decide
  unfold HeaderRefs.note hdrXfp
  rw [hname]
  dsimp only
  rw [if_neg (by decide), if_neg (by decide), if_pos (by decide), if_neg (by decide),
    if_neg (by decide), if_pos ⟨by decide, asciiEqIgnoreCase_self _⟩]

theorem note_acrm : HeaderRefs.note true h (hdrAcrm, v) = { h with acrm := some v } := by
  have hname : utf8 "access-control-request-method" =
      [97, 99, 99, 101, 115, 115, 45, 99, 111, 110, 116, 114, 111, 108, 45, 114, 101, 113, 117,
       101, 115, 116, 45, 109, 101, 116, 104, 111, 100] := by decide
  unfold HeaderRefs.note hdrAcrm
  rw [hname]
  dsimp only
  rw [if_neg (by decide), if_neg (by decide), if_neg (by decide), if_pos (by decide),
    if_pos ⟨by decide, asciiEqIgnoreCase_self _⟩]

theorem note_acrh : HeaderRefs.note true h (hdrAcrh, v) = { h with acrh := some v } := by
  have hname : utf8 "access-control-request-headers" =
      [97, 99, 99, 101, 115, 115, 45, 99, 111, 110, 116, 114, 111, 108, 45, 114, 101, 113, 117,
       101, 115, 116, 45, 104, 101, 97, 100, 101, 114, 115] := by decide
  unfold HeaderRefs.note hdrAcrh
  rw [hname]
  dsimp only
  rw [if_neg (by decide), if_neg (by decide), if_neg (by decide), if_pos (by decide),
    if_neg (by decide), if_pos ⟨by decide, asciiEqIgnoreCase_self _⟩]

end

/-- The visits as a list of seven, each under its condition. -/
theorem forEachSelectedHeader_eq (req : JsRequest) (plan : HeaderPlan) (methodKind : MethodKind) :
    forEachSelectedHeader req plan methodKind none none =
      visitedIf plan.cookie hdrCookie maxCookieHeaderBytes (req.get hdrCookie) ++
      (visitedIf plan.cors hdrOrigin maxSmallHeaderBytes (req.get hdrOrigin) ++
      (visitedIf (plan.cors && methodKind = .options) hdrAcrm maxSmallHeaderBytes (req.get hdrAcrm) ++
      (visitedIf (plan.cors && methodKind = .options) hdrAcrh maxSmallHeaderBytes (req.get hdrAcrh) ++
      (visitedIf plan.proxy hdrXff maxXffHeaderBytes (req.get hdrXff) ++
      (visitedIf plan.proxy hdrXri maxSmallHeaderBytes (req.get hdrXri) ++
      visitedIf plan.proto hdrXfp maxSmallHeaderBytes (req.get hdrXfp)))))) := by
  have hgroup : ∀ (b : Bool) (p q : List (Bytes × JsString)),
      (if b then p ++ q else []) = (if b then p else []) ++ if b then q else [] := by
    intro b p q
    cases b <;> rfl
  have hinner : ∀ (b : Bool) (p : List (Bytes × JsString)),
      (if b then if methodKind = .options then p else [] else []) =
        if b && methodKind = .options then p else [] := by
    intro b p
    cases b with
    | false => rfl
    | true => simp only [Bool.true_and, if_true, decide_eq_true_iff]
  unfold forEachSelectedHeader visitedIf
  simp only [hgroup, hinner, Option.getD_none, List.append_assoc]

/-- **What the native side notes** of the selected headers. -/
theorem foldl_note_selected (req : JsRequest) (plan : HeaderPlan) (methodKind : MethodKind) :
    ((forEachSelectedHeader req plan methodKind none none).map encoded).foldl
        (HeaderRefs.note (methodKind = .options)) .empty = selectedRefs req plan methodKind := by
  have hpreflight : (plan.cors && decide (methodKind = .options)) = true →
      decide (methodKind = .options) = true := fun h => (Bool.and_eq_true _ _ ▸ h).2
  have hcookie := foldl_note_visitedIf (fun h v => { h with cookie := v.or h.cookie })
    (b := plan.cookie) (fun _ => rfl) fun _ h v => note_cookie (methodKind = .options) h v
  have horigin := foldl_note_visitedIf (fun h v => { h with origin := v.or h.origin })
    (b := plan.cors) (fun _ => rfl) fun _ h v => note_origin (methodKind = .options) h v
  have hacrm := foldl_note_visitedIf (fun h v => { h with acrm := v.or h.acrm }) (fun _ => rfl)
    fun hp h v => hpreflight hp ▸ note_acrm h v
  have hacrh := foldl_note_visitedIf (fun h v => { h with acrh := v.or h.acrh }) (fun _ => rfl)
    fun hp h v => hpreflight hp ▸ note_acrh h v
  have hxff := foldl_note_visitedIf (fun h v => { h with xff := v.or h.xff })
    (b := plan.proxy) (fun _ => rfl) fun _ h v => note_xff (methodKind = .options) h v
  have hxri := foldl_note_visitedIf (fun h v => { h with xRealIp := v.or h.xRealIp })
    (b := plan.proxy) (fun _ => rfl) fun _ h v => note_xri (methodKind = .options) h v
  have hxfp := foldl_note_visitedIf
    (fun h v => { h with xForwardedProto := v.or h.xForwardedProto }) (b := plan.proto)
    (fun _ => rfl) fun _ h v => note_xfp (methodKind = .options) h v
  rw [forEachSelectedHeader_eq]
  simp only [List.map_append, List.foldl_append]
  rw [hcookie, horigin, hacrm, hacrh, hxff, hxri, hxfp]
  simp only [HeaderRefs.empty, Option.or_none, selectedRefs]

/-- At most seven headers are selected, with names and values that fit their length fields. -/
theorem selected_fits (req : JsRequest) (plan : HeaderPlan) (methodKind : MethodKind) :
    (forEachSelectedHeader req plan methodKind none none).length ≤ 7 ∧
      ∀ p ∈ (forEachSelectedHeader req plan methodKind none none).map encoded, PairFits p := by
  have hone : ∀ (b : Bool) (name : Bytes) (bound : Nat), name.length < 2 ^ 16 → bound ≤ 8192 →
      ∀ value, (visitedIf b name bound value).length ≤ 1 ∧
        ∀ p ∈ (visitedIf b name bound value).map encoded, PairFits p := by
    intro b name bound hname hbound value
    cases b with
    | false => exact ⟨Nat.zero_le _, fun p hp => absurd hp List.not_mem_nil⟩
    | true =>
      show (visited name bound value).length ≤ 1 ∧
        ∀ p ∈ (visited name bound value).map encoded, PairFits p
      rcases flatMap_visited name bound value with h | ⟨v, -, hle, h⟩
      · rw [h]
        exact ⟨Nat.zero_le _, fun p hp => absurd hp List.not_mem_nil⟩
      · rw [h]
        refine ⟨Nat.le_refl _, fun p hp => ?_⟩
        rw [List.map_singleton, List.mem_singleton] at hp
        rw [hp]
        have hencode := Utf16.length_encode_le v
        exact ⟨hname, show (Utf16.encode v).length < 2 ^ 32 by omega⟩
  -- one header a wish of the plan
  have h1 := hone plan.cookie hdrCookie maxCookieHeaderBytes (by decide) (by decide)
    (req.get hdrCookie)
  have h2 := hone plan.cors hdrOrigin maxSmallHeaderBytes (by decide) (by decide)
    (req.get hdrOrigin)
  have h3 := hone (plan.cors && methodKind = .options) hdrAcrm maxSmallHeaderBytes (by decide)
    (by decide) (req.get hdrAcrm)
  have h4 := hone (plan.cors && methodKind = .options) hdrAcrh maxSmallHeaderBytes (by decide)
    (by decide) (req.get hdrAcrh)
  have h5 := hone plan.proxy hdrXff maxXffHeaderBytes (by decide) (by decide) (req.get hdrXff)
  have h6 := hone plan.proxy hdrXri maxSmallHeaderBytes (by decide) (by decide) (req.get hdrXri)
  have h7 := hone plan.proto hdrXfp maxSmallHeaderBytes (by decide) (by decide) (req.get hdrXfp)
  rw [forEachSelectedHeader_eq]
  constructor
  · simp only [List.length_append]
    omega
  · intro p hp
    simp only [List.map_append, List.mem_append] at hp
    rcases hp with hp | hp | hp | hp | hp | hp | hp
    · exact h1.2 p hp
    · exact h2.2 p hp
    · exact h3.2 p hp
    · exact h4.2 p hp
    · exact h5.2 p hp
    · exact h6.2 p hp
    · exact h7.2 p hp

/-- **Reading the block back**: the pairs of the selected headers, unless the instance allows
fewer. -/
theorem readPairs_block (req : JsRequest) (plan : HeaderPlan) (methodKind : MethodKind)
    (maxHeaders : Nat) :
    readPairs (block (forEachSelectedHeader req plan methodKind none none)) maxHeaders =
      if maxHeaders < (forEachSelectedHeader req plan methodKind none none).length then
        .error "too many headers"
      else .ok ((forEachSelectedHeader req plan methodKind none none).map encoded) := by
  obtain ⟨hcount, hpairs⟩ := selected_fits req plan methodKind
  rw [block, readPairs_packHeaders (by rw [List.length_map]; omega) hpairs, List.length_map]

/-- **`HeaderRefs::parse`** of the block: the selected headers. -/
theorem parse_block (req : JsRequest) (plan : HeaderPlan) (methodKind : MethodKind) {maxHeaders : Nat}
    (hmax : (forEachSelectedHeader req plan methodKind none none).length ≤ maxHeaders) :
    HeaderRefs.parse (block (forEachSelectedHeader req plan methodKind none none))
      (methodKind = .options) maxHeaders = .ok (selectedRefs req plan methodKind) := by
  rw [HeaderRefs.parse_eq, readPairs_block, if_neg (Nat.not_lt.mpr hmax)]
  exact congrArg Except.ok (foldl_note_selected req plan methodKind)

end Castrum.Packing
