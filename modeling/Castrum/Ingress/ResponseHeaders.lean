import Castrum.Ingress.BakedResult
import Castrum.Lib.JsMap
import Castrum.Lib.Runs
import Castrum.Lib.Split
import Castrum.Util.Str

/-!
# Castrum — the headers of the responses (`src/ingress/response/baked-response.ts`, `src/ingress/headers/`)

A handler bakes the headers of each variant once. What a request adds to them is written into a fresh
array, save that an array with nothing but the origin is kept for the next request from it, in a map
that drops its oldest entry when it is full. The `Headers` of an array are built once for all handlers,
and found again by the identity of the array.

* `entries` / `terminalEntries` — the headers of a response without any of this;
* `BakedBuilders.Good` — the arrays a handler keeps are what their keys say;
* `responseHeaders_gives` / `successHeaders_gives` / `terminalHeaders_gives` — what the builders hand out;
* `served_headers` — in every state reached, what was handed out is what the request alone asks for.
-/

namespace Castrum

/-! ## Headers -/

/-- A header: its name, in lower case, and its value. -/
abbrev HeaderPair : Type := Str × Str

/-- A text of the source. -/
def bakedText (s : String) : Str := s.toList

/-- A `Headers` object, as its header list. -/
abbrev Headers : Type := List HeaderPair

namespace Headers

/-- `new Headers(entries)`: one entry appended after the other. -/
def ofEntries (entries : List HeaderPair) : Headers := entries.foldl (fun h p => h ++ [p]) []

/-- `set`: the first header of the name is replaced and the others go, or a new one comes last. -/
def set (name value : Str) : Headers → Headers
  | [] => [(name, value)]
  | p :: rest =>
    if p.1 = name then (name, value) :: rest.filter (·.1 ≠ name) else p :: set name value rest

def values (h : Headers) (name : Str) : List Str := (h.filter (·.1 = name)).map Prod.snd

/-- `get`: all values of the name. -/
def get? (h : Headers) (name : Str) : Option Str :=
  if h.values name = [] then none else some ((bakedText ", ").intercalate (h.values name))

theorem ofEntries_eq (entries : List HeaderPair) : ofEntries entries = entries := by
  have key : ∀ (l h : List HeaderPair), l.foldl (fun h p => h ++ [p]) h = h ++ l := by
    intro l
    induction l with
    | nil => simp
    | cons p l ih =>
      intro h
      rw [List.foldl_cons, ih, List.append_assoc]
      rfl
  exact key entries []

theorem values_append (h h' : Headers) (name : Str) :
    values (h ++ h') name = values h name ++ values h' name := by
  rw [values, List.filter_append, List.map_append]
  rfl

end Headers

/-! ## Templates -/

/-- The options of CORS that the templates use, with the text of the number `maxAge`. -/
structure BakedCorsOptions where
  allowOrigin : Option (List Str) := none
  allowMethods : Option (List Str) := none
  allowHeaders : Option (List Str) := none
  exposeHeaders : Option (List Str) := none
  allowCredentials : Bool := false
  maxAge : Option Str := none

/-- What the headers of a handler depend on: the security headers, CORS, and the limit if rates are limited. -/
structure BakedConfig where
  securityEntries : List HeaderPair
  cors : Option BakedCorsOptions
  limit : Option Nat
  emitRequestIdHeader : Bool

/-- `String(n)` for a natural number. -/
def natText (n : Nat) : Str := Nat.toDigits 10 n

/-- `list?.join(', ') ?? ''`. -/
def joined (list : Option (List Str)) : Str := (list.map (bakedText ", ").intercalate).getD []

/-- `(variant & bit) !== 0`. -/
def hasBit (variant : Nat) (bit : UInt8) : Bool := variant &&& bit.toNat ≠ 0

namespace BakedConfig

/-- The headers that are baked for a variant. -/
def template (c : BakedConfig) (variant : Nat) : List HeaderPair :=
  let credentials : List HeaderPair :=
    if (c.cors.map (·.allowCredentials)).getD false then
      [(bakedText "access-control-allow-credentials", bakedText "true")]
    else []
  let corsExposeHeaders := joined (c.cors.bind (·.exposeHeaders))
  c.securityEntries ++
  (if hasBit variant hvJson then [(bakedText "content-type", bakedText "application/json")] else []) ++
  (if hasBit variant hvCorsSimple then
    (bakedText "vary", bakedText "Origin") :: credentials ++
      if corsExposeHeaders ≠ [] then [(bakedText "access-control-expose-headers", corsExposeHeaders)] else []
  else []) ++
  (if hasBit variant hvCorsPreflight then
    (bakedText "vary",
        bakedText "Origin, Access-Control-Request-Method, Access-Control-Request-Headers") ::
      credentials ++
      [(bakedText "access-control-allow-methods", joined (c.cors.bind (·.allowMethods))),
        (bakedText "access-control-allow-headers", joined (c.cors.bind (·.allowHeaders))),
        (bakedText "access-control-max-age", (c.cors.bind (·.maxAge)).getD [])]
  else []) ++
  if hasBit variant hvRateActive then
    [(bakedText "ratelimit-limit", (c.limit.map natText).getD [])]
  else []

def noStore : HeaderPair := (bakedText "cache-control", bakedText "no-store")

end BakedConfig

def allowOriginName : Str := bakedText "access-control-allow-origin"

def requestIdName : Str := bakedText "x-request-id"

def remainingName : Str := bakedText "ratelimit-remaining"

def resetName : Str := bakedText "ratelimit-reset"

/-- What a request adds to the headers of its variant. -/
structure Extras where
  requestIdHeader : Option Str
  origin : Option Str
  rateRemaining : Option Nat := none
  rateResetSecs : Option Nat := none
  retryAfterSecs : Option Nat := none

namespace Extras

def needsRequestId (e : Extras) (emitRequestIdHeader : Bool) : Bool :=
  emitRequestIdHeader && e.requestIdHeader.isSome

def needsOrigin (e : Extras) (variant : Nat) : Bool :=
  (hasBit variant hvCorsSimple || hasBit variant hvCorsPreflight) && e.origin.isSome

end Extras

namespace BakedConfig

/-- **The headers of a response**: those of the variant, and what the request adds. -/
def entries (c : BakedConfig) (variant : Nat) (e : Extras) : List HeaderPair :=
  c.template (variant &&& 31) ++
  (if e.needsRequestId c.emitRequestIdHeader then [(requestIdName, e.requestIdHeader.getD [])] else []) ++
  (if e.needsOrigin variant then [(allowOriginName, e.origin.getD [])] else []) ++
  (if hasBit variant hvRateActive then
    [(remainingName, natText (e.rateRemaining.getD 0)), (resetName, natText (e.rateResetSecs.getD 0))]
  else []) ++
  if hasBit variant hvRateLimited then
    [(bakedText "retry-after", natText (e.retryAfterSecs.getD 0))]
  else []

end BakedConfig

/-- `BakedContext`. -/
structure BakedContext where
  requestIdHeader : Option Str
  origin : Option Str

/-- `Math.ceil(ms / 1000)`. -/
def secondsFromMs (ms : Nat) : Nat := (ms + 999) / 1000

/-- `ms > 0 ? secondsFromMs(ms) : undefined`. -/
def someSeconds (ms : Nat) : Option Nat := if 0 < ms then some (secondsFromMs ms) else none

/-- What a request and its result add. -/
def extrasOf (ctx : BakedContext) (result : Option BakedIngressResult) : Extras where
  requestIdHeader := ctx.requestIdHeader
  origin := ctx.origin
  rateRemaining := result.map (·.rateRemaining)
  rateResetSecs := result.bind fun r => someSeconds r.rateResetMs
  retryAfterSecs := result.bind fun r => someSeconds r.retryAfterMs

/-- **The headers of a terminal response.** -/
def BakedConfig.terminalEntries (c : BakedConfig) (variant : Nat) (ctx : BakedContext)
    (result : Option BakedIngressResult) : List HeaderPair :=
  c.entries (variant ||| hvJson.toNat) (extrasOf ctx result) ++ [BakedConfig.noStore]

/-- **The headers of a success**: each that the request adds replaces one of the variant's. -/
def BakedConfig.success (c : BakedConfig) (variant : Nat) (e : Extras) : Headers :=
  let h := Headers.ofEntries (c.template (variant &&& 31) ++
    if e.needsOrigin variant then [(allowOriginName, e.origin.getD [])] else [])
  let h := if e.needsRequestId c.emitRequestIdHeader then h.set requestIdName (e.requestIdHeader.getD []) else h
  if hasBit variant hvRateActive then
    (h.set remainingName (natText (e.rateRemaining.getD 0))).set resetName (natText (e.rateResetSecs.getD 0))
  else h

/-! ## Objects

What was handed out must not change under its holder, so it matters which objects are one and the
same: each has an identity here. -/

/-- The objects of the process: arrays of headers and `Headers`, each with its identity, and the memo that
leads from the one to the other. -/
structure Objects where
  arrays : List (List HeaderPair)
  headers : List Headers
  /-- `CACHE`. -/
  memo : JsMap Nat Nat

namespace Objects

def array (o : Objects) (id : Nat) : List HeaderPair := o.arrays.getD id []

def newArray (o : Objects) (entries : List HeaderPair) : Nat × Objects :=
  (o.arrays.length, { o with arrays := o.arrays ++ [entries] })

def header (o : Objects) (id : Nat) : Headers := o.headers.getD id []

def newHeaders (o : Objects) (h : Headers) : Nat × Objects :=
  (o.headers.length, { o with headers := o.headers ++ [h] })

/-- `headers.set(name, value)`. -/
def setHeader (o : Objects) (id : Nat) (name value : Str) : Objects :=
  { o with headers := o.headers.modify id (Headers.set name value) }

def memoizedHeaders (o : Objects) (entries : Nat) : Nat × Objects :=
  match o.memo.get? entries with
  | some existing => (existing, o)
  | none =>
    let r := o.newHeaders (.ofEntries (o.array entries))
    (r.1, { r.2 with memo := r.2.memo.set entries r.1 })

end Objects

/-! ## The builders -/

def originHeaderCacheMax : Nat := 64

/-- The builders of a handler: the arrays of its templates, and those it keeps for an origin. -/
structure BakedBuilders where
  config : BakedConfig
  headerTemplates : Fin 32 → Nat
  terminalTemplates : Fin 32 → Nat
  originHeaderCache : JsMap Str Nat

/-- `variant & 31`. -/
def slotOf (variant : Nat) : Fin 32 := ⟨variant &&& 31, Nat.lt_succ_of_le Nat.and_le_right⟩

/-- The key of an origin and a variant, with a NUL between them. -/
def originKey (variant : Nat) (origin : Str) : Str := natText (variant &&& 31) ++ '\x00' :: origin

namespace BakedBuilders

/-- What a builder hands out, and what it leaves. -/
abbrev Built : Type := Nat × BakedBuilders × Objects

def originBaseEntries (b : BakedBuilders) (o : Objects) (variant : Nat) (origin : Str) : Built :=
  let key := originKey variant origin
  match b.originHeaderCache.get? key with
  | some cached => (cached, b, o)
  | none =>
    let r := o.newArray (o.array (b.headerTemplates (slotOf variant)) ++ [(allowOriginName, origin)])
    (r.1, { b with
      originHeaderCache := (b.originHeaderCache.evictOldest originHeaderCacheMax).set key r.1 }, r.2)

def responseHeaders (b : BakedBuilders) (o : Objects) (variant : Nat) (e : Extras) : Built :=
  let template := b.headerTemplates (slotOf variant)
  let needsRequestId := e.needsRequestId b.config.emitRequestIdHeader
  let needsOrigin := e.needsOrigin variant
  let needsRate := hasBit variant hvRateActive
  let needsRetry := hasBit variant hvRateLimited
  if !needsRequestId && !needsOrigin && !needsRate && !needsRetry then (template, b, o)
  else if !needsRequestId && !needsRate && !needsRetry && needsOrigin then
    b.originBaseEntries o variant (e.origin.getD [])
  else
    let r := o.newArray (o.array template ++
      (if needsRequestId then [(requestIdName, e.requestIdHeader.getD [])] else []) ++
      (if needsOrigin then [(allowOriginName, e.origin.getD [])] else []) ++
      (if needsRate then
        [(remainingName, natText (e.rateRemaining.getD 0)), (resetName, natText (e.rateResetSecs.getD 0))]
      else []) ++
      if needsRetry then [(bakedText "retry-after", natText (e.retryAfterSecs.getD 0))] else [])
    (r.1, b, r.2)

/-- `Headers` for a success: those of the array that may be kept, or a copy with what else the request adds. -/
def successHeaders (b : BakedBuilders) (o : Objects) (variant : Nat) (e : Extras) : Built :=
  let needsRequestId := e.needsRequestId b.config.emitRequestIdHeader
  let needsRate := hasBit variant hvRateActive
  let entries :=
    if e.needsOrigin variant then b.originBaseEntries o variant (e.origin.getD [])
    else (b.headerTemplates (slotOf variant), b, o)
  let base := entries.2.2.memoizedHeaders entries.1
  if !needsRequestId && !needsRate then (base.1, entries.2.1, base.2)
  else
    let copy := base.2.newHeaders (base.2.header base.1)
    let o := if needsRequestId then copy.2.setHeader copy.1 requestIdName (e.requestIdHeader.getD []) else copy.2
    let o :=
      if needsRate then
        (o.setHeader copy.1 remainingName (natText (e.rateRemaining.getD 0))).setHeader copy.1 resetName
          (natText (e.rateResetSecs.getD 0))
      else o
    (copy.1, entries.2.1, o)

def terminalHeaders (b : BakedBuilders) (o : Objects) (variant : Nat) (ctx : BakedContext)
    (result : Option BakedIngressResult) : Built :=
  let v := variant ||| hvJson.toNat
  let e := extrasOf ctx result
  if !e.needsRequestId b.config.emitRequestIdHeader && !e.needsOrigin v && !hasBit v hvRateActive &&
      !hasBit v hvRateLimited then
    (b.terminalTemplates (slotOf v), b, o)
  else
    let base := b.responseHeaders o v e
    let r := base.2.2.newArray (base.2.2.array base.1 ++ [BakedConfig.noStore])
    (r.1, base.2.1, r.2)

/-- A response with the headers of an array: it copies them. -/
def respond (r : Response) (built : Built) : (Response × Headers) × BakedBuilders × Objects :=
  let memoized := built.2.2.memoizedHeaders built.1
  ((r, memoized.2.header memoized.1), built.2.1, memoized.2)

/-- `terminalResponse`: status and body as decided, with the headers of the preflight or the terminal. -/
def terminalResponse (b : BakedBuilders) (o : Objects) (result : BakedIngressResult) (ctx : BakedContext) :
    Option (Response × Headers) × BakedBuilders × Objects :=
  match Castrum.terminalResponse result with
  | none => (none, b, o)
  | some r =>
    let built :=
      if result.isPreflight && result.corsAllowed then
        b.responseHeaders o result.headerVariant (extrasOf ctx (some result))
      else b.terminalHeaders o result.headerVariant ctx (some result)
    let answer := respond r built
    (some answer.1, answer.2)

/-- `errorResponse` and `internalErrorResponse`. -/
def errorResponse (b : BakedBuilders) (o : Objects) (result : Option BakedIngressResult) (r : Response)
    (ctx : BakedContext) : (Response × Headers) × BakedBuilders × Objects :=
  respond r (b.terminalHeaders o ((result.map (·.headerVariant)).getD hvJson.toNat) ctx result)

/-- A string's length in code units. -/
def jsLength (s : Str) : Nat := (s.map fun c => if c.toNat < 65536 then 1 else 2).sum

/-- The configured origins that are warmed: those that are not patterns. -/
def exactOrigins (c : BakedConfig) : List Str :=
  ((c.cors.bind (·.allowOrigin)).getD []).filter fun origin =>
    0 < jsLength origin && jsLength origin ≤ 512 && !origin.contains '*'

/-- The variant of a success with CORS. -/
def successVariant (c : BakedConfig) : Nat :=
  hvJson.toNat ||| hvCorsSimple.toNat ||| if c.limit.isSome then hvRateActive.toNat else 0

/-- `prewarmOriginHeaders` for one origin. -/
def prewarm (variant : Nat) (s : BakedBuilders × Objects) (origin : Str) : BakedBuilders × Objects :=
  let built := s.1.responseHeaders s.2 variant { requestIdHeader := none, origin := some origin }
  (built.2.1, (built.2.2.memoizedHeaders built.1).2)

/-- The builders of a new handler: the templates, then the origins. -/
def create (c : BakedConfig) (o : Objects) : BakedBuilders × Objects :=
  let regular := (List.range 32).map c.template
  let terminal := regular.map (· ++ [BakedConfig.noStore])
  let first := o.arrays.length
  let b : BakedBuilders := {
    config := c
    headerTemplates := fun slot => first + slot
    terminalTemplates := fun slot => first + 32 + slot
    originHeaderCache := .empty }
  (exactOrigins c).foldl (prewarm (successVariant c)) (b, { o with arrays := o.arrays ++ (regular ++ terminal) })

end BakedBuilders

/-! ## What stays

The frame of every builder: objects are added and none is changed, and what the handler keeps stays
what its keys say. -/

/-- Nothing that was there is changed. -/
structure Objects.Extends (o o' : Objects) : Prop where
  arrays : o.arrays <+: o'.arrays
  headers : o.headers <+: o'.headers

/-- What the memo says of an array is what the array says. -/
def Objects.Good (o : Objects) : Prop :=
  o.memo.All fun array id =>
    ∃ entries, o.arrays[array]? = some entries ∧ o.headers[id]? = some (.ofEntries entries)

/-- The arrays that a handler keeps are what their keys say, and they are not many. -/
structure BakedBuilders.Good (b : BakedBuilders) (o : Objects) : Prop where
  regular : ∀ slot, o.arrays[b.headerTemplates slot]? = some (b.config.template slot)
  terminal : ∀ slot,
    o.arrays[b.terminalTemplates slot]? = some (b.config.template slot ++ [BakedConfig.noStore])
  kept : b.originHeaderCache.All fun key id => ∃ variant origin, key = originKey variant origin ∧
    o.arrays[id]? = some (b.config.template (variant &&& 31) ++ [(allowOriginName, origin)])
  bounded : b.originHeaderCache.size ≤ originHeaderCacheMax

/-- What holds behind a builder. -/
structure BuilderKeeps (b : BakedBuilders) (o : Objects) (b' : BakedBuilders) (o' : Objects) : Prop where
  extends_ : o.Extends o'
  good : o'.Good
  builders : b'.Good o'
  config : b'.config = b.config

section

variable {o o' o'' : Objects} {b b' b'' : BakedBuilders} {entries : List HeaderPair} {id : Nat}

theorem getElem?_of_prefix {α : Type} {l l' : List α} {a : α} (h : l <+: l') (ha : l[id]? = some a) :
    l'[id]? = some a := by
  obtain ⟨rest, rfl⟩ := h
  rwa [List.getElem?_append_left (List.getElem?_eq_some_iff.mp ha).1]

namespace Objects

theorem Extends.refl (o : Objects) : o.Extends o := ⟨List.prefix_refl _, List.prefix_refl _⟩

theorem Extends.trans (h : o.Extends o') (h' : o'.Extends o'') : o.Extends o'' :=
  ⟨h.arrays.trans h'.arrays, h.headers.trans h'.headers⟩

/-- The memo says the same of the objects that are there later. -/
theorem Good.mono (ho : o.Good) (h : o.Extends o') (hmemo : o'.memo = o.memo) : o'.Good := by
  intro array id hget
  rw [hmemo] at hget
  obtain ⟨entries, hentries, hheaders⟩ := ho array id hget
  exact ⟨entries, getElem?_of_prefix h.arrays hentries, getElem?_of_prefix h.headers hheaders⟩

theorem array_eq (h : o.arrays[id]? = some entries) : o.array id = entries := by
  rw [array, List.getD_eq_getElem?_getD, h]
  rfl

theorem header_eq {hs : Headers} (h : o.headers[id]? = some hs) : o.header id = hs := by
  rw [header, List.getD_eq_getElem?_getD, h]
  rfl

theorem newArray_extends (o : Objects) (entries : List HeaderPair) : o.Extends (o.newArray entries).2 :=
  ⟨List.prefix_append _ _, List.prefix_refl _⟩

theorem newArray_get (o : Objects) (entries : List HeaderPair) :
    (o.newArray entries).2.arrays[(o.newArray entries).1]? = some entries := by
  show (o.arrays ++ [entries])[o.arrays.length]? = some entries
  rw [List.getElem?_append_right (Nat.le_refl _), Nat.sub_self]
  rfl

theorem newHeaders_extends (o : Objects) (h : Headers) : o.Extends (o.newHeaders h).2 :=
  ⟨List.prefix_refl _, List.prefix_append _ _⟩

theorem newHeaders_get (o : Objects) (h : Headers) :
    (o.newHeaders h).2.headers[(o.newHeaders h).1]? = some h := by
  show (o.headers ++ [h])[o.headers.length]? = some h
  rw [List.getElem?_append_right (Nat.le_refl _), Nat.sub_self]
  rfl

/-- **The memo.** The `Headers` of an array are those that it would give, built now or before. -/
theorem memoizedHeaders_gives (ho : o.Good) (h : o.arrays[id]? = some entries) :
    o.Extends (o.memoizedHeaders id).2 ∧ (o.memoizedHeaders id).2.Good ∧
      (o.memoizedHeaders id).2.headers[(o.memoizedHeaders id).1]? = some (.ofEntries entries) := by
  unfold memoizedHeaders
  cases hget : o.memo.get? id with
  | some existing =>
    obtain ⟨entries', hentries, hheaders⟩ := ho id existing hget
    obtain rfl := Option.some.inj (h.symm.trans hentries)
    exact ⟨Extends.refl o, ho, hheaders⟩
  | none =>
    have hext := o.newHeaders_extends (.ofEntries (o.array id))
    have hnew := o.newHeaders_get (.ofEntries (o.array id))
    rw [array_eq h] at hext hnew ⊢
    refine ⟨⟨hext.arrays, hext.headers⟩, JsMap.All.set ?_ ⟨entries, h, hnew⟩, hnew⟩
    exact ho.mono hext rfl

end Objects

/-! ## The builders -/

namespace BakedBuilders

theorem Good.mono (hb : b.Good o) (h : o.Extends o') : b.Good o' where
  regular slot := getElem?_of_prefix h.arrays (hb.regular slot)
  terminal slot := getElem?_of_prefix h.arrays (hb.terminal slot)
  kept key id hget := by
    obtain ⟨variant, origin, hkey, hentries⟩ := hb.kept key id hget
    exact ⟨variant, origin, hkey, getElem?_of_prefix h.arrays hentries⟩
  bounded := hb.bounded

end BakedBuilders

theorem BuilderKeeps.refl (ho : o.Good) (hb : b.Good o) : BuilderKeeps b o b o := ⟨.refl o, ho, hb, rfl⟩

theorem BuilderKeeps.trans (h : BuilderKeeps b o b' o') (h' : BuilderKeeps b' o' b'' o'') :
    BuilderKeeps b o b'' o'' :=
  ⟨h.extends_.trans h'.extends_, h'.good, h'.builders, h'.config.trans h.config⟩

/-- What leaves the handler alone. -/
theorem BuilderKeeps.objects (hb : b.Good o) (h : o.Extends o') (ho' : o'.Good) : BuilderKeeps b o b o' :=
  ⟨h, ho', hb.mono h, rfl⟩

theorem BuilderKeeps.newArray (ho : o.Good) (hb : b.Good o) (entries : List HeaderPair) :
    BuilderKeeps b o b (o.newArray entries).2 :=
  .objects hb (o.newArray_extends entries) (ho.mono (o.newArray_extends entries) rfl)

/-- **The key of an origin.** -/
theorem originKey_inj {variant variant' : Nat} {origin origin' : Str}
    (h : originKey variant origin = originKey variant' origin') :
    variant &&& 31 = variant' &&& 31 ∧ origin = origin' := by
  have hdigits : ∀ n : Nat, '\x00' ∉ natText n := fun n hmem =>
    absurd (Nat.isDigit_of_mem_toDigits (by decide) (by decide) hmem) (by decide)
  have hcut := congrArg (cutAt '\x00') h
  rw [originKey, cutAt_append (hdigits _), originKey, cutAt_append (hdigits _), Option.some.injEq,
    Prod.mk.injEq] at hcut
  refine ⟨?_, hcut.2⟩
  have hvalue := congrArg (Nat.ofDigitChars 10 · 0) hcut.1
  simpa only [natText, Nat.ofDigitChars_toDigits (b := 10) (by decide) (by decide)] using hvalue

namespace BakedBuilders

theorem originBaseEntries_gives (ho : o.Good) (hb : b.Good o) (variant : Nat) (origin : Str) :
    let built := b.originBaseEntries o variant origin
    BuilderKeeps b o built.2.1 built.2.2 ∧ built.2.2.arrays[built.1]? =
      some (b.config.template (variant &&& 31) ++ [(allowOriginName, origin)]) := by
  unfold originBaseEntries
  dsimp only
  cases hget : b.originHeaderCache.get? (originKey variant origin) with
  | some cached =>
    obtain ⟨variant', origin', hkey, hentries⟩ := hb.kept _ _ hget
    obtain ⟨hvariant, rfl⟩ := originKey_inj hkey
    rw [← hvariant] at hentries
    exact ⟨.refl ho hb, hentries⟩
  | none =>
    have hentries : o.array (b.headerTemplates (slotOf variant)) = b.config.template (variant &&& 31) :=
      Objects.array_eq (hb.regular (slotOf variant))
    dsimp only
    rw [hentries]
    have hkeeps := BuilderKeeps.newArray ho hb (b.config.template (variant &&& 31) ++ [(allowOriginName, origin)])
    have hnew := o.newArray_get (b.config.template (variant &&& 31) ++ [(allowOriginName, origin)])
    refine ⟨⟨hkeeps.extends_, hkeeps.good, ?_, rfl⟩, hnew⟩
    exact {
      regular := hkeeps.builders.regular
      terminal := hkeeps.builders.terminal
      kept := hkeeps.builders.kept.evictOldest.set ⟨variant, origin, rfl, hnew⟩
      bounded := JsMap.size_set_le.trans (JsMap.size_evictOldest_lt (by decide) hb.bounded) }

/-- **The array of a response.** -/
theorem responseHeaders_gives (ho : o.Good) (hb : b.Good o) (variant : Nat) (e : Extras) :
    let built := b.responseHeaders o variant e
    BuilderKeeps b o built.2.1 built.2.2 ∧ built.2.2.arrays[built.1]? = some (b.config.entries variant e) := by
  have hregular : o.arrays[b.headerTemplates (slotOf variant)]? = some (b.config.template (variant &&& 31)) :=
    hb.regular (slotOf variant)
  unfold responseHeaders BakedConfig.entries
  dsimp only
  split
  · next hnone =>
    simp only [Bool.and_eq_true, Bool.not_eq_true'] at hnone
    simp only [hnone, Bool.false_eq_true, if_false, List.append_nil]
    exact ⟨.refl ho hb, hregular⟩
  · split
    · next horigin =>
      simp only [Bool.and_eq_true, Bool.not_eq_true'] at horigin
      simp only [horigin, Bool.false_eq_true, if_false, if_true, List.append_nil]
      exact originBaseEntries_gives ho hb variant (e.origin.getD [])
    · rw [Objects.array_eq hregular]
      exact ⟨.newArray ho hb _, o.newArray_get _⟩

theorem modify_length_append {α : Type} (l : List α) (a : α) (f : α → α) :
    (l ++ [a]).modify l.length f = l ++ [f a] := by
  induction l with
  | nil => rfl
  | cons x l ih =>
    rw [List.cons_append, List.length_cons, List.modify_succ_cons, ih]
    rfl

theorem newHeaders_fst (o : Objects) (h : Headers) : (o.newHeaders h).1 = o.headers.length := rfl

/-- A header that is set on a copy leaves the other objects alone. -/
theorem setHeader_fresh (o : Objects) (h : Headers) (name value : Str) :
    (o.newHeaders h).2.setHeader o.headers.length name value = (o.newHeaders (h.set name value)).2 := by
  show Objects.mk o.arrays ((o.headers ++ [h]).modify o.headers.length (Headers.set name value)) o.memo = _
  rw [modify_length_append]
  rfl

/-- **The `Headers` of a success.** -/
theorem successHeaders_gives (ho : o.Good) (hb : b.Good o) (variant : Nat) (e : Extras) :
    let built := b.successHeaders o variant e
    BuilderKeeps b o built.2.1 built.2.2 ∧ built.2.2.headers[built.1]? = some (b.config.success variant e) := by
  unfold successHeaders BakedConfig.success
  dsimp only
  generalize hbase : (if e.needsOrigin variant = true then b.originBaseEntries o variant (e.origin.getD [])
    else (b.headerTemplates (slotOf variant), b, o)) = base
  have hgives : BuilderKeeps b o base.2.1 base.2.2 ∧
      base.2.2.arrays[base.1]? = some (b.config.template (variant &&& 31) ++
      if e.needsOrigin variant = true then [(allowOriginName, e.origin.getD [])] else []) := by
    rw [← hbase]
    split
    · exact originBaseEntries_gives ho hb variant (e.origin.getD [])
    · rw [List.append_nil]
      exact ⟨.refl ho hb, hb.regular (slotOf variant)⟩
  obtain ⟨hkeeps, hentries⟩ := hgives
  obtain ⟨hext, hgood, hheaders⟩ := Objects.memoizedHeaders_gives hkeeps.good hentries
  have hmemo := hkeeps.trans (.objects hkeeps.builders hext hgood)
  rw [Objects.header_eq hheaders]
  generalize base.2.2.memoizedHeaders base.1 = memoized at hext hgood hheaders hmemo ⊢
  generalize Headers.ofEntries _ = h at hheaders ⊢
  -- A header that depends on the request goes into a copy, never into the memoized one.
  have hcopy : ∀ h', BuilderKeeps b o base.2.1 (memoized.2.newHeaders h').2 := fun h' =>
    hmemo.trans (.objects hmemo.builders (memoized.2.newHeaders_extends h')
      (hgood.mono (memoized.2.newHeaders_extends h') rfl))
  cases hid : e.needsRequestId b.config.emitRequestIdHeader <;> cases hrate : hasBit variant hvRateActive
  · exact ⟨hmemo, hheaders⟩
  all_goals
    simp only [Bool.not_true, Bool.not_false, Bool.and_false, Bool.false_and, Bool.false_eq_true, if_false, if_true,
      newHeaders_fst, setHeader_fresh]
    exact ⟨hcopy _, memoized.2.newHeaders_get _⟩

/-- **The array of a terminal response.** -/
theorem terminalHeaders_gives (ho : o.Good) (hb : b.Good o) (variant : Nat) (ctx : BakedContext)
    (result : Option BakedIngressResult) :
    let built := b.terminalHeaders o variant ctx result
    BuilderKeeps b o built.2.1 built.2.2 ∧
      built.2.2.arrays[built.1]? = some (b.config.terminalEntries variant ctx result) := by
  unfold terminalHeaders
  dsimp only
  split
  · next hnone =>
    -- the template is what would be built
    simp only [Bool.and_eq_true, Bool.not_eq_true'] at hnone
    unfold BakedConfig.terminalEntries BakedConfig.entries
    simp only [hnone, Bool.false_eq_true, if_false, List.append_nil]
    exact ⟨.refl ho hb, hb.terminal (slotOf (variant ||| hvJson.toNat))⟩
  · obtain ⟨hkeeps, hentries⟩ := responseHeaders_gives ho hb (variant ||| hvJson.toNat) (extrasOf ctx result)
    rw [Objects.array_eq hentries]
    exact ⟨hkeeps.trans (.newArray hkeeps.good hkeeps.builders _), Objects.newArray_get _ _⟩

/-- The headers of a response are those of the array. -/
theorem respond_gives {built : Built} (hkeeps : BuilderKeeps b o built.2.1 built.2.2)
    (hentries : built.2.2.arrays[built.1]? = some entries) (r : Response) :
    let answer := respond r built
    BuilderKeeps b o answer.2.1 answer.2.2 ∧ answer.1 = (r, Headers.ofEntries entries) := by
  obtain ⟨hext, hgood, hheaders⟩ := Objects.memoizedHeaders_gives hkeeps.good hentries
  refine ⟨hkeeps.trans (.objects hkeeps.builders hext hgood), ?_⟩
  show (r, _) = _
  rw [Objects.header_eq hheaders]

end BakedBuilders

/-- The headers of `terminalResponse`. -/
def BakedConfig.terminalResponseEntries (c : BakedConfig) (result : BakedIngressResult) (ctx : BakedContext) :
    List HeaderPair :=
  if result.isPreflight && result.corsAllowed then c.entries result.headerVariant (extrasOf ctx (some result))
  else c.terminalEntries result.headerVariant ctx (some result)

namespace BakedBuilders

theorem terminalResponse_gives (ho : o.Good) (hb : b.Good o) (result : BakedIngressResult) (ctx : BakedContext) :
    let answer := b.terminalResponse o result ctx
    BuilderKeeps b o answer.2.1 answer.2.2 ∧ answer.1 = (Castrum.terminalResponse result).map fun r =>
      (r, Headers.ofEntries (b.config.terminalResponseEntries result ctx)) := by
  unfold terminalResponse
  cases Castrum.terminalResponse result with
  | none => exact ⟨.refl ho hb, rfl⟩
  | some r =>
    dsimp only
    have hgives : let built := if result.isPreflight && result.corsAllowed then
          b.responseHeaders o result.headerVariant (extrasOf ctx (some result))
        else b.terminalHeaders o result.headerVariant ctx (some result)
        BuilderKeeps b o built.2.1 built.2.2 ∧
          built.2.2.arrays[built.1]? = some (b.config.terminalResponseEntries result ctx) := by
      unfold BakedConfig.terminalResponseEntries
      split
      · exact responseHeaders_gives ho hb _ _
      · exact terminalHeaders_gives ho hb _ _ _
    obtain ⟨hkeeps, hanswer⟩ := respond_gives hgives.1 hgives.2 r
    exact ⟨hkeeps, congrArg some hanswer⟩

theorem errorResponse_gives (ho : o.Good) (hb : b.Good o) (result : Option BakedIngressResult) (r : Response)
    (ctx : BakedContext) :
    let answer := b.errorResponse o result r ctx
    BuilderKeeps b o answer.2.1 answer.2.2 ∧ answer.1 = (r, Headers.ofEntries
      (b.config.terminalEntries ((result.map (·.headerVariant)).getD hvJson.toNat) ctx result)) :=
  let h := terminalHeaders_gives ho hb _ ctx result
  respond_gives h.1 h.2 r

/-! ## New handlers -/

theorem prewarm_keeps (variant : Nat) (origin : Str) (ho : o.Good) (hb : b.Good o) :
    let s := prewarm variant (b, o) origin
    BuilderKeeps b o s.1 s.2 := by
  obtain ⟨hkeeps, hentries⟩ :=
    responseHeaders_gives ho hb variant { requestIdHeader := none, origin := some origin }
  obtain ⟨hext, hgood, -⟩ := Objects.memoizedHeaders_gives hkeeps.good hentries
  exact hkeeps.trans (.objects hkeeps.builders hext hgood)

theorem prewarms_keep (variant : Nat) (origins : List Str) (ho : o.Good) (hb : b.Good o) :
    let s := origins.foldl (prewarm variant) (b, o)
    BuilderKeeps b o s.1 s.2 := by
  induction origins generalizing b o with
  | nil => exact .refl ho hb
  | cons origin origins ih =>
    have hone := prewarm_keeps variant origin ho hb
    exact hone.trans (ih hone.good hone.builders)

/-- **A new handler.** -/
theorem create_good (c : BakedConfig) (ho : o.Good) :
    o.Extends (create c o).2 ∧ (create c o).2.Good ∧ (create c o).1.Good (create c o).2 ∧
      (create c o).1.config = c := by
  unfold create
  dsimp only
  generalize hregular : (List.range 32).map c.template = regular
  have hlength : regular.length = 32 := by rw [← hregular]; simp
  -- The arrays are laid out by variant, the 32 regular ones first and the 32 terminal ones behind
  -- them.
  have hslot : ∀ slot : Fin 32, regular[slot.val]? = some (c.template slot) := fun slot => by
    rw [← hregular, List.getElem?_map, List.getElem?_range slot.isLt]
    rfl
  generalize hterminal : regular.map (· ++ [BakedConfig.noStore]) = terminal
  have hend : ∀ slot : Fin 32, terminal[slot.val]? = some (c.template slot ++ [BakedConfig.noStore]) := fun slot => by
    rw [← hterminal, List.getElem?_map, hslot]
    rfl
  have hext : o.Extends { o with arrays := o.arrays ++ (regular ++ terminal) } :=
    ⟨List.prefix_append _ _, List.prefix_refl _⟩
  have hb : BakedBuilders.Good
      { config := c, headerTemplates := fun slot => o.arrays.length + slot,
        terminalTemplates := fun slot => o.arrays.length + 32 + slot, originHeaderCache := .empty }
      { o with arrays := o.arrays ++ (regular ++ terminal) } := {
    regular := fun slot => by
      show (o.arrays ++ (regular ++ terminal))[o.arrays.length + slot.val]? = _
      rw [List.getElem?_append_right (Nat.le_add_right _ _), Nat.add_sub_cancel_left,
        List.getElem?_append_left (by rw [hlength]; exact slot.isLt)]
      exact hslot slot
    terminal := fun slot => by
      show (o.arrays ++ (regular ++ terminal))[o.arrays.length + 32 + slot.val]? = _
      rw [Nat.add_assoc, List.getElem?_append_right (Nat.le_add_right _ _), Nat.add_sub_cancel_left,
        List.getElem?_append_right (by rw [hlength]; exact Nat.le_add_right _ _), hlength,
        Nat.add_sub_cancel_left]
      exact hend slot
    kept := JsMap.all_empty
    bounded := Nat.zero_le _ }
  have hkeeps := prewarms_keep (successVariant c) (exactOrigins c) (ho.mono hext rfl) hb
  exact ⟨hext.trans hkeeps.extends_, hkeeps.good, hkeeps.builders, hkeeps.config⟩

end BakedBuilders

end

/-! ## Both ways to the headers of a success

`successHeaders` sets headers on a copy, `responseHeaders` appends to an array. Both give the same
headers where no security header has one of the names that are set. -/

/-- No security header has the name of one that a request adds. -/
def BakedConfig.Plain (c : BakedConfig) : Prop :=
  ∀ p ∈ c.securityEntries, p.1 ∉ [requestIdName, remainingName, resetName]

/-- The names that are baked. -/
def bakedNames : List Str :=
  ["content-type", "vary", "access-control-allow-credentials", "access-control-expose-headers",
    "access-control-allow-methods", "access-control-allow-headers", "access-control-max-age",
    "ratelimit-limit"].map bakedText

theorem BakedConfig.mem_template {c : BakedConfig} {variant : Nat} {p : HeaderPair} (h : p ∈ c.template variant) :
    p ∈ c.securityEntries ∨ p.1 ∈ bakedNames := by
  simp only [template, List.mem_append, List.mem_ite_nil_right, List.mem_cons, List.not_mem_nil, or_false] at h
  rcases h with (((h | ⟨-, rfl⟩) | ⟨-, (rfl | ⟨-, rfl⟩) | ⟨-, rfl⟩⟩) |
    ⟨-, (rfl | ⟨-, rfl⟩) | rfl | rfl | rfl⟩) | ⟨-, rfl⟩
  · exact .inl h
  all_goals exact .inr (by dsimp only; decide)

theorem BakedConfig.Plain.template {c : BakedConfig} (h : c.Plain) (variant : Nat) :
    ∀ p ∈ c.template variant, p.1 ∉ [requestIdName, remainingName, resetName] := by
  intro p hp
  rcases BakedConfig.mem_template hp with hp | hp
  · exact h p hp
  · have hall : ∀ name ∈ bakedNames, name ∉ [requestIdName, remainingName, resetName] := by decide
    exact hall p.1 hp

namespace Headers

theorem values_singleton (name value name' : Str) :
    values [(name, value)] name' = if name' = name then [value] else [] := by
  by_cases hname : name' = name
  · simp [values, hname]
  · simp [values, hname, Ne.symm hname]

/-- A header that is set where its name is not there comes last. -/
theorem set_of_not_mem {h : Headers} {name : Str} (value : Str) (hnot : ∀ p ∈ h, p.1 ≠ name) :
    set name value h = h ++ [(name, value)] := by
  induction h with
  | nil => rfl
  | cons p rest ih =>
    rw [set, if_neg (hnot p List.mem_cons_self), ih fun q hq => hnot q (List.mem_cons_of_mem _ hq)]
    rfl

/-- Headers of two names may change places. -/
theorem values_swap {name₁ name₂ : Str} (hne : name₁ ≠ name₂) (c₁ c₂ : Bool) (value₁ value₂ name : Str) :
    values (if c₁ then [(name₁, value₁)] else []) name ++ values (if c₂ then [(name₂, value₂)] else []) name =
      values (if c₂ then [(name₂, value₂)] else []) name ++ values (if c₁ then [(name₁, value₁)] else []) name := by
  have hnil : values [] name = [] := rfl
  cases c₁ <;> cases c₂ <;> simp only [Bool.false_eq_true, if_false, if_true, hnil, List.nil_append, List.append_nil]
  rw [values_singleton, values_singleton]
  by_cases hname : name = name₁
  · have hother : ¬name = name₂ := fun heq => hne (hname.symm.trans heq)
    rw [if_neg hother, List.nil_append, List.append_nil]
  · rw [if_neg hname, List.nil_append, List.append_nil]

end Headers

namespace BakedConfig

variable {c : BakedConfig} {variant : Nat}

/-- Where no security header has its name, what is set comes last. -/
theorem Plain.success_eq (h : c.Plain) (e : Extras) :
    c.success variant e = c.template (variant &&& 31) ++
      (if e.needsOrigin variant then [(allowOriginName, e.origin.getD [])] else []) ++
      (if e.needsRequestId c.emitRequestIdHeader then [(requestIdName, e.requestIdHeader.getD [])] else []) ++
      if hasBit variant hvRateActive then
        [(remainingName, natText (e.rateRemaining.getD 0)), (resetName, natText (e.rateResetSecs.getD 0))]
      else [] := by
  -- None of the names that are set below is there yet, so each `set` appends.
  have horigin : ∀ p ∈ c.template (variant &&& 31) ++
      (if e.needsOrigin variant then [(allowOriginName, e.origin.getD [])] else []),
      p.1 ∉ [requestIdName, remainingName, resetName] := by
    intro p hp
    rcases List.mem_append.mp hp with hp | hp
    · exact h.template _ p hp
    · obtain ⟨-, hp⟩ := List.mem_ite_nil_right.mp hp
      rw [List.mem_singleton.mp hp]
      show allowOriginName ∉ _
      decide
  have hid : ∀ p ∈ c.template (variant &&& 31) ++
      (if e.needsOrigin variant then [(allowOriginName, e.origin.getD [])] else []) ++
      (if e.needsRequestId c.emitRequestIdHeader then [(requestIdName, e.requestIdHeader.getD [])] else []),
      p.1 ∉ [remainingName, resetName] := by
    intro p hp
    rcases List.mem_append.mp hp with hp | hp
    · exact fun hmem => horigin p hp (List.mem_cons_of_mem _ hmem)
    · obtain ⟨-, hp⟩ := List.mem_ite_nil_right.mp hp
      rw [List.mem_singleton.mp hp]
      show requestIdName ∉ _
      decide
  unfold success
  rw [Headers.ofEntries_eq]
  generalize c.template (variant &&& 31) ++
    (if e.needsOrigin variant then [(allowOriginName, e.origin.getD [])] else []) = base at horigin hid ⊢
  dsimp only
  have hset : (if e.needsRequestId c.emitRequestIdHeader then
        Headers.set requestIdName (e.requestIdHeader.getD []) base else base) = base ++
      if e.needsRequestId c.emitRequestIdHeader then [(requestIdName, e.requestIdHeader.getD [])] else [] := by
    split
    · exact Headers.set_of_not_mem _ fun p hp heq => horigin p hp (by rw [heq]; decide)
    · exact (List.append_nil base).symm
  rw [hset]
  generalize base ++ (if e.needsRequestId c.emitRequestIdHeader then
    [(requestIdName, e.requestIdHeader.getD [])] else []) = base' at hid ⊢
  split
  · rw [Headers.set_of_not_mem _ fun p hp heq => hid p hp (by rw [heq]; decide), Headers.set_of_not_mem,
      List.append_assoc]
    · rfl
    · intro p hp
      rcases List.mem_append.mp hp with hp | hp
      · exact fun heq => hid p hp (by rw [heq]; decide)
      · rw [List.mem_singleton.mp hp]
        show remainingName ≠ resetName
        decide
  · exact (List.append_nil base').symm

/-- **Both ways agree.** What is set is what would be added, where no security header has its name. -/
theorem Plain.success_values (h : c.Plain) (hretry : hasBit variant hvRateLimited = false) (e : Extras)
    (name : Str) :
    (c.success variant e).values name = Headers.values (.ofEntries (c.entries variant e)) name := by
  rw [h.success_eq, Headers.ofEntries_eq, entries, hretry, if_neg Bool.false_ne_true, List.append_nil]
  simp only [Headers.values_append]
  rw [List.append_assoc (Headers.values (c.template _) name), Headers.values_swap (by decide),
    ← List.append_assoc (Headers.values (c.template _) name)]

end BakedConfig

/-! ## Runs of a process

Handlers are created and called in any order; the log holds what each call was given. -/

namespace ResponseHeaders

inductive Act where
  | create (c : BakedConfig)
  | responseHeaders (handler variant : Nat) (e : Extras)
  | successHeaders (handler variant : Nat) (e : Extras)
  | terminalHeaders (handler variant : Nat) (ctx : BakedContext) (result : Option BakedIngressResult)
  | terminalResponse (handler : Nat) (result : BakedIngressResult) (ctx : BakedContext)
  | errorResponse (handler : Nat) (result : Option BakedIngressResult) (r : Response) (ctx : BakedContext)

inductive Answer where
  | handler (handler : Nat)
  | array (id : Nat)
  | headers (id : Nat)
  | response (r : Option (Response × Headers))

/-- The objects, the handlers, and what was called and answered so far. -/
structure Process where
  objects : Objects
  handlers : List BakedBuilders
  log : List (Act × Answer)

namespace Process

def new : Process := ⟨⟨[], [], .empty⟩, [], []⟩

/-- A builder of a handler is called. -/
def call (s : Process) (act : Act) (handler : Nat)
    (f : BakedBuilders → Objects → Answer × BakedBuilders × Objects) : Option Process :=
  (s.handlers[handler]?).map fun b =>
    let r := f b s.objects
    ⟨r.2.2, s.handlers.set handler r.2.1, s.log ++ [(act, r.1)]⟩

def step (s : Process) (act : Act) : Option Process :=
  match act with
  | .create c =>
    let r := BakedBuilders.create c s.objects
    some ⟨r.2, s.handlers ++ [r.1], s.log ++ [(act, .handler s.handlers.length)]⟩
  | .responseHeaders handler variant e =>
    s.call act handler fun b o => let r := b.responseHeaders o variant e; (.array r.1, r.2)
  | .successHeaders handler variant e =>
    s.call act handler fun b o => let r := b.successHeaders o variant e; (.headers r.1, r.2)
  | .terminalHeaders handler variant ctx result =>
    s.call act handler fun b o => let r := b.terminalHeaders o variant ctx result; (.array r.1, r.2)
  | .terminalResponse handler result ctx =>
    s.call act handler fun b o => let r := b.terminalResponse o result ctx; (.response r.1, r.2)
  | .errorResponse handler result r ctx =>
    s.call act handler fun b o => let r := b.errorResponse o result r ctx; (.response (some r.1), r.2)

def configs (s : Process) : List BakedConfig := s.handlers.map (·.config)

end Process

/-- What was answered is there, and is what the call asks of the handler's configuration alone. -/
def Faithful (o : Objects) (configs : List BakedConfig) : Act → Answer → Prop
  | .create c, .handler handler => configs[handler]? = some c
  | .responseHeaders handler variant e, .array id =>
    ∃ c, configs[handler]? = some c ∧ o.arrays[id]? = some (c.entries variant e)
  | .successHeaders handler variant e, .headers id =>
    ∃ c, configs[handler]? = some c ∧ o.headers[id]? = some (c.success variant e)
  | .terminalHeaders handler variant ctx result, .array id =>
    ∃ c, configs[handler]? = some c ∧ o.arrays[id]? = some (c.terminalEntries variant ctx result)
  | .terminalResponse handler result ctx, .response r =>
    ∃ c, configs[handler]? = some c ∧ r = (Castrum.terminalResponse result).map fun r =>
      (r, Headers.ofEntries (c.terminalResponseEntries result ctx))
  | .errorResponse handler result r ctx, .response answer =>
    ∃ c, configs[handler]? = some c ∧ answer = some (r, Headers.ofEntries
      (c.terminalEntries ((result.map (·.headerVariant)).getD hvJson.toNat) ctx result))
  | _, _ => False

/-- What holds of every state reached. -/
structure Inv (s : Process) : Prop where
  good : s.objects.Good
  handlers : ∀ b ∈ s.handlers, b.Good s.objects
  faithful : ∀ act answer, (act, answer) ∈ s.log → Faithful s.objects s.configs act answer

section

variable {s t : Process} {o o' : Objects} {configs configs' : List BakedConfig} {act : Act} {answer : Answer}

/-- **Nothing that was handed out is changed.** -/
theorem Faithful.mono (h : Faithful o configs act answer) (ho : o.Extends o') (hc : configs <+: configs') :
    Faithful o' configs' act answer := by
  cases act <;> cases answer <;> try exact h.elim
  case create.handler => exact getElem?_of_prefix hc h
  all_goals
    obtain ⟨c, hconfig, hanswer⟩ := h
    refine ⟨c, getElem?_of_prefix hc hconfig, ?_⟩
    first
    | exact getElem?_of_prefix ho.arrays hanswer
    | exact getElem?_of_prefix ho.headers hanswer
    | exact hanswer

theorem inv_new : Inv .new where
  good := JsMap.all_empty
  handlers b hb := by cases hb
  faithful act answer h := by cases h

/-- A call that keeps what there is and answers as it should. -/
theorem Inv.call (h : Inv s) {handler : Nat} {f : BakedBuilders → Objects → Answer × BakedBuilders × Objects}
    (hf : ∀ b, s.handlers[handler]? = some b → b.Good s.objects →
      BuilderKeeps b s.objects (f b s.objects).2.1 (f b s.objects).2.2 ∧
      (s.configs[handler]? = some b.config →
        Faithful (f b s.objects).2.2 s.configs act (f b s.objects).1))
    (hstep : s.call act handler f = some t) : Inv t := by
  obtain ⟨b, hb, rfl⟩ := Option.map_eq_some_iff.mp hstep
  obtain ⟨hkeeps, hanswer⟩ := hf b hb (h.handlers b (List.mem_of_getElem? hb))
  -- The handler is put back with the configuration it had, so that the log is read as before.
  have hconfig : s.configs[handler]? = some b.config := by
    rw [Process.configs, List.getElem?_map, hb]
    rfl
  have hconfigs : (s.handlers.set handler (f b s.objects).2.1).map (·.config) = s.configs := by
    rw [List.map_set, hkeeps.config]
    show s.configs.set handler b.config = s.configs
    refine List.ext_getElem? fun j => ?_
    rw [List.getElem?_set]
    split
    · next hj =>
      rw [if_pos (List.getElem?_eq_some_iff.mp hconfig).1, ← hj]
      exact hconfig.symm
    · rfl
  refine ⟨hkeeps.good, fun b' hb' => ?_, fun act' answer' hmem => ?_⟩
  · rcases List.mem_or_eq_of_mem_set hb' with hb' | rfl
    · exact (h.handlers b' hb').mono hkeeps.extends_
    · exact hkeeps.builders
  · show Faithful _ ((s.handlers.set handler (f b s.objects).2.1).map (·.config)) act' answer'
    rw [hconfigs]
    rcases List.mem_append.mp hmem with hmem | hmem
    · exact (h.faithful act' answer' hmem).mono hkeeps.extends_ (List.prefix_refl _)
    · obtain ⟨rfl, rfl⟩ := Prod.mk.inj (List.mem_singleton.mp hmem)
      exact hanswer hconfig

/-- **One step.** -/
theorem Inv.step (h : Inv s) (hstep : s.step act = some t) : Inv t := by
  cases act with
  | create c =>
    obtain ⟨hext, hgood, hbuilders, hconfig⟩ := BakedBuilders.create_good c h.good
    obtain rfl := Option.some.inj hstep
    refine ⟨hgood, fun b hb => ?_, fun act' answer' hmem => ?_⟩
    · rcases List.mem_append.mp hb with hb | hb
      · exact (h.handlers b hb).mono hext
      · rw [List.mem_singleton.mp hb]
        exact hbuilders
    -- A new handler comes after the others, and the log names handlers by their place.
    · have hconfigs : s.configs <+: (s.handlers ++ [(BakedBuilders.create c s.objects).1]).map (·.config) := by
        rw [List.map_append]
        exact List.prefix_append _ _
      rcases List.mem_append.mp hmem with hmem | hmem
      · exact (h.faithful act' answer' hmem).mono hext hconfigs
      · obtain ⟨rfl, rfl⟩ := Prod.mk.inj (List.mem_singleton.mp hmem)
        show ((s.handlers ++ [(BakedBuilders.create c s.objects).1]).map (·.config))[s.handlers.length]? = some c
        rw [List.getElem?_map, List.getElem?_append_right (Nat.le_refl _), Nat.sub_self]
        exact congrArg some hconfig
  | responseHeaders handler variant e =>
    dsimp only [Process.step] at hstep
    refine h.call (fun b _ hb => ?_) hstep
    obtain ⟨hkeeps, hentries⟩ := BakedBuilders.responseHeaders_gives h.good hb variant e
    exact ⟨hkeeps, fun hconfig => ⟨b.config, hconfig, hentries⟩⟩
  | successHeaders handler variant e =>
    dsimp only [Process.step] at hstep
    refine h.call (fun b _ hb => ?_) hstep
    obtain ⟨hkeeps, hheaders⟩ := BakedBuilders.successHeaders_gives h.good hb variant e
    exact ⟨hkeeps, fun hconfig => ⟨b.config, hconfig, hheaders⟩⟩
  | terminalHeaders handler variant ctx result =>
    dsimp only [Process.step] at hstep
    refine h.call (fun b _ hb => ?_) hstep
    obtain ⟨hkeeps, hentries⟩ := BakedBuilders.terminalHeaders_gives h.good hb variant ctx result
    exact ⟨hkeeps, fun hconfig => ⟨b.config, hconfig, hentries⟩⟩
  | terminalResponse handler result ctx =>
    dsimp only [Process.step] at hstep
    refine h.call (fun b _ hb => ?_) hstep
    obtain ⟨hkeeps, hanswer⟩ := BakedBuilders.terminalResponse_gives h.good hb result ctx
    exact ⟨hkeeps, fun hconfig => ⟨b.config, hconfig, hanswer⟩⟩
  | errorResponse handler result r ctx =>
    dsimp only [Process.step] at hstep
    refine h.call (fun b _ hb => ?_) hstep
    obtain ⟨hkeeps, hanswer⟩ := BakedBuilders.errorResponse_gives h.good hb result r ctx
    exact ⟨hkeeps, fun hconfig => ⟨b.config, hconfig, congrArg some hanswer⟩⟩

end

/-- What is served in a state reached. -/
structure Served (s : Process) : Prop where
  /-- Whatever was answered before, to whom and from which cache, an answer is what its call asks for. -/
  faithful : ∀ act answer, (act, answer) ∈ s.log → Faithful s.objects s.configs act answer
  /-- A success is served the headers that would have been built for it. -/
  agrees : ∀ {handler variant id : Nat} {e : Extras} {c : BakedConfig},
    (Act.successHeaders handler variant e, Answer.headers id) ∈ s.log → s.configs[handler]? = some c →
    c.Plain → hasBit variant hvRateLimited = false → ∀ name,
    (s.objects.header id).get? name = Headers.get? (.ofEntries (c.entries variant e)) name
  /-- However many origins there were, a handler keeps few. -/
  bounded : ∀ b ∈ s.handlers, b.originHeaderCache.size ≤ originHeaderCacheMax

/-- **Caches do not show.** In every state that any calls of any handlers reach, each array, each `Headers`
object and each response that was handed out has what its own call asks for, with the origin and the request
id of that request and no other, and no handler keeps more arrays than it may. -/
theorem served_headers {acts : List Act} {s : Process} (h : exec Process.step Process.new acts = some s) :
    Served s := by
  have hinv : Inv s := (Run.of_exec acts h).invariant inv_new fun _ _ _ ht _ hstep => ht.step hstep
  refine ⟨hinv.faithful, fun {handler variant id e c} hmem hconfig hplain hretry name => ?_,
    fun b hb => (hinv.handlers b hb).bounded⟩
  obtain ⟨c', hconfig', hheaders⟩ := hinv.faithful _ _ hmem
  obtain rfl := Option.some.inj (hconfig.symm.trans hconfig')
  rw [Objects.header_eq hheaders, Headers.get?, hplain.success_values hretry]
  rfl

def corsConfig : BakedConfig := ⟨[], some {}, none, false⟩

def fromOrigin (origin : String) : Act :=
  .successHeaders 0 3 { requestIdHeader := none, origin := bakedText origin }

/-- Two origins take turns, and the first meets its `Headers` again. -/
theorem served_headers_two : ∃ s,
    exec Process.step Process.new [.create corsConfig, fromOrigin "a", fromOrigin "b", fromOrigin "a"] = some s ∧
    s.log.map Prod.snd = [.handler 0, .headers 0, .headers 1, .headers 0] ∧
    (s.objects.header 0).get? allowOriginName = some (bakedText "a") ∧
    (s.objects.header 1).get? allowOriginName = some (bakedText "b") := by
  have hruns : (exec Process.step Process.new
      [.create corsConfig, fromOrigin "a", fromOrigin "b", fromOrigin "a"]).map (fun s => (s.log, s.configs)) =
      some ([(.create corsConfig, .handler 0), (fromOrigin "a", .headers 0), (fromOrigin "b", .headers 1),
        (fromOrigin "a", .headers 0)], [corsConfig]) := rfl
  obtain ⟨s, hs, hview⟩ := Option.map_eq_some_iff.mp hruns
  obtain ⟨hlog, hconfigs⟩ := Prod.mk.inj hview
  have hserved := served_headers hs
  have hconfig : s.configs[0]? = some corsConfig := by rw [hconfigs]; rfl
  have hplain : corsConfig.Plain := fun p hp => by cases hp
  refine ⟨s, hs, by rw [hlog]; rfl, ?_, ?_⟩
  · rw [hserved.agrees (by rw [hlog]; exact List.mem_cons_of_mem _ List.mem_cons_self) hconfig hplain (by decide)]
    rfl
  · rw [hserved.agrees (by rw [hlog]; exact List.mem_cons_of_mem _ (List.mem_cons_of_mem _ List.mem_cons_self))
      hconfig hplain (by decide)]
    rfl

end ResponseHeaders

end Castrum
