import Castrum.Ingress.HandlerOptions

/-!
# Castrum — the client of a request (`select-headers.ts` and `ip_trust.rs` together)

`Origin.lean` resolves an address from the headers that arrive; JavaScript decides which arrive. A
value of `X-Forwarded-For` that is too long is not packed, and then the peer, or the `X-Real-IP` that
the client wrote, is what counts.

* `clientIp` — the address that an instance counts for a request, from the headers on;
* `clientIp_eq` — it is the resolution over the headers that pass their guards;
* `clientIp_prepend` — what entries in front of `X-Forwarded-For` change, and when.
-/

namespace Castrum

open Packing

/-- What an entry of the native side reads of a request, if no limit is exceeded. -/
def nativeFrame (inner : IngressInner) (transport : Transport) (p : IngressInputPacker)
    (mk : MethodKind) (url : JsString) (ip : Option JsString) (rid headers : Bytes) : Option Frame :=
  match transport with
  | .components => some ⟨mk, cstring url, cstring (ip.getD []), rid, headers⟩
  | .packed | .napi =>
    (readFrame inner.limits (subarrayTo (packParts p mk.toU8 headers url ip rid))).toOption

/-- The url, as an entry reads it. -/
def urlBytes (transport : Transport) (url : JsString) : Bytes :=
  match transport with
  | .components => cstring url
  | .packed | .napi => Utf16.encode url

/-- The peer's address, as an entry reads it. -/
def socketBytes (transport : Transport) (ip : Option JsString) : Bytes :=
  match transport with
  | .components => cstring (ip.getD [])
  | .packed | .napi => ipSection ip

/-- The limits that an entry checks, those of the headers apart. -/
def admits (limits : Limits) (transport : Transport) (url : JsString) (ip : Option JsString)
    (rid : Bytes) : Bool :=
  match transport with
  | .components => true
  | .packed | .napi =>
    (Utf16.encode url).length ≤ limits.maxUrlBytes.toNat && (ipSection ip).length ≤ maxIdBytes &&
      rid.length ≤ maxIdBytes

/-- **The client of a request**: headers are selected, packed, read and resolved. There is none if the
request is refused for its size before. -/
def clientIp {κ : Type} (options : IngressHandlerOptions κ) (inner : IngressInner)
    (transport : Transport) (history : List CacheCall) (scratch : Scratch) (p : IngressInputPacker)
    (req : JsRequest) (url : JsString) (ip : Option JsString) (rid : Bytes) : Option ResolvedIp := do
  let f ← nativeFrame inner transport p (methodKindOf req.method) (options.packUrl url)
    (options.packIp ip) rid (gatheredHeaders history scratch req options.buildHeaderPlan)
  let headers ← (HeaderRefs.parse f.headersPacked (f.method = .options)
    inner.limits.maxHeaders.toNat).toOption
  some (trustStage inner f.url f.ip headers).1

namespace Packing

/-- The request with another value for a header. -/
def JsRequest.set (req : JsRequest) (name : Bytes) (value : Option JsString) : JsRequest where
  method := req.method
  get := fun n => if n = name then value else req.get n

theorem JsRequest.get_set_self (req : JsRequest) (name : Bytes) (value : Option JsString) :
    (req.set name value).get name = value := if_pos rfl

theorem JsRequest.get_set_of_ne (req : JsRequest) {name n : Bytes} (value : Option JsString)
    (h : n ≠ name) : (req.set name value).get n = req.get n := if_neg h

theorem JsRequest.set_get (req : JsRequest) {name : Bytes} {value : Option JsString}
    (h : req.get name = value) : req.set name value = req := by
  have hget : (req.set name value).get = req.get := by
    funext n
    show (if n = name then value else req.get n) = req.get n
    split
    · next heq => rw [heq, h]
    · rfl
  show JsRequest.mk req.method (req.set name value).get = req
  rw [hget]

theorem JsRequest.Latin1.set {req : JsRequest} (h : req.Latin1) {name : Bytes}
    {value : Option JsString} (hvalue : ∀ v, value = some v → Utf16.Latin1 v) :
    (req.set name value).Latin1 := by
  intro n v hv
  change (if n = name then value else req.get n) = some v at hv
  split at hv
  · exact hvalue v hv
  · exact h n v hv

end Packing

/-! ## From the headers to the address -/

/-- A block within the limit of the instance does not decide whether its frame is read. -/
theorem nativeFrame_eq (inner : IngressInner) (transport : Transport) {url : JsString}
    {ip : Option JsString} (hurl : PackableText url) (hip : ∀ s, ip = some s → PackableText s)
    (rid : RequestId) (p : IngressInputPacker) (mk : MethodKind) {block : Bytes}
    (hblock : block.length ≤ inner.limits.maxHeadersBytes.toNat) :
    nativeFrame inner transport p mk url ip rid.val block =
      if admits inner.limits transport url ip rid.val then
        some ⟨mk, urlBytes transport url, socketBytes transport ip, rid.val, block⟩
      else none := by
  -- the packed entries, by the limits of url, address and request id
  have hpacked : (readFrame inner.limits (subarrayTo (packParts p mk.toU8 block url ip rid.val))).toOption =
      if (Utf16.encode url).length ≤ inner.limits.maxUrlBytes.toNat && (ipSection ip).length ≤ maxIdBytes &&
          rid.val.length ≤ maxIdBytes then
        some ⟨mk, Utf16.encode url, ipSection ip, rid.val, block⟩
      else none := by
    have hid : rid.val.length < 2 ^ 32 := by
      rw [rid.property]
      decide
    have hurlLen := Utf16.length_encode_le url
    have hurlLt : (Utf16.encode url).length < 2 ^ 32 := Nat.lt_of_le_of_lt hurlLen hurl
    have hmax := inner.limits.maxHeadersBytes.toNat_lt
    rw [(packParts_eq p mk.toU8 block url ip rid.val).1,
      readFrame_packFrame inner.limits mk hurlLt (length_ipSection_lt hip) hid (by omega)]
    simp only [Bool.and_eq_true, decide_eq_true_iff]
    by_cases hlongUrl : inner.limits.maxUrlBytes.toNat < (Utf16.encode url).length
    · rw [if_pos hlongUrl, if_neg (by omega)]
      rfl
    by_cases hlongIp : maxIdBytes < (ipSection ip).length
    · rw [if_neg hlongUrl, if_pos hlongIp, if_neg (by omega)]
      rfl
    by_cases hlongRid : maxIdBytes < rid.val.length
    · rw [if_neg hlongUrl, if_neg hlongIp, if_pos hlongRid, if_neg (by omega)]
      rfl
    · rw [if_neg hlongUrl, if_neg hlongIp, if_neg hlongRid, if_neg (Nat.not_lt.mpr hblock),
        if_pos ⟨⟨Nat.not_lt.mp hlongUrl, Nat.not_lt.mp hlongIp⟩, Nat.not_lt.mp hlongRid⟩]
      rfl
  cases transport with
  | components => rfl
  | packed => exact hpacked
  | napi => exact hpacked

/-- A handler that trusts a peer asks for the headers of a proxy, and packs the address. -/
theorem Configured.trusted {κ : Type} {options : IngressHandlerOptions κ} {inner : IngressInner}
    (h : Configured options inner) {socket : Bytes}
    (hpeer : socketIsTrusted inner.proxyTrust socket = true) :
    options.buildHeaderPlan.proxy = true ∧ ∀ ip, options.packIp ip = ip := by
  have htrust : options.trustEnabled = true := by
    rw [← Bool.not_eq_false]
    intro hoff
    rw [h.trust hoff] at hpeer
    cases hpeer
  refine ⟨htrust, fun ip => ?_⟩
  rw [IngressHandlerOptions.packIp, IngressHandlerOptions.ipNeeded, htrust, Bool.or_true, if_pos rfl]

section

variable {κ : Type} {options : IngressHandlerOptions κ} {inner : IngressInner}

/-- **The resolution over the headers that pass their guards**, unless the request is refused. -/
theorem clientIp_eq (hlimit : inner.limits.maxHeadersBytes = 65536)
    (hactive : inner.rate.isActive = true) (transport : Transport) (history : List CacheCall)
    (scratch : Scratch) (p : IngressInputPacker) {req : JsRequest} (hlatin : req.Latin1)
    {url : JsString} {ip : Option JsString} (hurl : PackableText (options.packUrl url))
    (hip : ∀ s, options.packIp ip = some s → PackableText s) (rid : RequestId) :
    clientIp options inner transport history scratch p req url ip rid.val =
      if admits inner.limits transport (options.packUrl url) (options.packIp ip) rid.val = true ∧
          (forEachSelectedHeader req options.buildHeaderPlan (methodKindOf req.method) none none).length ≤
            inner.limits.maxHeaders.toNat then
        some (resolveClientIp inner.proxyTrust (socketBytes transport (options.packIp ip))
          (selectedRefs req options.buildHeaderPlan (methodKindOf req.method)).xff
          (selectedRefs req options.buildHeaderPlan (methodKindOf req.method)).xRealIp).1
      else none := by
  let kind := methodKindOf req.method
  let plan := options.buildHeaderPlan
  let selected := forEachSelectedHeader req plan kind none none
  have hblock : gatheredHeaders history scratch req plan = block selected :=
    gatheredHeaders_eq history scratch req plan
  have hsmall : (block selected).length ≤ inner.limits.maxHeadersBytes.toNat := by
    rw [hlimit]
    exact Nat.le_trans (length_block_le hlatin plan kind) (by decide)
  unfold clientIp
  rw [show gatheredHeaders history scratch req options.buildHeaderPlan = block selected from hblock,
    nativeFrame_eq inner transport hurl hip rid p (methodKindOf req.method) hsmall]
  by_cases hadmits : admits inner.limits transport (options.packUrl url) (options.packIp ip) rid.val = true
  · rw [if_pos hadmits, Option.bind_eq_bind, Option.bind_some]
    -- of the block itself only the count of headers can be refused
    by_cases hcount : selected.length ≤ inner.limits.maxHeaders.toNat
    · rw [if_pos ⟨hadmits, hcount⟩, parse_block req plan kind hcount]
      show some (trustStage inner _ _ _).1 = _
      rw [trustStage]
      simp only [hactive, if_true]
      rfl
    · rw [if_neg fun h => hcount h.2, HeaderRefs.parse_eq, readPairs_block,
        if_pos (Nat.not_le.mp hcount)]
      rfl
  · rw [if_neg hadmits, if_neg fun h => hadmits h.1]
    rfl

/-! ## Growing the header -/

theorem hdrXff_ne : hdrCookie ≠ hdrXff ∧ hdrOrigin ≠ hdrXff ∧ hdrAcrm ≠ hdrXff ∧ hdrAcrh ≠ hdrXff ∧
    hdrXri ≠ hdrXff ∧ hdrXfp ≠ hdrXff := by decide

/-- Only the visit of `X-Forwarded-For` depends on its value. -/
theorem forEachSelectedHeader_set_xff (req : JsRequest) (plan : HeaderPlan) (kind : MethodKind) :
    ∃ before behind : List (Bytes × JsString), ∀ value : Option JsString,
      forEachSelectedHeader (req.set hdrXff value) plan kind none none =
        before ++ (visitedIf plan.proxy hdrXff maxXffHeaderBytes value ++ behind) := by
  obtain ⟨hcookie, horigin, hacrm, hacrh, hxri, hxfp⟩ := hdrXff_ne
  refine ⟨visitedIf plan.cookie hdrCookie maxCookieHeaderBytes (req.get hdrCookie) ++
      (visitedIf plan.cors hdrOrigin maxSmallHeaderBytes (req.get hdrOrigin) ++
      (visitedIf (plan.cors && kind = .options) hdrAcrm maxSmallHeaderBytes (req.get hdrAcrm) ++
      visitedIf (plan.cors && kind = .options) hdrAcrh maxSmallHeaderBytes (req.get hdrAcrh))),
    visitedIf plan.proxy hdrXri maxSmallHeaderBytes (req.get hdrXri) ++
      visitedIf plan.proto hdrXfp maxSmallHeaderBytes (req.get hdrXfp), fun value => ?_⟩
  rw [forEachSelectedHeader_eq, req.get_set_self, req.get_set_of_ne value hcookie,
    req.get_set_of_ne value horigin, req.get_set_of_ne value hacrm, req.get_set_of_ne value hacrh,
    req.get_set_of_ne value hxri, req.get_set_of_ne value hxfp]
  simp only [List.append_assoc]

/-- A value that is too long is as good as none. -/
theorem clientIp_set_xff_long (transport : Transport) (history : List CacheCall) (scratch : Scratch)
    (p : IngressInputPacker) (req : JsRequest) (url : JsString) (ip : Option JsString) (rid : Bytes)
    {value : JsString} (hlong : maxXffHeaderBytes < value.length) :
    clientIp options inner transport history scratch p (req.set hdrXff (some value)) url ip rid =
      clientIp options inner transport history scratch p (req.set hdrXff none) url ip rid := by
  have hheaders : gatheredHeaders history scratch (req.set hdrXff (some value))
        options.buildHeaderPlan =
      gatheredHeaders history scratch (req.set hdrXff none) options.buildHeaderPlan := by
    obtain ⟨before, behind, hset⟩ := forEachSelectedHeader_set_xff req options.buildHeaderPlan
      (methodKindOf req.method)
    have hsame : visitedIf options.buildHeaderPlan.proxy hdrXff maxXffHeaderBytes (some value) =
        visitedIf options.buildHeaderPlan.proxy hdrXff maxXffHeaderBytes none := by
      unfold visitedIf
      rw [visited_of_lt hlong]
      rfl
    rw [gatheredHeaders_eq, gatheredHeaders_eq]
    show Packing.block (forEachSelectedHeader _ _ (methodKindOf req.method) none none) =
      Packing.block (forEachSelectedHeader _ _ (methodKindOf req.method) none none)
    rw [hset, hset, hsame]
  unfold clientIp
  rw [hheaders]
  rfl

/-- The headers that reach the native side as those of a proxy. -/
theorem selectedRefs_set_xff (req : JsRequest) {plan : HeaderPlan} (kind : MethodKind)
    (hproxy : plan.proxy = true) {value : JsString} (hle : value.length ≤ maxXffHeaderBytes) :
    (selectedRefs (req.set hdrXff (some value)) plan kind).xff = some (Utf16.encode value) := by
  have hkept : kept maxXffHeaderBytes (some value) = some (Utf16.encode value) := by
    rw [kept, Option.filter_some, if_pos (by simpa using hle)]
    rfl
  unfold selectedRefs
  rw [req.get_set_self]
  dsimp only
  rw [if_pos hproxy, hkept]

/-- Entries in front of a header, as bytes. -/
theorem encode_prepend (left xff : JsString) :
    Utf16.encode (left ++ 44 :: xff) = Utf16.encode left ++ 44 :: Utf16.encode xff := by
  have hcomma : Utf16.encode (44 :: xff) = 44 :: Utf16.encode xff :=
    Utf16.encode_cons (show (44 : UInt16).toNat < 0x80 by decide) xff
  rw [Utf16.encode_append (show Utf16.isLow 44 = false by decide), hcomma]

/-- **What entries in front of `X-Forwarded-For` change.** Behind a trusted peer, and where the scan
meets an untrusted hop, that hop stays the client as long as the whole value passes its guard of 8192
units; a longer value is left out, and the client is that of a request without the header. -/
theorem clientIp_prepend (natives : Natives κ) (h : createIngressHandler natives options = .ok inner)
    (hlimit : inner.limits.maxHeadersBytes = 65536) (hactive : inner.rate.isActive = true)
    (transport : Transport) (history history' : List CacheCall) (scratch scratch' : Scratch)
    (p p' : IngressInputPacker) (rid : RequestId) {url : JsString} {ip : Option JsString}
    (hurl : PackableText url) (hip : ∀ s, ip = some s → PackableText s)
    (hpeer : socketIsTrusted inner.proxyTrust (socketBytes transport ip) = true)
    {req : JsRequest} (hlatin : req.Latin1) {xff : JsString} (hxff : req.get hdrXff = some xff)
    {hop : IpAddr}
    (hmeets : MeetsHop inner.proxyTrust hop ((Utf16.encode xff).splitOn 44).reverse)
    {left : JsString} (hleft : Utf16.Latin1 left) :
    let client := clientIp options inner transport history scratch p req url ip rid.val
    let grown := clientIp options inner transport history' scratch' p'
      (req.set hdrXff (some (left ++ 44 :: xff))) url ip rid.val
    ((left ++ 44 :: xff).length ≤ 8192 →
      grown = client ∧ (client = none ∨ client = some (.addr hop))) ∧
    (8192 < (left ++ 44 :: xff).length →
      grown = clientIp options inner transport history' scratch' p' (req.set hdrXff none) url ip
        rid.val) := by
  intro client grown
  refine ⟨fun hle => ?_, fun hlong => clientIp_set_xff_long transport history' scratch' p' req url ip
    rid.val hlong⟩
  have hconf := createIngressHandler_inner h
  obtain ⟨hproxy, hpackIp⟩ := hconf.trusted hpeer
  have hpackUrl : PackableText (options.packUrl url) := by
    rcases packUrl_cases options url with heq | ⟨-, heq⟩
    · rw [heq]
      exact hurl
    · rw [heq]
      decide
  have hip' : ∀ s, options.packIp ip = some s → PackableText s := by
    rw [hpackIp]
    exact hip
  have hxffLe : xff.length ≤ maxXffHeaderBytes := by
    rw [List.length_append, List.length_cons] at hle
    show xff.length ≤ 8192
    omega
  have hgrownLatin : (req.set hdrXff (some (left ++ 44 :: xff))).Latin1 := by
    refine hlatin.set fun v hv => ?_
    injection hv with hv
    rw [← hv]
    intro u hu
    rcases List.mem_append.mp hu with hu | hu
    · exact hleft u hu
    · rcases List.mem_cons.mp hu with hcomma | hu
      · rw [hcomma]
        decide
      · exact hlatin _ _ hxff u hu
  have hself : req.set hdrXff (some xff) = req := req.set_get hxff
  -- both values are selected, so as many headers arrive
  obtain ⟨before, behind, hset⟩ := forEachSelectedHeader_set_xff req options.buildHeaderPlan
    (methodKindOf req.method)
  have hcount : (forEachSelectedHeader (req.set hdrXff (some (left ++ 44 :: xff)))
        options.buildHeaderPlan (methodKindOf req.method) none none).length =
      (forEachSelectedHeader req options.buildHeaderPlan (methodKindOf req.method) none none).length := by
    have hone : ∀ v : JsString, v.length ≤ maxXffHeaderBytes →
        (visitedIf options.buildHeaderPlan.proxy hdrXff maxXffHeaderBytes (some v)).length = 1 := by
      intro v hv
      rw [visitedIf, if_pos hproxy, visited_of_le hv, List.length_singleton]
    have hreq := hset (some xff)
    rw [hself] at hreq
    rw [hset, hreq]
    simp only [List.length_append, hone _ hle, hone _ hxffLe]
  have hreqXff := selectedRefs_set_xff req (methodKindOf req.method) hproxy hxffLe
  rw [hself] at hreqXff
  have hclient : client =
      if admits inner.limits transport (options.packUrl url) ip rid.val = true ∧
          (forEachSelectedHeader req options.buildHeaderPlan (methodKindOf req.method) none none).length ≤
            inner.limits.maxHeaders.toNat then some (.addr hop) else none := by
    have heq := clientIp_eq hlimit hactive transport history scratch p hlatin hpackUrl hip' rid
    rw [hpackIp, hreqXff, resolveClientIp_of_meetsHop hpeer hmeets] at heq
    exact heq
  have hgrown : grown = client := by
    have heq := clientIp_eq hlimit hactive transport history' scratch' p' hgrownLatin hpackUrl hip' rid
    rw [hpackIp, selectedRefs_set_xff req _ hproxy hle, encode_prepend,
      resolveClientIp_of_meetsHop hpeer (meetsHop_prepend hmeets (Utf16.encode left))] at heq
    rw [hclient]
    refine heq.trans (if_congr (and_congr_right fun _ => ?_) rfl rfl)
    exact iff_of_eq (congrArg (· ≤ inner.limits.maxHeaders.toNat) hcount)
  refine ⟨hgrown, ?_⟩
  rw [hclient]
  split
  · exact .inr rfl
  · exact .inl rfl

end

/-! ## A header that grows too long -/

section

/-- An edge proxy `9.9.9.9` in front of an instance that counts. -/
def edgeProxy (ip : IpAddr) : Bool := ip = .v4 [9, 9, 9, 9]

def edgeNatives : Natives Unit where
  network := fun s => if s = "9.9.9.9" then .ok (some edgeProxy) else .error "invalid network"
  compileSchema := fun _ => .error "invalid schema"
  corsEngine := fun _ => .ok {}
  sharedLimiter := fun limit windowMs _ => .ok (0, .new limit windowMs none)

def edgeOptions : IngressHandlerOptions Unit where
  trustedProxies := some { enabled := some true, networks := some ["9.9.9.9"] }
  rateLimit := some { limit := some 5 }

def edgeInner : IngressInner where
  proxyTrust := .networks [edgeProxy]
  rate := .enabled 0 (.new 5 1000 none)

/-- The proxy appends the address it saw; `X-Real-IP` is the client's own. -/
def edgeRequest : JsRequest where
  method := "GET"
  get := fun name =>
    if name = hdrXff then some (asciiText "1.2.3.4")
    else if name = hdrXri then some (asciiText "6.6.6.6") else none

/-- So much text in front of the header that the whole is longer than 8192 units. -/
def longEntry : JsString := List.replicate 8192 97

def edgeClient (req : JsRequest) : Option ResolvedIp :=
  clientIp edgeOptions edgeInner .packed [] plainScratch (.new 0) req [] (some (asciiText "9.9.9.9"))
    plainId.val

theorem createIngressHandler_edge : createIngressHandler edgeNatives edgeOptions = .ok edgeInner := rfl

theorem edgeRequest_get (name : Bytes) (v : JsString) (h : edgeRequest.get name = some v) :
    v = asciiText "1.2.3.4" ∨ v = asciiText "6.6.6.6" := by
  change (if name = hdrXff then _ else if name = hdrXri then _ else none) = some v at h
  split at h
  · injection h with h
    exact .inl h.symm
  · split at h
    · injection h with h
      exact .inr h.symm
    · cases h

theorem edgeRequest_latin1 : edgeRequest.Latin1 := by
  intro name v hv
  rcases edgeRequest_get name v hv with rfl | rfl
  · unfold Utf16.Latin1
    decide
  · unfold Utf16.Latin1
    decide

theorem packable_edge (s : JsString) (h : some (asciiText "9.9.9.9") = some s) : PackableText s := by
  injection h with h
  rw [← h]
  decide

theorem clientIp_prepend_edge :
    edgeClient (edgeRequest.set hdrXff (some (asciiText "8.8.8.8" ++ 44 :: asciiText "1.2.3.4"))) =
        edgeClient edgeRequest ∧
      (edgeClient edgeRequest = none ∨ edgeClient edgeRequest = some (.addr (.v4 [1, 2, 3, 4]))) :=
  have hurl : PackableText [] := by decide
  have hpeer : socketIsTrusted edgeInner.proxyTrust (socketBytes .packed (some (asciiText "9.9.9.9"))) =
      true := by decide
  have hmeets : MeetsHop edgeInner.proxyTrust (.v4 [1, 2, 3, 4])
      ((Utf16.encode (asciiText "1.2.3.4")).splitOn 44).reverse := by
    have hsplit : ((Utf16.encode (asciiText "1.2.3.4")).splitOn 44).reverse = [utf8 "1.2.3.4"] := by
      decide
    rw [hsplit]
    exact .hop (by decide) (by decide)
  have hleft : Utf16.Latin1 (asciiText "8.8.8.8") := by
    unfold Utf16.Latin1
    decide
  (clientIp_prepend edgeNatives createIngressHandler_edge rfl rfl .packed [] [] plainScratch
    plainScratch (.new 0) (.new 0) plainId hurl packable_edge hpeer edgeRequest_latin1 rfl hmeets
    hleft).1 (by decide)

/-- **A client that grows the header chooses its address**: the whole value is left out, and what it
wrote into `X-Real-IP` counts. -/
theorem clientIp_follows_xRealIp :
    edgeClient edgeRequest = some (.addr (.v4 [1, 2, 3, 4])) ∧
    edgeClient (edgeRequest.set hdrXff (some (longEntry ++ 44 :: asciiText "1.2.3.4"))) =
      some (.addr (.v4 [6, 6, 6, 6])) := by
  have hurl : PackableText (edgeOptions.packUrl []) := by decide
  constructor
  · unfold edgeClient
    rw [clientIp_eq rfl rfl .packed [] plainScratch (.new 0) edgeRequest_latin1 hurl packable_edge plainId]
    decide
  · have hlong : maxXffHeaderBytes < (longEntry ++ 44 :: asciiText "1.2.3.4").length := by
      rw [List.length_append, longEntry, List.length_replicate]
      decide
    have hlatin : (edgeRequest.set hdrXff none).Latin1 := edgeRequest_latin1.set fun v hv => by cases hv
    unfold edgeClient
    rw [clientIp_set_xff_long .packed [] plainScratch (.new 0) edgeRequest [] _ plainId.val hlong,
      clientIp_eq rfl rfl .packed [] plainScratch (.new 0) hlatin hurl packable_edge plainId]
    decide

end

end Castrum
