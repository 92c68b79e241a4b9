import Castrum.Ingress.BakedHandler
import Castrum.Ingress.InputPacker

/-!
# Castrum — options and minimal frames (`src/ingress/handlers.ts`, `rust/ingress/api.rs`)

A handler is made of one options object, which JavaScript and the native constructor read each for
itself: JavaScript to decide which headers it packs and whether url and address are worth encoding,
the native side to configure the stages.

* `createIngressHandler_inner` — what JavaScript's flags say about the native instance;
* `handleComponents_minimal` — the stages never look at what JavaScript leaves out;
* `minimalFrame_iff` — when leaving it out does not change the answer.
-/

namespace Castrum

open Packing

/-! ## Options -/

/-- A finite JavaScript number stands here for its value. -/
structure RateLimitOptions where
  limit : Option ℚ := none
  windowMs : Option UInt32 := none
  maxEntries : Option UInt32 := none

structure TrustedProxyOptions where
  enabled : Option Bool := none
  networks : Option (List String) := none

/-- `IngressHandlerOptions`, without what only JavaScript reads. The CORS options have any type. -/
structure IngressHandlerOptions (κ : Type) where
  trustProxy : Option Bool := none
  trustedProxies : Option TrustedProxyOptions := none
  parseCookies : Option Bool := none
  parseQuery : Option Bool := none
  requireJsonBody : Option Bool := none
  schema : Option Bytes := none
  cors : Option κ := none
  rateLimit : Option RateLimitOptions := none
  https : Option Bool := none
  maxBodyBytes : Option UInt32 := none
  enableBodySizeGuard : Option Bool := none
  emitMetadataJson : Option Bool := none
  limits : Option IngressLimitsOptions := none

/-- What the native constructor gets from the crates and the process: the network an entry of the
list stands for, if it is not blank; the compiled schema; the CORS engine; and the limiter that
instances of one configuration share. -/
structure Natives (κ : Type) where
  network : String → Except String (Option (IpAddr → Bool))
  compileSchema : Bytes → Except String IngressSchema
  corsEngine : Option κ → Except String CorsEngine
  sharedLimiter : UInt32 → UInt32 → Option UInt32 → Except String (UInt64 × KeyedRateLimiter Lru)

def ProxyTrustMode.fromConfig {κ : Type} (natives : Natives κ) (enabled : Bool)
    (networks : Option (List String)) : Except String ProxyTrustMode :=
  if !enabled then .ok .none
  else
    match networks with
    | .none => .ok (.networks [])
    | .some networks =>
      (networks.mapM natives.network).map fun nets => .networks (nets.filterMap id)

/-- A number as the addon reads it into 32 bits: without its fraction, modulo `2 ^ 32`. -/
def toU32 (x : ℚ) : UInt32 := UInt32.ofNat x.floor.toNat

def rateState {κ : Type} (natives : Natives κ) (rateLimit : Option RateLimitOptions) :
    Except String RateLimiterState :=
  match rateLimit with
  | none => .ok .disabled
  | some o =>
    let limit := (o.limit.map toU32).getD 0
    let windowMs := o.windowMs.getD 1000
    if limit = 0 || limit = 4294967295 then .ok .disabled
    else (natives.sharedLimiter limit windowMs o.maxEntries).map fun l => .enabled l.1 l.2

/-- The list of trusted proxies comes before the boolean. -/
def trustMode {κ : Type} (natives : Natives κ) (options : IngressHandlerOptions κ) :
    Except String ProxyTrustMode :=
  match options.trustedProxies with
  | some tp => ProxyTrustMode.fromConfig natives (tp.enabled.getD false) tp.networks
  | none => .ok (if options.trustProxy.getD false then .all else .none)

def compiledSchema {κ : Type} (natives : Natives κ) (options : IngressHandlerOptions κ) :
    Except String (Option IngressSchema) :=
  match options.schema with
  | some bytes => (natives.compileSchema bytes).map some
  | none => .ok none

/-- The constructor of the native class. -/
def Ingress.new {κ : Type} (natives : Natives κ) (options : IngressHandlerOptions κ) :
    Except String IngressInner := do
  let proxyTrust ← trustMode natives options
  let schema ← compiledSchema natives options
  let cors ← natives.corsEngine options.cors
  let rate ← rateState natives options.rateLimit
  .ok
    { httpsFixed := options.https
      maxBodyBytes := options.maxBodyBytes.getD 1048576
      proxyTrust
      parseCookies := options.parseCookies.getD false
      parseQuery := options.parseQuery.getD false
      requireJsonBody := options.requireJsonBody.getD false
      guardEnabled := options.enableBodySizeGuard.getD true
      emitMetadataJson := options.emitMetadataJson.getD false
      corsEnabled := options.cors.isSome
      cors
      rate
      schema
      limits := .fromOptions options.limits }

namespace IngressHandlerOptions

variable {κ : Type} (options : IngressHandlerOptions κ)

/-! ## What JavaScript makes of them -/

/-- `assertIngressOptionValues`, for the number whose sign is left to it. -/
def assertValues : Except String Unit :=
  match options.rateLimit.bind (·.limit) with
  | some limit =>
    if limit < 0 then
      .error "createIngressHandler: option 'rateLimit.limit' must be a finite, non-negative number"
    else .ok ()
  | none => .ok ()

def rateEnabled : Bool :=
  match options.rateLimit.bind (·.limit) with
  | some limit => limit ≠ 4294967295 && 0 < limit
  | none => false

def trustEnabled : Bool :=
  options.trustProxy = some true || options.trustedProxies.bind (·.enabled) = some true

/-- The native pipeline reads the url. -/
def urlNeeded : Bool :=
  options.parseQuery = some true || options.emitMetadataJson = some true || options.https.isNone

/-- The native pipeline reads the address. -/
def ipNeeded : Bool := options.rateEnabled || options.trustEnabled

def buildHeaderPlan : HeaderPlan where
  cookie := options.parseCookies = some true
  cors := options.cors.isSome
  proxy := options.trustEnabled
  proto := options.trustEnabled && options.https.isNone

/-- The url that is packed. -/
def packUrl (url : JsString) : JsString := if options.urlNeeded then url else []

/-- The address that is packed. -/
def packIp (ip : Option JsString) : Option JsString := if options.ipNeeded then ip else none

end IngressHandlerOptions

/-- `createIngressHandler`: the values are checked, then the native instance is made. -/
def createIngressHandler {κ : Type} (natives : Natives κ) (options : IngressHandlerOptions κ) :
    Except String IngressInner := do
  options.assertValues
  Ingress.new natives options

/-- A string as a C string: what is behind a NUL is lost. -/
def cstring (s : JsString) : Bytes := (Utf16.encode s).takeWhile (· ≠ 0)

/-- The answer of the native pipeline over a transport, for an url and an address that are packed. -/
def nativeAnswer (crates : Crates) (inner : IngressInner) (transport : Transport)
    (p : IngressInputPacker) (mk : MethodKind) (url : JsString) (ip : Option JsString)
    (rid headers body out : Bytes) (now : UInt64) :
    Except String (Nat × Bytes) × RateLimiterState :=
  match transport with
  | .components =>
    handleComponents crates inner mk (cstring url) (cstring (ip.getD [])) rid headers body out now
  | .packed | .napi =>
    handlePacked crates inner (subarrayTo (packParts p mk.toU8 headers url ip rid)) body out now

/-! ## The flags and the instance -/

section

variable {κ : Type} {natives : Natives κ} {options : IngressHandlerOptions κ} {inner : IngressInner}

/-- A limit that JavaScript does not count with is zero for the addon, or the largest number. -/
theorem toU32_of_disabled {limit : ℚ} (hsign : ¬ limit < 0)
    (h : (limit ≠ 4294967295 && 0 < limit) = false) :
    toU32 limit = 0 ∨ toU32 limit = 4294967295 := by
  rw [Bool.and_eq_false_iff] at h
  rcases h with h | h
  · have hmax : limit = 4294967295 := by simpa using h
    right
    rw [hmax]
    decide
  · have hzero : limit = 0 := le_antisymm (not_lt.mp (by simpa using h)) (not_lt.mp hsign)
    left
    rw [hzero]
    decide

theorem rateState_of_disabled (h : options.rateEnabled = false)
    (hvalues : options.assertValues = .ok ()) :
    rateState natives options.rateLimit = .ok .disabled := by
  unfold IngressHandlerOptions.rateEnabled at h
  unfold IngressHandlerOptions.assertValues at hvalues
  cases hrate : options.rateLimit with
  | none => rfl
  | some o =>
    have hlimit : (o.limit.map toU32).getD 0 = 0 ∨ (o.limit.map toU32).getD 0 = 4294967295 := by
      rw [hrate] at h hvalues
      change (match o.limit with | some limit => _ | none => _) = _ at h hvalues
      cases hnumber : o.limit with
      | none => exact .inl rfl
      | some limit =>
        rw [hnumber] at h hvalues
        refine toU32_of_disabled (fun hneg => ?_) h
        change (if limit < 0 then _ else _) = _ at hvalues
        rw [if_pos hneg] at hvalues
        cases hvalues
    unfold rateState
    dsimp only
    rw [if_pos]
    rw [Bool.or_eq_true, decide_eq_true_iff, decide_eq_true_iff]
    exact hlimit

theorem trustMode_of_disabled (h : options.trustEnabled = false) :
    trustMode natives options = .ok .none := by
  rw [IngressHandlerOptions.trustEnabled, Bool.or_eq_false_iff] at h
  obtain ⟨hproxy, hproxies⟩ := h
  have off : ∀ o : Option Bool, decide (o = some true) = false → o.getD false = false := by decide
  unfold trustMode
  cases htp : options.trustedProxies with
  | none =>
    dsimp only
    rw [off _ hproxy]
    rfl
  | some tp =>
    rw [htp] at hproxies
    dsimp only
    rw [off tp.enabled hproxies]
    rfl

/-- **What JavaScript's flags say about the instance.** -/
structure Configured (options : IngressHandlerOptions κ) (inner : IngressInner) : Prop where
  url : options.urlNeeded = false →
    inner.parseQuery = false ∧ inner.emitMetadataJson = false ∧ inner.httpsFixed.isSome = true
  rate : options.rateEnabled = false → inner.rate = .disabled
  trust : options.trustEnabled = false → inner.proxyTrust = .none
  limits : inner.limits = .fromOptions options.limits

theorem createIngressHandler_inner (h : createIngressHandler natives options = .ok inner) :
    Configured options inner := by
  unfold createIngressHandler at h
  obtain ⟨_, hvalues, hnew⟩ := bind_eq_ok_iff.mp h
  unfold Ingress.new at hnew
  obtain ⟨proxyTrust, htrust, hnew⟩ := bind_eq_ok_iff.mp hnew
  obtain ⟨schema, -, hnew⟩ := bind_eq_ok_iff.mp hnew
  obtain ⟨cors, -, hnew⟩ := bind_eq_ok_iff.mp hnew
  obtain ⟨rate, hrate, hnew⟩ := bind_eq_ok_iff.mp hnew
  injection hnew with hnew
  rw [← hnew]
  refine ⟨?_, ?_, ?_, rfl⟩
  -- No stage that reads the URL is on: the query, the metadata and the scheme.
  · intro hurl
    simp only [IngressHandlerOptions.urlNeeded, Bool.or_eq_false_iff] at hurl
    obtain ⟨⟨hquery, hmetadata⟩, hhttps⟩ := hurl
    have off : ∀ o : Option Bool, decide (o = some true) = false → o.getD false = false := by decide
    refine ⟨off _ hquery, off _ hmetadata, ?_⟩
    cases hfixed : options.https with
    | none =>
      rw [hfixed] at hhttps
      cases hhttps
    | some b => rfl
  · intro hoff
    rw [rateState_of_disabled hoff hvalues] at hrate
    injection hrate with hrate
    exact hrate.symm
  · intro hoff
    rw [trustMode_of_disabled hoff] at htrust
    injection htrust with htrust
    exact htrust.symm

end

/-! ## What is not read -/

section

variable {crates : Crates} {inner : IngressInner} {mk : MethodKind} {url ip rid block body out : Bytes}
  {now : UInt64}

/-- The url is not read: its scheme is pinned, no query is parsed and no envelope is written. -/
def UrlUnread (inner : IngressInner) : Prop :=
  inner.parseQuery = false ∧ inner.emitMetadataJson = false ∧ inner.httpsFixed.isSome = true

/-- The address is not read: nothing is counted, and no proxy is trusted. -/
def IpUnread (inner : IngressInner) : Prop := inner.rate = .disabled ∧ inner.proxyTrust = .none

theorem trustStage_url (h : UrlUnread inner) (url url' : Bytes) (headers : HeaderRefs) :
    trustStage inner url ip headers = trustStage inner url' ip headers := by
  obtain ⟨fixed, hfixed⟩ := Option.isSome_iff_exists.mp h.2.2
  unfold trustStage detectHttps
  rw [hfixed]

theorem runStages_url (h : UrlUnread inner) (url url' : Bytes) (headers : HeaderRefs) :
    runStages crates inner mk url ip headers body now =
      runStages crates inner mk url' ip headers body now := by
  unfold runStages admission queryStage
  rw [trustStage_url h url url', h.1]
  rfl

theorem finish_url (h : UrlUnread inner) (url url' : Bytes) (r : Except Terminal Pass) :
    finish inner url rid r out = finish inner url' rid r out := by
  cases r with
  | error t => rfl
  | ok p =>
    unfold finish writePass writeBodySections
    simp only [h.2.1, Bool.false_eq_true, if_false]

/-- Without a limiter and a trusted proxy, only that the peer is not trusted comes out of the
address. -/
theorem runStages_ip (h : IpUnread inner) (ip ip' : Bytes) (headers : HeaderRefs) :
    runStages crates inner mk url ip headers body now =
      runStages crates inner mk url ip' headers body now := by
  have htrust : ∀ ip, trustStage inner url ip headers =
      (.raw (trimAsciiWhitespace ip), (trustStage inner url [] headers).2) := by
    intro ip
    unfold trustStage
    rw [h.1, h.2]
    rfl
  unfold runStages admission rateStage
  rw [htrust ip, htrust ip', h.1]

/-- **The stages never look at what is left out.** -/
theorem handleComponents_minimal {url' ip' : Bytes} (hurl : url' = url ∨ UrlUnread inner)
    (hip : ip' = ip ∨ IpUnread inner) :
    handleComponents crates inner mk url' ip' rid block body out now =
      handleComponents crates inner mk url ip rid block body out now := by
  have hurls : handleComponents crates inner mk url' ip' rid block body out now =
      handleComponents crates inner mk url ip' rid block body out now := by
    rcases hurl with rfl | hunread
    · rfl
    · unfold handleComponents
      simp only [runStages_url hunread url' url, finish_url hunread url' url]
  rw [hurls]
  rcases hip with rfl | hunread
  · rfl
  · unfold handleComponents
    simp only [runStages_ip hunread ip' ip]

/-! ## The limits that are checked before -/

/-- The packed entry, by the limits its frame exceeds. -/
theorem handlePacked_packFrame (hout : outDataStart ≤ out.length) (hurl : url.length < 2 ^ 32)
    (hip : ip.length < 2 ^ 32) (hrid : rid.length ≤ maxIdBytes) (hblock : block.length < 2 ^ 32) :
    (handlePacked crates inner (packFrame mk.toU8 url ip rid block) body out now).1 =
      if inner.limits.maxUrlBytes.toNat < url.length then
        .ok ((terminalSimple errCodeBadRequest 414).write out)
      else if maxIdBytes < ip.length then .ok ((terminalSimple errCodeBadRequest 400).write out)
      else if inner.limits.maxHeadersBytes.toNat < block.length then
        .ok ((terminalSimple errCodeRequestTooLarge 431).write out)
      else (handleComponents crates inner mk url ip rid block body out now).1 := by
  have hid : maxIdBytes < 2 ^ 32 := by decide
  unfold handlePacked
  rw [if_neg (Nat.not_lt.mpr hout),
    if_neg (show packFrame mk.toU8 url ip rid block ≠ [] from List.cons_ne_nil _ _),
    readFrame_packFrame inner.limits mk hurl hip (Nat.lt_of_le_of_lt hrid hid) hblock,
    if_neg (Nat.not_lt.mpr hrid)]
  by_cases hlongUrl : inner.limits.maxUrlBytes.toNat < url.length
  · rw [if_pos hlongUrl, if_pos hlongUrl]
  rw [if_neg hlongUrl, if_neg hlongUrl]
  by_cases hlongIp : maxIdBytes < ip.length
  · rw [if_pos hlongIp, if_pos hlongIp]
  rw [if_neg hlongIp, if_neg hlongIp]
  by_cases hlongBlock : inner.limits.maxHeadersBytes.toNat < block.length
  · rw [if_pos hlongBlock, if_pos hlongBlock]
  · rw [if_neg hlongBlock, if_neg hlongBlock]

/-- A plain 400 never comes from behind the limits, and a plain 414 only from a query. -/
theorem handleComponents_ne_badRequest (hout : outDataStart ≤ out.length) {status : UInt16}
    (hstatus : HeaderFields.clampStatus status ≠ 414 ∨ inner.parseQuery = false) :
    (handleComponents crates inner mk url ip rid block body out now).1 ≠
      .ok ((terminalSimple errCodeBadRequest status).write out) := by
  intro h
  unfold handleComponents at h
  rw [if_neg (Nat.not_lt.mpr hout)] at h
  split at h
  · have hsame := Terminal.write_inj (Except.ok.inj h)
    exact absurd hsame.2.1 (show ¬ errCodeRequestTooLarge = errCodeBadRequest by decide)
  · obtain ⟨⟨-, hclamp⟩, -, hquery, -⟩ := (finish_eq_refusal_iff (.inl rfl)).mp (Except.ok.inj h)
    rcases hstatus with hne | hoff
    · exact hne hclamp
    · rw [hoff] at hquery
      cases hquery

/-- **Leaving out a url that is too long** changes the answer of the packed entry. -/
theorem handlePacked_ne_of_url {ip' : Bytes} (hout : outDataStart ≤ out.length)
    (hurl : url.length < 2 ^ 32) (hip : ip.length < 2 ^ 32) (hip' : ip'.length < 2 ^ 32)
    (hrid : rid.length ≤ maxIdBytes) (hblock : block.length < 2 ^ 32) (hunread : UrlUnread inner)
    (hlong : inner.limits.maxUrlBytes.toNat < url.length) :
    (handlePacked crates inner (packFrame mk.toU8 [] ip' rid block) body out now).1 ≠
      (handlePacked crates inner (packFrame mk.toU8 url ip rid block) body out now).1 := by
  have hempty : ¬ inner.limits.maxUrlBytes.toNat < ([] : Bytes).length := Nat.not_lt_zero _
  rw [handlePacked_packFrame hout (by decide) hip' hrid hblock, if_neg hempty,
    handlePacked_packFrame hout hurl hip hrid hblock, if_pos hlong]
  split
  · intro h
    have hsame := Terminal.write_inj (Except.ok.inj h)
    exact absurd hsame.2.2 (by decide)
  split
  · intro h
    have hsame := Terminal.write_inj (Except.ok.inj h)
    exact absurd hsame.2.1 (by decide)
  · exact handleComponents_ne_badRequest hout (.inr hunread.1)

/-- **Leaving out an address that is too long** does so where the url is within its limit. -/
theorem handlePacked_ne_of_ip {url' ip' : Bytes} (hout : outDataStart ≤ out.length)
    (hurl : url.length ≤ inner.limits.maxUrlBytes.toNat)
    (hurl' : url'.length ≤ inner.limits.maxUrlBytes.toNat) (hip : ip.length < 2 ^ 32)
    (hip' : ip'.length ≤ maxIdBytes) (hrid : rid.length ≤ maxIdBytes) (hblock : block.length < 2 ^ 32)
    (hlong : maxIdBytes < ip.length) :
    (handlePacked crates inner (packFrame mk.toU8 url' ip' rid block) body out now).1 ≠
      (handlePacked crates inner (packFrame mk.toU8 url ip rid block) body out now).1 := by
  have hmax := inner.limits.maxUrlBytes.toNat_lt
  have hid : maxIdBytes < 2 ^ 32 := by decide
  rw [handlePacked_packFrame hout (by omega) (by omega) hrid hblock,
    if_neg (Nat.not_lt.mpr hurl'), if_neg (Nat.not_lt.mpr hip'),
    handlePacked_packFrame hout (by omega) hip hrid hblock, if_neg (Nat.not_lt.mpr hurl),
    if_pos hlong]
  split
  · intro h
    have hsame := Terminal.write_inj (Except.ok.inj h)
    exact absurd hsame.2.1 (by decide)
  · exact handleComponents_ne_badRequest hout (.inl (by decide))

/-- Within the limits, or refused for the same reason, the packed entry answers alike. -/
theorem handlePacked_eq_of_minimal {url' ip' : Bytes} (hout : outDataStart ≤ out.length)
    (hurl : url.length < 2 ^ 32) (hurl' : url'.length ≤ url.length) (hip : ip.length < 2 ^ 32)
    (hip' : ip'.length < 2 ^ 32) (hrid : rid.length ≤ maxIdBytes) (hblock : block.length < 2 ^ 32)
    (hurls : url' = url ∨ UrlUnread inner ∧ url.length ≤ inner.limits.maxUrlBytes.toNat)
    (hips : ip' = ip ∨ IpUnread inner ∧
      (inner.limits.maxUrlBytes.toNat < url'.length ∨ ip.length ≤ maxIdBytes ∧ ip'.length ≤ maxIdBytes)) :
    (handlePacked crates inner (packFrame mk.toU8 url' ip' rid block) body out now).1 =
      (handlePacked crates inner (packFrame mk.toU8 url ip rid block) body out now).1 := by
  have hminimal : handleComponents crates inner mk url' ip' rid block body out now =
      handleComponents crates inner mk url ip rid block body out now :=
    handleComponents_minimal (hurls.imp_right And.left) (hips.imp_right And.left)
  have hurlCond : (inner.limits.maxUrlBytes.toNat < url'.length) =
      (inner.limits.maxUrlBytes.toNat < url.length) := by
    rcases hurls with rfl | ⟨-, hle⟩
    · rfl
    · exact propext ⟨fun h => by omega, fun h => by omega⟩
  rw [handlePacked_packFrame hout (by omega) hip' hrid hblock,
    handlePacked_packFrame hout hurl hip hrid hblock, hminimal]
  simp only [hurlCond]
  split
  · rfl
  · next hshort =>
    have hipCond : (maxIdBytes < ip'.length) = (maxIdBytes < ip.length) := by
      rcases hips with rfl | ⟨-, hlong | ⟨hle, hle'⟩⟩
      · rfl
      · exact absurd (hurlCond ▸ hlong) hshort
      · exact propext ⟨fun h => by omega, fun h => by omega⟩
    simp only [hipCond]

end

/-! ## Minimal frames -/

/-- `generateRequestId`: 16 hexadecimal digits. -/
abbrev RequestId : Type := { rid : Bytes // rid.length = 16 }

/-- The packer can be asked for this text: it reserves three bytes for each unit, and a typed array
has at most `2 ^ 32`. -/
def PackableText (s : JsString) : Prop := 3 * s.length < 2 ^ 32

instance (s : JsString) : Decidable (PackableText s) :=
  inferInstanceAs (Decidable (3 * s.length < 2 ^ 32))

/-- The frame of the real url and address is refused for its size, and that of what is packed is not:
a url that is left out is beyond its limit, or an address, where the url is not. -/
def LimitSkipped {κ : Type} (options : IngressHandlerOptions κ) (limits : Limits) (url : JsString)
    (ip : Option JsString) : Prop :=
  (options.urlNeeded = false ∧ limits.maxUrlBytes.toNat < (Utf16.encode url).length) ∨
  (options.ipNeeded = false ∧ (Utf16.encode url).length ≤ limits.maxUrlBytes.toNat ∧
    maxIdBytes < (ipSection ip).length)

instance {κ : Type} (options : IngressHandlerOptions κ) (limits : Limits) (url : JsString)
    (ip : Option JsString) : Decidable (LimitSkipped options limits url ip) :=
  inferInstanceAs (Decidable (_ ∨ _))

section

variable {κ : Type} {options : IngressHandlerOptions κ} {crates : Crates} {inner : IngressInner}

theorem Configured.urlUnread (h : Configured options inner) (hurl : options.urlNeeded = false) :
    UrlUnread inner := h.url hurl

theorem Configured.ipUnread (h : Configured options inner) (hip : options.ipNeeded = false) :
    IpUnread inner := by
  rw [IngressHandlerOptions.ipNeeded, Bool.or_eq_false_iff] at hip
  exact ⟨h.rate hip.1, h.trust hip.2⟩

theorem length_ipSection_lt {ip : Option JsString} (h : ∀ s, ip = some s → PackableText s) :
    (ipSection ip).length < 2 ^ 32 := by
  cases ip with
  | none => exact (by decide : emptyIpBytes.length < 2 ^ 32)
  | some s =>
    have hencode := Utf16.length_encode_le s
    have hpackable : 3 * s.length < 2 ^ 32 := h s rfl
    show (if 0 < s.length then Utf16.encode s else emptyIpBytes).length < 2 ^ 32
    split
    · omega
    · decide

theorem packIp_cases (options : IngressHandlerOptions κ) (ip : Option JsString) :
    ipSection (options.packIp ip) = ipSection ip ∨
      options.ipNeeded = false ∧ (ipSection (options.packIp ip)).length ≤ maxIdBytes := by
  unfold IngressHandlerOptions.packIp
  cases h : options.ipNeeded with
  | true => exact .inl rfl
  | false =>
    right
    exact ⟨rfl, (by decide : emptyIpBytes.length ≤ maxIdBytes)⟩

theorem packUrl_cases (options : IngressHandlerOptions κ) (url : JsString) :
    options.packUrl url = url ∨ options.urlNeeded = false ∧ options.packUrl url = [] := by
  unfold IngressHandlerOptions.packUrl
  cases h : options.urlNeeded with
  | true => exact .inl rfl
  | false => exact .inr ⟨rfl, rfl⟩

/-- The frame of what is packed and the frame of the real request are answered alike exactly where no
limit is skipped. -/
theorem handlePacked_minimal_iff (hconf : Configured options inner) {mk : MethodKind}
    {url : JsString} {ip : Option JsString} (hurl : PackableText url)
    (hip : ∀ s, ip = some s → PackableText s) (rid : RequestId) {block : Bytes}
    (hblock : block.length < 2 ^ 32) (body : Bytes) {out : Bytes} (hout : outDataStart ≤ out.length)
    (now : UInt64) :
    (handlePacked crates inner (packFrame mk.toU8 (Utf16.encode (options.packUrl url))
        (ipSection (options.packIp ip)) rid.val block) body out now).1 =
      (handlePacked crates inner (packFrame mk.toU8 (Utf16.encode url) (ipSection ip) rid.val block)
        body out now).1 ↔ ¬ LimitSkipped options inner.limits url ip := by
  have hid : maxIdBytes = 128 := rfl
  have hurlLen := Utf16.length_encode_le url
  have hurlLt : (Utf16.encode url).length < 2 ^ 32 := Nat.lt_of_le_of_lt hurlLen hurl
  have hipLt := length_ipSection_lt hip
  have hrid : rid.val.length ≤ maxIdBytes := by
    rw [rid.property]
    decide
  have hipLt' : (ipSection (options.packIp ip)).length < 2 ^ 32 := by
    rcases packIp_cases options ip with h | ⟨-, h⟩
    · rw [h]
      exact hipLt
    · omega
  by_cases hskip : LimitSkipped options inner.limits url ip
  · -- the real request is refused for what is not packed, and the packed one is not
    refine iff_of_false ?_ (not_not.mpr hskip)
    rcases hskip with ⟨hneeded, hlong⟩ | ⟨hneeded, hshort, hlong⟩
    · have hpacked : options.packUrl url = [] := by
        rw [IngressHandlerOptions.packUrl, hneeded]
        rfl
      rw [hpacked]
      exact handlePacked_ne_of_url hout hurlLt hipLt hipLt' hrid hblock (hconf.urlUnread hneeded) hlong
    · have hpacked : ipSection (options.packIp ip) = emptyIpBytes := by
        rw [IngressHandlerOptions.packIp, hneeded]
        rfl
      have hurl' : (Utf16.encode (options.packUrl url)).length ≤ inner.limits.maxUrlBytes.toNat := by
        rcases packUrl_cases options url with h | ⟨-, h⟩
        · rw [h]
          exact hshort
        · rw [h]
          exact Nat.zero_le _
      exact handlePacked_ne_of_ip hout hshort hurl' hipLt (by rw [hpacked]; decide) hrid hblock hlong
  · -- what is left out is not read, and no limit would have refused it
    refine iff_of_true ?_ hskip
    rw [LimitSkipped, not_or, not_and, not_and, not_and, not_lt, not_lt] at hskip
    obtain ⟨hurlOk, hipOk⟩ := hskip
    apply handlePacked_eq_of_minimal hout hurlLt _ hipLt hipLt' hrid hblock
    · rcases packUrl_cases options url with h | ⟨hneeded, -⟩
      · exact .inl (by rw [h])
      · exact .inr ⟨hconf.urlUnread hneeded, hurlOk hneeded⟩
    · rcases packIp_cases options ip with h | ⟨hneeded, hle⟩
      · exact .inl h
      · refine .inr ⟨hconf.ipUnread hneeded, ?_⟩
        rcases Nat.lt_or_ge inner.limits.maxUrlBytes.toNat (Utf16.encode url).length with hlong | hshort
        · left
          rcases packUrl_cases options url with h | ⟨hunneeded, -⟩
          · rw [h]
            exact hlong
          · exact absurd (hurlOk hunneeded) (Nat.not_le.mpr hlong)
        · exact .inr ⟨hipOk hneeded hshort, hle⟩
    · rcases packUrl_cases options url with h | ⟨-, h⟩
      · rw [h]
      · rw [h]
        exact Nat.zero_le _

/-- The block of a request, as the handler gathers it. -/
def gatheredHeaders (history : List CacheCall) (scratch : Scratch) (req : JsRequest)
    (plan : HeaderPlan) : Bytes :=
  (gatherRawHeadersPacked (history.foldl OriginCache.after []) scratch req plan
    (methodKindOf req.method) (originArgument req plan true)).1

theorem gatheredHeaders_eq (history : List CacheCall) (scratch : Scratch) (req : JsRequest)
    (plan : HeaderPlan) :
    gatheredHeaders history scratch req plan =
      Packing.block (forEachSelectedHeader req plan (methodKindOf req.method) none none) := by
  unfold gatheredHeaders
  rw [(gather_spec (OriginCache.sound_history history) scratch req plan _ _).1,
    forEachSelectedHeader_origin]

theorem length_gatheredHeaders_lt (history : List CacheCall) (scratch : Scratch) (req : JsRequest)
    (plan : HeaderPlan) : (gatheredHeaders history scratch req plan).length < 2 ^ 32 := by
  rw [gatheredHeaders_eq]
  exact Nat.lt_of_le_of_lt (length_block_le_any req plan _) (by decide)

/-- **When a minimal frame is answered like the real one.** Over the components entry always, since
no limit is checked there; over a packed frame, and an output that has room for an answer, unless a
limit is skipped. -/
theorem minimalFrame_iff (natives : Natives κ) (crates : Crates)
    (h : createIngressHandler natives options = .ok inner) (transport : Transport)
    (history : List CacheCall) (scratch : Scratch) (req : JsRequest) (p : IngressInputPacker)
    {url : JsString} {ip : Option JsString} (hurl : PackableText url)
    (hip : ∀ s, ip = some s → PackableText s) (rid : RequestId) (body out : Bytes) (now : UInt64) :
    let mk := methodKindOf req.method
    let headers := gatheredHeaders history scratch req options.buildHeaderPlan
    (nativeAnswer crates inner transport p mk (options.packUrl url) (options.packIp ip) rid.val headers
        body out now).1 =
      (nativeAnswer crates inner transport p mk url ip rid.val headers body out now).1 ↔
    transport = .components ∨ out.length < outDataStart ∨
      ¬ LimitSkipped options (.fromOptions options.limits) url ip := by
  intro mk headers
  have hconf := createIngressHandler_inner h
  have hblock : headers.length < 2 ^ 32 := length_gatheredHeaders_lt history scratch req _
  rw [← hconf.limits]
  -- both packed entries read the frame of the packer
  have hpacked : (handlePacked crates inner (subarrayTo (packParts p mk.toU8 headers (options.packUrl url)
        (options.packIp ip) rid.val)) body out now).1 =
      (handlePacked crates inner (subarrayTo (packParts p mk.toU8 headers url ip rid.val)) body out now).1 ↔
      out.length < outDataStart ∨ ¬ LimitSkipped options inner.limits url ip := by
    rw [(packParts_eq p mk.toU8 headers (options.packUrl url) (options.packIp ip) rid.val).1,
      (packParts_eq p mk.toU8 headers url ip rid.val).1]
    rcases Nat.lt_or_ge out.length outDataStart with hsmall | hroom
    · refine iff_of_true ?_ (.inl hsmall)
      unfold handlePacked
      rw [if_pos hsmall, if_pos hsmall]
    · rw [handlePacked_minimal_iff hconf hurl hip rid hblock body hroom now]
      exact ⟨.inr, fun h => h.resolve_left (Nat.not_lt.mpr hroom)⟩
  cases transport with
  | components =>
    refine iff_of_true ?_ (.inl rfl)
    have hurls : cstring (options.packUrl url) = cstring url ∨ UrlUnread inner := by
      rcases packUrl_cases options url with h | ⟨hneeded, -⟩
      · exact .inl (by rw [h])
      · exact .inr (hconf.urlUnread hneeded)
    have hips : cstring ((options.packIp ip).getD []) = cstring (ip.getD []) ∨ IpUnread inner := by
      cases hneeded : options.ipNeeded with
      | true =>
        left
        rw [IngressHandlerOptions.packIp, hneeded]
        rfl
      | false => exact .inr (hconf.ipUnread hneeded)
    exact congrArg Prod.fst (handleComponents_minimal hurls hips)
  | packed => exact hpacked.trans ⟨.inr, fun h => h.resolve_left (by decide)⟩
  | napi => exact hpacked.trans ⟨.inr, fun h => h.resolve_left (by decide)⟩

end

/-! ## An url beyond its limit -/

section

/-- A process without crates: no schema and no network is accepted, and CORS is off. -/
def bareNatives : Natives Unit where
  network := fun _ => .error "invalid network"
  compileSchema := fun _ => .error "invalid schema"
  corsEngine := fun _ => .ok {}
  sharedLimiter := fun _ _ _ => .error "no limiter"

def bareCrates : Crates := ⟨fun _ _ => 0, fun _ => false⟩

/-- The scheme is pinned, and an url has at most eight bytes. -/
def pinnedOptions : IngressHandlerOptions Unit :=
  { https := some true, limits := some { maxUrlBytes := some 8 } }

def pinnedInner : IngressInner where
  httpsFixed := some true
  limits := .fromOptions (some { maxUrlBytes := some 8 })

def asciiText (s : String) : JsString := Utf16.ofAscii (utf8 s)

def plainRequest : JsRequest := ⟨"GET", fun _ => none⟩

def plainId : RequestId := ⟨List.replicate 16 48, rfl⟩

def plainScratch : Scratch := ⟨List.replicate headerBufSize 0, List.length_replicate⟩

def plainBlock : Bytes := gatheredHeaders [] plainScratch plainRequest pinnedOptions.buildHeaderPlan

theorem createIngressHandler_pinned :
    createIngressHandler bareNatives pinnedOptions = .ok pinnedInner := rfl

theorem minimalFrame_iff_short :
    (nativeAnswer bareCrates pinnedInner .packed (.new 0) .get [] none plainId.val plainBlock []
        (List.replicate 64 0) 0).1 =
      (nativeAnswer bareCrates pinnedInner .packed (.new 0) .get (asciiText "http://h") none
        plainId.val plainBlock [] (List.replicate 64 0) 0).1 :=
  have hip : ∀ s : JsString, none = some s → PackableText s := fun _ h => by cases h
  have hfits : ¬ LimitSkipped pinnedOptions (.fromOptions pinnedOptions.limits) (asciiText "http://h")
      none := by decide
  (minimalFrame_iff bareNatives bareCrates createIngressHandler_pinned .packed [] plainScratch
    plainRequest (.new 0) (by decide) hip plainId [] (List.replicate 64 0) 0).mpr (.inr (.inr hfits))

/-- **A url beyond its limit** is refused in the real frame, and not in the minimal one. -/
theorem minimalFrame_skips_limit :
    (nativeAnswer bareCrates pinnedInner .packed (.new 0) .get
        (pinnedOptions.packUrl (asciiText "http://h/a")) (pinnedOptions.packIp none) plainId.val plainBlock
        [] (List.replicate 64 0) 0).1 ≠
      (nativeAnswer bareCrates pinnedInner .packed (.new 0) .get (asciiText "http://h/a") none plainId.val
        plainBlock [] (List.replicate 64 0) 0).1 := by
  intro hsame
  have hconf := createIngressHandler_inner createIngressHandler_pinned
  have hip : ∀ s : JsString, none = some s → PackableText s := fun _ h => by cases h
  have hblock : plainBlock.length < 2 ^ 32 :=
    length_gatheredHeaders_lt [] plainScratch plainRequest pinnedOptions.buildHeaderPlan
  have hiff := @handlePacked_minimal_iff Unit pinnedOptions bareCrates pinnedInner hconf .get _ none
    (show PackableText (asciiText "http://h/a") by decide) hip plainId _ hblock [] _
    (show outDataStart ≤ (List.replicate 64 (0 : UInt8)).length by decide) 0
  refine hiff.mp ?_ (by decide)
  rw [← (packParts_eq (.new 0) MethodKind.get.toU8 plainBlock _ _ plainId.val).1,
    ← (packParts_eq (.new 0) MethodKind.get.toU8 plainBlock (asciiText "http://h/a") none plainId.val).1]
  exact hsame

end

end Castrum
