import Castrum.Ingress.Origin
import Castrum.Ingress.Packed
import Castrum.Ingress.RateLimit

/-!
# Castrum — the stages of the ingress (`rust/ingress/pipeline.rs`)

A request passes trust, CORS, the rate limit, the body guard and the query guard in this order, and
each of them may end it with a terminal. None of them looks at the output buffer. The limiter is the
only state; what the crates compute (the seeded hash, the JSON check, the compiled schemas) enters as
functions.

* `runStages` — what becomes of a request, and of the limiter;
* `Terminal.Early` — the terminals that end a request before its query is looked at;
* `runStages_error_iff` — the only other way is a plain 414.
-/

namespace Castrum

/-! ## The instance -/

/-- What the crates compute: the hash of a client's address, and whether bytes are JSON. -/
structure Crates where
  xxh3 : UInt64 → Bytes → UInt64
  jsonValidBytes : Bytes → Bool

/-- A compiled body schema: the validator over parsed documents, and the fast path where there is
one. -/
structure IngressSchema where
  schema : Bytes → Bool
  fast : Option (Bytes → Bool)

def IngressSchema.validate (s : IngressSchema) (bytes : Bytes) : Bool :=
  match s.fast with
  | some fast => fast bytes
  | none => s.schema bytes

def IngressSchema.usesFastPath (s : IngressSchema) : Bool := s.fast.isSome

inductive RateLimiterState where
  | disabled
  | enabled (seed : UInt64) (limiter : KeyedRateLimiter Lru)

def RateLimiterState.isActive : RateLimiterState → Bool
  | disabled => false
  | enabled _ _ => true

structure IngressInner where
  httpsFixed : Option Bool := none
  maxBodyBytes : UInt32 := 1048576
  proxyTrust : ProxyTrustMode := .none
  parseCookies : Bool := false
  parseQuery : Bool := false
  requireJsonBody : Bool := false
  guardEnabled : Bool := true
  emitMetadataJson : Bool := false
  corsEnabled : Bool := false
  cors : CorsEngine := {}
  rate : RateLimiterState := .disabled
  schema : Option IngressSchema := none
  limits : Limits := {}

/-! ## The stages -/

section

variable (crates : Crates) (inner : IngressInner)

/-- Stage 2: the address that is counted, and the first flags. -/
def trustStage (url ip : Bytes) (headers : HeaderRefs) : ResolvedIp × UInt32 :=
  let peer :=
    if inner.rate.isActive then resolveClientIp inner.proxyTrust ip headers.xff headers.xRealIp
    else (.raw (trimAsciiWhitespace ip), socketIsTrusted inner.proxyTrust ip)
  let flags := if peer.2 then flagTrustedProxy else 0
  (peer.1,
    if detectHttps inner.httpsFixed inner.proxyTrust url headers peer.2 then flags ||| flagHttps
    else flags)

/-- Stage 3: a preflight request ends here. -/
def corsStage (mk : MethodKind) (headers : HeaderRefs) (flags : UInt32) : Except Terminal UInt32 :=
  if inner.corsEnabled && headers.origin.isSome then
    let eval := inner.cors.evaluate mk headers
    let flags := if eval.preflight then flags ||| flagIsPreflight else flags
    let flags := if eval.allowed then flags ||| flagCorsAllowed else flags
    if eval.preflight then
      if eval.allowed then
        .error (terminalPreflightOk flags
          (computeHeaderVariant true true inner.rate.isActive false false))
      else
        .error (terminalPreflightForbidden flags
          (computeHeaderVariant false false inner.rate.isActive false true))
    else .ok flags
  else .ok flags

/-- Stage 4: the limiter counts the request. -/
def rateStage (resolved : ResolvedIp) (now : UInt64) (flags : UInt32) (corsOk : Bool) :
    Except Terminal RateInfo × RateLimiterState :=
  match inner.rate with
  | .disabled => (.ok {}, .disabled)
  | .enabled seed limiter =>
    let r := limiter.checkKey (resolved.rateKey crates.xxh3 seed) now
    let rate : RateInfo :=
      { limit := limiter.limit, remaining := r.1.remaining, resetMs := r.1.resetMs }
    (if r.1.allowed then .ok rate
      else .error (terminalRateLimited (flags ||| flagRateLimited)
        (computeHeaderVariant corsOk false true true true)
        { rate with retryAfterMs := saturatingSub r.1.resetMs now }),
      .enabled seed r.2)

/-- Whether the body has to be JSON. -/
def enforceJson (mk : MethodKind) (body : Bytes) : Bool :=
  match inner.schema with
  | some _ => mk.mayHaveBody || body ≠ []
  | none => inner.requireJsonBody && (mk.mayHaveBody || body ≠ [])

/-- Stages 5 and 6: the size of the body, and what it says. -/
def bodyStage (mk : MethodKind) (body : Bytes) (flags : UInt32) (hv : UInt8) (rate : RateInfo) :
    Except Terminal UInt32 :=
  if inner.guardEnabled && inner.maxBodyBytes.toNat < body.length then
    .error (terminalBodyTooLarge flags hv rate)
  else if enforceJson inner mk body then
    if body = [] then .error (terminalInvalidJson flags hv rate)
    else
      match inner.schema with
      | some schema =>
        if schema.validate body then .ok (flags ||| flagBodyValidJson ||| flagSchemaValid)
        else if !crates.jsonValidBytes body then .error (terminalInvalidJson flags hv rate)
        else if schema.usesFastPath then
          -- on the fast path the flag of the JSON check is already set
          .error (terminalSchemaValidation (flags ||| flagBodyValidJson) hv rate)
        else .error (terminalSchemaValidation flags hv rate)
      | none =>
        if !crates.jsonValidBytes body then .error (terminalInvalidJson flags hv rate)
        else .ok (flags ||| flagBodyValidJson ||| flagSchemaValid)
  else .ok flags

/-- The guard of stage 7: the query that is going to be parsed. -/
def queryStage (url : Bytes) : Except Terminal Bytes :=
  if inner.parseQuery then
    if inner.limits.maxQueryBytes.toNat < (extractQuery url).length then
      .error (terminalSimple errCodeBadRequest 414)
    else .ok (extractQuery url)
  else .ok []

/-- A request that is let through, as it is written. -/
structure Pass where
  headers : HeaderRefs
  flags : UInt32
  rate : RateInfo
  headerVariant : UInt8
  rawQuery : Bytes
  deriving DecidableEq, Repr

/-- The stages up to the body: flags, rate and header variant of a request that is admitted. -/
def admission (mk : MethodKind) (url ip : Bytes) (headers : HeaderRefs) (body : Bytes) (now : UInt64) :
    Except Terminal (UInt32 × RateInfo × UInt8) × RateLimiterState :=
  let trust := trustStage inner url ip headers
  match corsStage inner mk headers trust.2 with
  | .error t => (.error t, inner.rate)
  | .ok flags =>
    let corsOk := flags &&& flagCorsAllowed ≠ 0
    let hv := computeHeaderVariant corsOk false inner.rate.isActive false true
    let counted := rateStage crates inner trust.1 now flags corsOk
    (do
      let rate ← counted.1
      let flags ← bodyStage crates inner mk body flags hv rate
      .ok (flags, rate, hv), counted.2)

/-- **The stages**: what becomes of a request, and the limiter behind it. -/
def runStages (mk : MethodKind) (url ip : Bytes) (headers : HeaderRefs) (body : Bytes)
    (now : UInt64) : Except Terminal Pass × RateLimiterState :=
  let r := admission crates inner mk url ip headers body now
  (do
    let (flags, rate, headerVariant) ← r.1
    let rawQuery ← queryStage inner url
    .ok { headers, flags, rate, headerVariant, rawQuery }, r.2)

/-! ## The terminals of the stages -/

/-- What ends a request before its query is looked at: none of it is a plain 414 or 431. -/
def Terminal.Early (t : Terminal) : Prop :=
  t.verdict = 2 ∨ t.verdict = 1 ∧ t.errorCode ∈ [errCodeRateLimited, errCodeBodyTooLarge,
    errCodeInvalidJson, errCodeSchemaValidation]

variable {crates inner}

theorem corsStage_error {mk : MethodKind} {headers : HeaderRefs} {flags : UInt32} {t : Terminal}
    (h : corsStage inner mk headers flags = .error t) : t.Early := by
  unfold corsStage at h
  dsimp only at h
  split at h
  · split at h
    · split at h
      · injection h with h
        exact .inl (h ▸ rfl)
      · injection h with h
        exact .inl (h ▸ rfl)
    · exact nomatch h
  · exact nomatch h

theorem rateStage_error {resolved : ResolvedIp} {now : UInt64} {flags : UInt32} {corsOk : Bool}
    {t : Terminal} (h : (rateStage crates inner resolved now flags corsOk).1 = .error t) :
    t.Early := by
  unfold rateStage at h
  cases hrate : inner.rate with
  | disabled =>
    rw [hrate] at h
    exact nomatch h
  | enabled seed limiter =>
    rw [hrate] at h
    dsimp only at h
    split at h
    · exact nomatch h
    · injection h with h
      rw [← h]
      exact .inr ⟨rfl, show errCodeRateLimited ∈ _ by decide⟩

theorem bodyStage_error {mk : MethodKind} {body : Bytes} {flags : UInt32} {hv : UInt8}
    {rate : RateInfo} {t : Terminal} (h : bodyStage crates inner mk body flags hv rate = .error t) :
    t.Early := by
  -- Every terminal of the stage is one of three kinds.
  have hlarge : (terminalBodyTooLarge flags hv rate).Early :=
    .inr ⟨rfl, show errCodeBodyTooLarge ∈ _ by decide⟩
  have hinvalid : (terminalInvalidJson flags hv rate).Early :=
    .inr ⟨rfl, show errCodeInvalidJson ∈ _ by decide⟩
  have hschema : ∀ flags, (terminalSchemaValidation flags hv rate).Early := fun flags =>
    .inr ⟨rfl, show errCodeSchemaValidation ∈ _ by decide⟩
  unfold bodyStage at h
  split at h
  · injection h with h
    exact h ▸ hlarge
  split at h
  · split at h
    · injection h with h
      exact h ▸ hinvalid
    · split at h
      · split at h
        · exact nomatch h
        split at h
        · injection h with h
          exact h ▸ hinvalid
        split at h
        · injection h with h
          exact h ▸ hschema _
        · injection h with h
          exact h ▸ hschema _
      · split at h
        · injection h with h
          exact h ▸ hinvalid
        · exact nomatch h
  · exact nomatch h

theorem admission_error {mk : MethodKind} {url ip : Bytes} {headers : HeaderRefs} {body : Bytes}
    {now : UInt64} {t : Terminal} (h : (admission crates inner mk url ip headers body now).1 = .error t) :
    t.Early := by
  unfold admission at h
  dsimp only at h
  cases hcors : corsStage inner mk headers (trustStage inner url ip headers).2 with
  | error t' =>
    rw [hcors] at h
    injection h with h
    exact h ▸ corsStage_error hcors
  | ok flags =>
    rw [hcors] at h
    dsimp only at h
    rcases bind_eq_error_iff.mp h with hrate | ⟨rate, -, h⟩
    · exact rateStage_error hrate
    rcases bind_eq_error_iff.mp h with hbody | ⟨flags', -, h⟩
    · exact bodyStage_error hbody
    · exact nomatch h

/-- **How the stages end a request**: early, or with a plain 414 for its query. -/
theorem runStages_error_iff {mk : MethodKind} {url ip : Bytes} {headers : HeaderRefs}
    {body : Bytes} {now : UInt64} {t : Terminal} :
    (runStages crates inner mk url ip headers body now).1 = .error t ↔
      (admission crates inner mk url ip headers body now).1 = .error t ∨
      (∃ p, (admission crates inner mk url ip headers body now).1 = .ok p) ∧
        inner.parseQuery = true ∧ inner.limits.maxQueryBytes.toNat < (extractQuery url).length ∧
        t = terminalSimple errCodeBadRequest 414 := by
  -- behind the admission only the length of the query is refused
  have hquery : ∀ r : UInt32 × RateInfo × UInt8,
      (do
        let rawQuery ← queryStage inner url
        Except.ok (Pass.mk headers r.1 r.2.1 r.2.2 rawQuery)) = Except.error t ↔
      inner.parseQuery = true ∧ inner.limits.maxQueryBytes.toNat < (extractQuery url).length ∧
        t = terminalSimple errCodeBadRequest 414 := by
    intro r
    rw [bind_eq_error_iff, or_iff_left (by rintro ⟨a, -, h⟩; exact nomatch h)]
    unfold queryStage
    by_cases hparse : inner.parseQuery = true
    · rw [if_pos hparse]
      split
      · next hlong => simp [hparse, hlong, eq_comm]
      · next hshort => simp [hshort]
    · rw [if_neg hparse]
      simp [hparse]
  unfold runStages
  dsimp only
  rw [bind_eq_error_iff]
  constructor
  · rintro (h | ⟨r, hr, h⟩)
    · exact .inl h
    · exact .inr ⟨⟨r, hr⟩, (hquery r).mp h⟩
  · rintro (h | ⟨⟨r, hr⟩, h⟩)
    · exact .inl h
    · exact .inr ⟨r, hr, (hquery r).mpr h⟩

/-! ## A request that passes -/

theorem trustStage_clears {url ip : Bytes} {headers : HeaderRefs} {flag : UInt32}
    (hproxy : Clears flagTrustedProxy flag) (hhttps : Clears flagHttps flag) :
    Clears (trustStage inner url ip headers).2 flag := by
  have hzero : Clears 0 flag := UInt32.zero_and
  have hpeer : ∀ peer : Bool, Clears (if peer then flagTrustedProxy else 0) flag :=
    fun peer => .ite hproxy hzero
  exact .ite ((hpeer _).or hhttps) (hpeer _)

/-- A request that CORS lets through is no preflight. -/
theorem corsStage_clears {mk : MethodKind} {headers : HeaderRefs} {flags flags' flag : UInt32}
    (hallowed : Clears flagCorsAllowed flag) (hflags : Clears flags flag)
    (h : corsStage inner mk headers flags = .ok flags') : Clears flags' flag := by
  unfold corsStage at h
  dsimp only at h
  split at h
  · split at h
    · split at h
      · exact nomatch h
      · exact nomatch h
    · injection h with h
      rw [← h]
      exact .ite (hflags.or hallowed) hflags
  · injection h with h
    rw [← h]
    exact hflags

/-- **A body that passes**: within the limit where it is guarded, and where JSON is enforced it was
checked, which the flags say. -/
theorem bodyStage_ok {mk : MethodKind} {body : Bytes} {flags flags' : UInt32} {hv : UInt8}
    {rate : RateInfo} (h : bodyStage crates inner mk body flags hv rate = .ok flags') :
    (inner.guardEnabled = true → body.length ≤ inner.maxBodyBytes.toNat) ∧
      (enforceJson inner mk body = false ∧ flags' = flags ∨
        body ≠ [] ∧ flags' = flags ||| flagBodyValidJson ||| flagSchemaValid ∧
          (∀ schema, inner.schema = some schema → schema.validate body = true) ∧
          (inner.schema = none → crates.jsonValidBytes body = true)) := by
  unfold bodyStage at h
  split at h
  · exact nomatch h
  next hsize =>
  rw [Bool.and_eq_true, decide_eq_true_iff, not_and, Nat.not_lt] at hsize
  refine ⟨hsize, ?_⟩
  split at h
  · -- JSON is enforced: by the schema if there is one, else by the syntax check
    split at h
    · exact nomatch h
    next hbody =>
    split at h
    · next schema hschema =>
      split at h
      · next hvalid =>
        injection h with h
        refine .inr ⟨hbody, h.symm, ?_, ?_⟩
        · intro schema' hschema'
          injection hschema'.symm.trans hschema with hsame
          rw [hsame]
          exact hvalid
        · intro hnone
          rw [hschema] at hnone
          exact nomatch hnone
      split at h
      · exact nomatch h
      split at h
      · exact nomatch h
      · exact nomatch h
    · next hnone =>
      split at h
      · exact nomatch h
      · next hvalid =>
        injection h with h
        rw [Bool.not_eq_true, Bool.not_eq_false'] at hvalid
        refine .inr ⟨hbody, h.symm, ?_, fun _ => hvalid⟩
        intro schema hschema
        rw [hnone] at hschema
        exact nomatch hschema
  · next hskip =>
    injection h with h
    exact .inl ⟨Bool.eq_false_iff.mpr hskip, h.symm⟩

theorem bodyStage_clears {mk : MethodKind} {body : Bytes} {flags flags' flag : UInt32} {hv : UInt8}
    {rate : RateInfo} (hjson : Clears flagBodyValidJson flag) (hschema : Clears flagSchemaValid flag)
    (hflags : Clears flags flag) (h : bodyStage crates inner mk body flags hv rate = .ok flags') :
    Clears flags' flag := by
  rcases (bodyStage_ok h).2 with ⟨-, heq⟩ | ⟨-, heq, -⟩
  · rw [heq]
    exact hflags
  · rw [heq]
    exact (hflags.or hjson).or hschema

/-- **A request that is admitted** got past CORS and the limiter, and its body past the body stage. -/
theorem admission_ok {mk : MethodKind} {url ip : Bytes} {headers : HeaderRefs} {body : Bytes}
    {now : UInt64} {flags : UInt32} {rate : RateInfo} {hv : UInt8}
    (h : (admission crates inner mk url ip headers body now).1 = .ok (flags, rate, hv)) :
    ∃ flags', corsStage inner mk headers (trustStage inner url ip headers).2 = .ok flags' ∧
      (rateStage crates inner (trustStage inner url ip headers).1 now flags'
        (flags' &&& flagCorsAllowed ≠ 0)).1 = .ok rate ∧
      bodyStage crates inner mk body flags' hv rate = .ok flags := by
  unfold admission at h
  dsimp only at h
  split at h
  · exact nomatch h
  · next flags' hcors =>
    obtain ⟨rate', hrate, h⟩ := bind_eq_ok_iff.mp h
    obtain ⟨flags'', hbody, h⟩ := bind_eq_ok_iff.mp h
    injection h with h
    injection h with hflags h
    injection h with hrate' hhv
    rw [hflags, hhv, hrate'] at hbody
    rw [hrate'] at hrate
    exact ⟨flags', hcors, hrate, hbody⟩

/-- **A request that passes** keeps its headers and its query, and nothing is truncated yet. -/
theorem runStages_ok {mk : MethodKind} {url ip : Bytes} {headers : HeaderRefs} {body : Bytes}
    {now : UInt64} {p : Pass} (h : (runStages crates inner mk url ip headers body now).1 = .ok p) :
    p.headers = headers ∧ p.rawQuery = (if inner.parseQuery then extractQuery url else []) ∧
      Clears p.flags flagBodyTruncated := by
  obtain ⟨r, hadmitted, h⟩ := bind_eq_ok_iff.mp h
  obtain ⟨rawQuery, hquery, h⟩ := bind_eq_ok_iff.mp h
  injection h with h
  rw [← h]
  refine ⟨rfl, ?_, ?_⟩
  · unfold queryStage at hquery
    split at hquery
    · next hparse =>
      split at hquery
      · exact nomatch hquery
      · injection hquery with hquery
        rw [if_pos hparse]
        exact hquery.symm
    · next hparse =>
      injection hquery with hquery
      rw [if_neg hparse]
      exact hquery.symm
  · obtain ⟨flags, hcors, -, hbody⟩ := admission_ok hadmitted
    have htrust : Clears (trustStage inner url ip headers).2 flagBodyTruncated :=
      trustStage_clears rfl rfl
    exact bodyStage_clears rfl rfl (corsStage_clears rfl htrust hcors) hbody

end

end Castrum
