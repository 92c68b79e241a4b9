import Castrum.Ingress.BakedResult
import Castrum.Ingress.Result

/-!
# Castrum — the two decoders of a result (`src/ingress/decode/`)

The fast path and the pre-baked handlers read the same output through decoders of their own. The buffer
is reused, so behind the written bytes there may be those of an earlier request.

* `FastIngressResult.refresh_within` — the sections lie one behind another in the written bytes;
* `Written.fast` — what is decoded of a header over its sections;
* `ingressResult_decoded` — what is decoded of every result of the pipeline.
-/

namespace Castrum

/-! ## The fast decoder -/

structure FastIngressResult extends IngressResultBase where
  flags : Nat := 0
  https : Bool := false
  hasCookies : Bool := false
  hasQuery : Bool := false
  rateLimit : Nat := 0
  requestId : Bytes := []
  deriving DecidableEq, Repr

def normalizeResponseStatus (status errorCode : Nat) (isPreflightAllowed : Bool) : Nat :=
  if isValidResponseStatus status then status else statusForErrorCode errorCode isPreflightAllowed

/-- The body section is stored with the length that was declared, and checked when it is read. -/
def bodyJsonSlice (buf : Bytes) (len bodyJsonStart bodyJsonLen : Nat) : Bytes :=
  if bodyJsonLen = 0 then []
  else if len < bodyJsonStart + bodyJsonLen then []
  else (buf.drop bodyJsonStart).take bodyJsonLen

namespace FastIngressResult

/-- `setInternalError`. -/
def internalError (requestId : Bytes) : FastIngressResult :=
  { verdict := 1, errorCode := errCodeInternal.toNat, status := 500, requestId }

/-- Decode the buffer, which is cut to the written bytes. -/
def refresh (buf body requestId : Bytes) : FastIngressResult :=
  if buf.length < outDataStart then internalError requestId
  else
    let rawVerdict := (buf.getD 0 0).toNat
    let rawErrorCode := (buf.getD 1 0).toNat
    let rawStatus := (readU16 buf 2).getD 0
    let flags := u32At buf 4
    let rateLimit := u32At buf 8
    let bodyJsonLen := u32At buf 44
    let layout := sectionLayout buf.length (u32At buf 32) (u32At buf 36) bodyJsonLen
    let preflightAllowed := hasFlag flags flagIsPreflight && hasFlag flags flagCorsAllowed
    let uninitialized := rawVerdict = 0 ∧ rawErrorCode = 0 ∧ rawStatus = 0 ∧ flags = 0
    let verdict := if uninitialized then 1 else rawVerdict
    let errorCode := if uninitialized then errCodeInternal.toNat else rawErrorCode
    let status :=
      if uninitialized then 500 else normalizeResponseStatus rawStatus rawErrorCode preflightAllowed
    { IngressResultBase.decode buf body verdict errorCode status layout
        (bodyJsonSlice buf buf.length layout.bodyJsonStart bodyJsonLen) with
      flags, rateLimit, requestId
      https := hasFlag flags flagHttps
      hasCookies := hasFlag flags flagHasCookies
      hasQuery := hasFlag flags flagHasQuery }

end FastIngressResult

/-! ## Where the sections lie -/

/-- The sections lie one behind another behind the header, within the first `len` bytes. -/
def IngressResultBase.Within (r : IngressResultBase) (buf : Bytes) (len : Nat) : Prop :=
  ∃ c q b, r.cookiesJson = (buf.drop outDataStart).take c ∧
    r.queryJson = (buf.drop (outDataStart + c)).take q ∧
    r.bodyJson = (buf.drop (outDataStart + c + q)).take b ∧
    (c + q + b = 0 ∨ outDataStart + c + q + b ≤ len)

theorem IngressResultBase.within_empty {r : IngressResultBase} (hc : r.cookiesJson = [])
    (hq : r.queryJson = []) (hb : r.bodyJson = []) (buf : Bytes) (len : Nat) : r.Within buf len :=
  ⟨0, 0, 0, hc, hq, hb, .inl rfl⟩

/-- Whatever lengths are declared, the ones that are used fit. -/
theorem sectionLayout_fits {len : Nat} (hlen : outDataStart ≤ len) (c q b : Nat) :
    let l := sectionLayout len c q b
    l.queryStart = outDataStart + l.safeCookiesLen ∧
    l.bodyJsonStart = outDataStart + l.safeCookiesLen + l.safeQueryLen ∧
    outDataStart + l.safeCookiesLen + l.safeQueryLen + l.safeBodyJsonLen ≤ len := by
  unfold sectionLayout
  dsimp only
  refine ⟨rfl, rfl, ?_⟩
  split <;> split <;> split <;> omega

/-- The check of a read comes to the length that is clamped. -/
theorem bodyJsonSlice_eq (buf : Bytes) (len c q b : Nat) :
    let l := sectionLayout len c q b
    bodyJsonSlice buf len l.bodyJsonStart b =
      (buf.drop l.bodyJsonStart).take l.safeBodyJsonLen := by
  dsimp only
  have hsafe : (sectionLayout len c q b).safeBodyJsonLen =
      if 0 < b ∧ (sectionLayout len c q b).bodyJsonStart + b ≤ len then b else 0 := rfl
  rw [hsafe, bodyJsonSlice]
  by_cases hb : b = 0
  · rw [if_pos hb, if_neg (by omega)]
    rfl
  rw [if_neg hb]
  by_cases hroom : len < (sectionLayout len c q b).bodyJsonStart + b
  · rw [if_pos hroom, if_neg (by omega)]
    rfl
  · rw [if_neg hroom, if_pos ⟨by omega, by omega⟩]

theorem BakedIngressResult.refresh_within (buf body : Bytes) (len : Nat) :
    (BakedIngressResult.refresh buf body len).Within buf len := by
  unfold refresh
  split
  · exact IngressResultBase.within_empty rfl rfl rfl buf len
  · next hlen =>
    obtain ⟨hquery, hbody, hfits⟩ :=
      sectionLayout_fits (Nat.le_of_not_lt hlen) (u32At buf 32) (u32At buf 36) (u32At buf 44)
    exact ⟨_, _, _, rfl, by rw [← hquery]; rfl, by rw [← hbody]; rfl, .inr hfits⟩

/-- A section of the written bytes is one of the buffer. -/
theorem take_drop_take {buf : Bytes} {start n len : Nat} (h : n = 0 ∨ start + n ≤ len) :
    ((buf.take len).drop start).take n = (buf.drop start).take n := by
  rcases h with rfl | h
  · rfl
  · rw [List.drop_take, List.take_take, Nat.min_eq_left (by omega)]

theorem FastIngressResult.refresh_within (buf body requestId : Bytes) (len : Nat) :
    (FastIngressResult.refresh (buf.take len) body requestId).Within buf len := by
  unfold refresh
  split
  · exact IngressResultBase.within_empty rfl rfl rfl buf len
  · next hlen =>
    have hwritten : (buf.take len).length ≤ len := List.length_take_le len buf
    obtain ⟨hquery, hbody, hfits⟩ := sectionLayout_fits (Nat.le_of_not_lt hlen)
      (u32At (buf.take len) 32) (u32At (buf.take len) 36) (u32At (buf.take len) 44)
    have hslice := bodyJsonSlice_eq (buf.take len) (buf.take len).length
      (u32At (buf.take len) 32) (u32At (buf.take len) 36) (u32At (buf.take len) 44)
    dsimp only at hquery hbody hfits hslice ⊢
    generalize sectionLayout (buf.take len).length (u32At (buf.take len) 32)
      (u32At (buf.take len) 36) (u32At (buf.take len) 44) = l at hquery hbody hfits hslice ⊢
    refine ⟨l.safeCookiesLen, l.safeQueryLen, l.safeBodyJsonLen, ?_, ?_, ?_, .inr (by omega)⟩
    · apply take_drop_take
      omega
    · rw [← hquery]
      apply take_drop_take
      omega
    · rw [hslice, ← hbody]
      apply take_drop_take
      omega

/-! ## What is decoded -/

/-- A header whose status is one of the pipeline's, and which has a window only under a limit. -/
structure HeaderFields.Plain (f : HeaderFields) : Prop where
  status : 200 ≤ f.status ∧ f.status ≤ 599
  window : f.rate.limit ≠ 0 ∨ hasFlag f.flags.toNat flagRateLimited = true ∨
    f.rate.resetMs = 0 ∧ f.rate.retryAfterMs = 0

/-- What a header and its sections mean. -/
def HeaderFields.decoded (f : HeaderFields) (sections : Sections) (body : Bytes) :
    IngressResultBase :=
  { verdict := f.verdict.toNat
    errorCode := f.errorCode.toNat
    status := f.status.toNat
    headerVariant := f.headerVariant.toNat
    rateRemaining := f.rate.remaining.toNat
    rateResetMs := f.rate.resetMs.toNat
    retryAfterMs := f.rate.retryAfterMs.toNat
    terminal := f.verdict.toNat ≠ 0 || 400 ≤ f.status.toNat
    ok := f.verdict.toNat = 0 && 200 ≤ f.status.toNat && f.status.toNat < 400
    isPreflight := hasFlag f.flags.toNat flagIsPreflight
    corsAllowed := hasFlag f.flags.toNat flagCorsAllowed
    rateLimited := hasFlag f.flags.toNat flagRateLimited
    trustedProxy := hasFlag f.flags.toNat flagTrustedProxy
    bodyValidJson := hasFlag f.flags.toNat flagBodyValidJson
    schemaValid := hasFlag f.flags.toNat flagSchemaValid
    bodyTruncated := hasFlag f.flags.toNat flagBodyTruncated
    body
    cookiesJson := sections.cookies
    queryJson := sections.query
    bodyJson := sections.body }

/-- The same, with what only the fast decoder reports. -/
def HeaderFields.decodedFast (f : HeaderFields) (sections : Sections) (body requestId : Bytes) :
    FastIngressResult :=
  { f.decoded sections body with
    flags := f.flags.toNat
    https := hasFlag f.flags.toNat flagHttps
    hasCookies := hasFlag f.flags.toNat flagHasCookies
    hasQuery := hasFlag f.flags.toNat flagHasQuery
    rateLimit := f.rate.limit.toNat
    requestId }

section

variable {f : HeaderFields} (tail : Bytes)

theorem u32At_halves {before : Bytes} {offset : Nat} (h : before.length = offset) (n : UInt64)
    (behind : Bytes) :
    u32At (before ++ (le64 n.toNat ++ behind)) offset +
      u32At (before ++ (le64 n.toNat ++ behind)) (offset + 4) * 4294967296 = n.toNat := by
  have hlow : u32At (before ++ (le64 n.toNat ++ behind)) offset = n.toNat % 2 ^ 32 := by
    rw [u32At, ← h, le64, List.append_assoc, readU32_append, Option.getD_some]
  have hhigh : u32At (before ++ (le64 n.toNat ++ behind)) (offset + 4) = n.toNat / 2 ^ 32 := by
    have hsplit : before ++ (le64 n.toNat ++ behind) =
        (before ++ le32 n.toNat) ++ (le32 (n.toNat / 2 ^ 32) ++ behind) := by
      rw [le64]
      simp only [List.append_assoc]
    have hlen : (before ++ le32 n.toNat).length = offset + 4 := by
      rw [List.length_append, h, length_le32]
    have hlt := n.toNat_lt
    rw [u32At, hsplit, ← hlen, readU32_append, Option.getD_some, Nat.mod_eq_of_lt (by omega)]
  rw [hlow, hhigh]
  omega

theorem rateLimit_append : u32At (f.bytes ++ tail) 8 = f.rate.limit.toNat :=
  u32At_append (show (f.bytes.take 8).length = 8 from rfl) f.rate.limit (f.bytes.drop 12 ++ tail)

theorem rateRemaining_append : u32At (f.bytes ++ tail) 12 = f.rate.remaining.toNat :=
  u32At_append (show (f.bytes.take 12).length = 12 from rfl) f.rate.remaining
    (f.bytes.drop 16 ++ tail)

theorem resetMs_append :
    u32At (f.bytes ++ tail) 16 + u32At (f.bytes ++ tail) 20 * 4294967296 = f.rate.resetMs.toNat :=
  u32At_halves (show (f.bytes.take 16).length = 16 from rfl) f.rate.resetMs (f.bytes.drop 24 ++ tail)

theorem retryAfterMs_append :
    u32At (f.bytes ++ tail) 24 + u32At (f.bytes ++ tail) 28 * 4294967296 =
      f.rate.retryAfterMs.toNat :=
  u32At_halves (show (f.bytes.take 24).length = 24 from rfl) f.rate.retryAfterMs
    (f.bytes.drop 32 ++ tail)

theorem headerVariant_append : (f.bytes ++ tail).getD 40 0 = f.headerVariant := rfl

/-- The window as it was written: where it is not read there is none. -/
theorem HeaderFields.Plain.window_eq (h : f.Plain) (n : Nat)
    (hn : n = f.rate.resetMs.toNat ∨ n = f.rate.retryAfterMs.toNat) :
    (if 0 < f.rate.limit.toNat || hasFlag f.flags.toNat flagRateLimited then n else 0) = n := by
  rcases h.window with hlimit | hflag | ⟨hreset, hretry⟩
  · have hpos : 0 < f.rate.limit.toNat := by
      apply Nat.pos_of_ne_zero
      intro hzero
      exact hlimit (UInt32.toNat_inj.mp hzero)
    rw [if_pos (by rw [decide_eq_true hpos, Bool.true_or])]
  · rw [if_pos (by rw [hflag, Bool.or_true])]
  · have hzero : n = 0 := by
      rcases hn with rfl | rfl
      · rw [hreset]
        rfl
      · rw [hretry]
        rfl
    rw [hzero, ite_self]

theorem HeaderFields.Plain.clampStatus_eq (h : f.Plain) :
    HeaderFields.clampStatus f.status = f.status := if_pos h.status

theorem HeaderFields.Plain.isValid (h : f.Plain) : isValidResponseStatus f.status.toNat = true := by
  have hlow := UInt16.le_iff_toNat_le.mp h.status.1
  have hhigh := UInt16.le_iff_toNat_le.mp h.status.2
  unfold isValidResponseStatus
  rw [Bool.or_eq_true, Bool.and_eq_true, decide_eq_true_iff, decide_eq_true_iff, decide_eq_true_iff]
  exact .inr ⟨hlow, hhigh⟩

/-- Sections whose lengths are those of the header are all within the written bytes. -/
theorem sectionLayout_exact (c q b : Nat) :
    sectionLayout (outDataStart + c + q + b) c q b =
      ⟨c, outDataStart + c, q, outDataStart + c + q, b, false⟩ := by
  have hclamp : ∀ n start len : Nat, start + n ≤ len → (if 0 < n ∧ start + n ≤ len then n else 0) = n := by
    intro n start len h
    split <;> omega
  unfold sectionLayout
  dsimp only
  rw [hclamp c _ _ (by omega), hclamp q _ _ (by omega), hclamp b _ _ (by omega)]
  simp

/-- A result that was written: the header over its sections, and the bytes that were written. -/
structure Written (f : HeaderFields) (r : Nat × Bytes) : Prop where
  bytes : ∃ tail, r.2 = f.bytes ++ tail
  size : r.1 = outDataStart + f.cookiesJsonLen.toNat + f.queryJsonLen.toNat + f.bodyJsonLen.toNat
  fits : r.1 ≤ r.2.length

theorem Sections.read_slices (f : HeaderFields) (tail : Bytes) :
    read (f.bytes ++ tail) =
      ⟨((f.bytes ++ tail).drop outDataStart).take f.cookiesJsonLen.toNat,
        ((f.bytes ++ tail).drop (outDataStart + f.cookiesJsonLen.toNat)).take f.queryJsonLen.toNat,
        ((f.bytes ++ tail).drop (outDataStart + f.cookiesJsonLen.toNat +
          f.queryJsonLen.toNat)).take f.bodyJsonLen.toNat⟩ := by
  unfold read
  rw [cookiesLen_append, queryLen_append, bodyLen_append]

/-- **The pre-baked decoder** recovers a result that was written. -/
theorem Written.baked {r : Nat × Bytes} (h : Written f r) (hplain : f.Plain) (body : Bytes) :
    (BakedIngressResult.refresh r.2 body r.1).toIngressResultBase = f.decoded (Sections.read r.2) body := by
  obtain ⟨tail, htail⟩ := h.bytes
  obtain ⟨hverdict, herror, hstatus, hword⟩ := firstWord_append f tail
  rw [hplain.clampStatus_eq] at hstatus
  have hempty : ¬ (u32At (f.bytes ++ tail) 0 = 0 ∧ u32At (f.bytes ++ tail) 4 = 0) :=
    fun h => hword h.1
  have hlayout := sectionLayout_exact f.cookiesJsonLen.toNat f.queryJsonLen.toNat
    f.bodyJsonLen.toNat
  rw [← h.size] at hlayout
  rw [htail, Sections.read_slices]
  unfold BakedIngressResult.refresh
  rw [if_neg (by rw [h.size]; omega)]
  dsimp only [IngressResultBase.decode]
  rw [cookiesLen_append, queryLen_append, bodyLen_append, flags_append, rateLimit_append,
    rateRemaining_append, resetMs_append, retryAfterMs_append, headerVariant_append, hlayout]
  rw [flags_append] at hempty
  simp only [if_neg hempty, hverdict, herror, hstatus, hplain.isValid, if_true,
    hplain.window_eq _ (.inl rfl), hplain.window_eq _ (.inr rfl), Bool.or_false]
  rfl

/-- What is cut to the written bytes has the same sections. -/
theorem Written.read_take {r : Nat × Bytes} (h : Written f r) :
    ∃ tail, r.2.take r.1 = f.bytes ++ tail ∧ Sections.read (r.2.take r.1) = Sections.read r.2 := by
  obtain ⟨tail, htail⟩ := h.bytes
  have hsize := h.size
  have hcut : (f.bytes ++ tail).take r.1 = f.bytes ++ tail.take (r.1 - outDataStart) := by
    rw [List.take_append, List.take_of_length_le (by rw [f.length_bytes]; omega), f.length_bytes]
  refine ⟨tail.take (r.1 - outDataStart), by rw [htail, hcut], ?_⟩
  rw [htail, hcut, Sections.read_slices, ← hcut, Sections.read_slices]
  congr 1
  · apply take_drop_take
    omega
  · apply take_drop_take
    omega
  · apply take_drop_take
    omega

/-- **The fast decoder** recovers it as well, from the bytes that were written. -/
theorem Written.fast {r : Nat × Bytes} (h : Written f r) (hplain : f.Plain) (body requestId : Bytes) :
    FastIngressResult.refresh (r.2.take r.1) body requestId =
      f.decodedFast (Sections.read r.2) body requestId := by
  have hlen : (r.2.take r.1).length = r.1 := List.length_take_of_le h.fits
  obtain ⟨tail, htail, hread⟩ := h.read_take
  rw [← hread, htail, Sections.read_slices]
  rw [htail] at hlen
  have hstatus := status_append f tail
  rw [hplain.clampStatus_eq] at hstatus
  have hpos : 200 ≤ f.status.toNat := UInt16.le_iff_toNat_le.mp hplain.status.1
  have hlayout := sectionLayout_exact f.cookiesJsonLen.toNat f.queryJsonLen.toNat
    f.bodyJsonLen.toNat
  rw [← h.size] at hlayout
  have hslice := bodyJsonSlice_eq (f.bytes ++ tail) r.1 f.cookiesJsonLen.toNat f.queryJsonLen.toNat
    f.bodyJsonLen.toNat
  rw [hlayout] at hslice
  have hverdict : (f.bytes ++ tail).getD 0 0 = f.verdict := rfl
  have herror : (f.bytes ++ tail).getD 1 0 = f.errorCode := rfl
  unfold FastIngressResult.refresh
  rw [if_neg (by rw [hlen, h.size]; omega)]
  dsimp only [IngressResultBase.decode]
  rw [cookiesLen_append, queryLen_append, bodyLen_append, flags_append, rateLimit_append,
    rateRemaining_append, resetMs_append, retryAfterMs_append, headerVariant_append, hstatus,
    hverdict, herror, hlen, hlayout, hslice, Option.getD_some]
  have hinit : ¬ (f.verdict.toNat = 0 ∧ f.errorCode.toNat = 0 ∧ f.status.toNat = 0 ∧
      f.flags.toNat = 0) := fun h => by omega
  simp only [if_neg hinit, normalizeResponseStatus, hplain.isValid, if_true,
    hplain.window_eq _ (.inl rfl), hplain.window_eq _ (.inr rfl), Bool.or_false]
  rfl

end

/-! ## The results of the pipeline -/

section

variable {crates : Crates} {inner : IngressInner}

/-- A limiter that counts reports its limit, and one that allows nothing lets nothing through. -/
theorem rateStage_window {resolved : ResolvedIp} {now : UInt64} {flags : UInt32} {corsOk : Bool}
    {rate : RateInfo} (h : (rateStage crates inner resolved now flags corsOk).1 = .ok rate) :
    rate.limit ≠ 0 ∨ rate.resetMs = 0 ∧ rate.retryAfterMs = 0 := by
  unfold rateStage at h
  cases hrate : inner.rate with
  | disabled =>
    rw [hrate] at h
    injection h with h
    rw [← h]
    exact .inr ⟨rfl, rfl⟩
  | enabled seed limiter =>
    rw [hrate] at h
    dsimp only at h
    split at h
    · next hallowed =>
      injection h with h
      refine .inl ?_
      rw [← h]
      show limiter.limit ≠ 0
      intro hzero
      unfold KeyedRateLimiter.checkKey at hallowed
      rw [if_pos hzero] at hallowed
      cases hallowed
    · cases h

/-- The terminals of the body stage report the rate they were given. -/
theorem bodyStage_rate {mk : MethodKind} {body : Bytes} {flags : UInt32} {hv : UInt8}
    {rate : RateInfo} {t : Terminal} (h : bodyStage crates inner mk body flags hv rate = .error t) :
    t.rate = rate ∧ t.status ∈ [413, 400, 422] := by
  have hlarge : 413 ∈ [413, 400, (422 : UInt16)] := by decide
  have hinvalid : 400 ∈ [413, 400, (422 : UInt16)] := by decide
  have hschema : 422 ∈ [413, 400, (422 : UInt16)] := by decide
  unfold bodyStage at h
  -- The exits in the order of the stage: too large, empty, malformed, outside the schema, not JSON.
  split at h
  · injection h with h
    exact h ▸ ⟨rfl, hlarge⟩
  split at h
  · split at h
    · injection h with h
      exact h ▸ ⟨rfl, hinvalid⟩
    · split at h
      · split at h
        · cases h
        split at h
        · injection h with h
          exact h ▸ ⟨rfl, hinvalid⟩
        split at h
        · injection h with h
          exact h ▸ ⟨rfl, hschema⟩
        · injection h with h
          exact h ▸ ⟨rfl, hschema⟩
      · split at h
        · injection h with h
          exact h ▸ ⟨rfl, hinvalid⟩
        · cases h
  · cases h

theorem corsStage_plain {mk : MethodKind} {headers : HeaderRefs} {flags : UInt32} {t : Terminal}
    (h : corsStage inner mk headers flags = .error t) : t.fields.Plain := by
  unfold corsStage at h
  dsimp only at h
  split at h
  · split at h
    · split at h
      · injection h with h
        exact h ▸ ⟨⟨show (200 : UInt16) ≤ 204 by decide, show (204 : UInt16) ≤ 599 by decide⟩,
          .inr (.inr ⟨rfl, rfl⟩)⟩
      · injection h with h
        exact h ▸ ⟨⟨show (200 : UInt16) ≤ 403 by decide, show (403 : UInt16) ≤ 599 by decide⟩,
          .inr (.inr ⟨rfl, rfl⟩)⟩
    · cases h
  · cases h

theorem hasFlag_or_self (flags flag : UInt32) (h : flag ≠ 0) :
    hasFlag (flags ||| flag).toNat flag = true := by
  rw [hasFlag_toNat, decide_eq_true_iff, or_and_flag, UInt32.and_self]
  intro hzero
  exact h (UInt32.or_eq_zero_iff.mp hzero).2

theorem rateStage_plain {resolved : ResolvedIp} {now : UInt64} {flags : UInt32} {corsOk : Bool}
    {t : Terminal} (h : (rateStage crates inner resolved now flags corsOk).1 = .error t) :
    t.fields.Plain := by
  unfold rateStage at h
  cases hrate : inner.rate with
  | disabled =>
    rw [hrate] at h
    cases h
  | enabled seed limiter =>
    rw [hrate] at h
    dsimp only at h
    split at h
    · cases h
    · injection h with h
      rw [← h]
      exact ⟨⟨show (200 : UInt16) ≤ 429 by decide, show (429 : UInt16) ≤ 599 by decide⟩,
        .inr (.inl (hasFlag_or_self flags flagRateLimited (by decide)))⟩

/-- A terminal without a rate, with a status of the pipeline. -/
theorem terminalSimple_plain (code : UInt8) {status : UInt16} (h : 200 ≤ status ∧ status ≤ 599) :
    (terminalSimple code status).fields.Plain := ⟨h, .inr (.inr ⟨rfl, rfl⟩)⟩

/-- **What the stages hand to the writer** is plain: a terminal, and the rate of a request that
passes. -/
theorem runStages_plain (mk : MethodKind) (url ip : Bytes) (headers : HeaderRefs) (body : Bytes)
    (now : UInt64) :
    match (runStages crates inner mk url ip headers body now).1 with
    | .error t => t.fields.Plain
    | .ok p => p.rate.limit ≠ 0 ∨ p.rate.resetMs = 0 ∧ p.rate.retryAfterMs = 0 := by
  unfold runStages admission
  dsimp only
  cases hcors : corsStage inner mk headers (trustStage inner url ip headers).2 with
  | error t => exact corsStage_plain hcors
  | ok flags =>
    dsimp only
    cases hrate : (rateStage crates inner (trustStage inner url ip headers).1 now flags
        (flags &&& flagCorsAllowed ≠ 0)).1 with
    | error t => exact rateStage_plain hrate
    | ok rate =>
      have hwindow := rateStage_window hrate
      rw [ok_bind]
      cases hbody : bodyStage crates inner mk body flags
          (computeHeaderVariant (flags &&& flagCorsAllowed ≠ 0) false inner.rate.isActive false true)
          rate with
      | error t =>
        -- a refused body keeps the rate of the request
        obtain ⟨hsame, hstatus⟩ := bodyStage_rate hbody
        have hrange : 200 ≤ t.status ∧ t.status ≤ 599 := by
          simp only [List.mem_cons, List.not_mem_nil, or_false] at hstatus
          rcases hstatus with h | h | h <;> rw [h] <;> decide
        exact ⟨hrange, by rw [← hsame] at hwindow; exact hwindow.imp_right .inr⟩
      | ok flags' =>
        rw [ok_bind, ok_bind]
        cases hquery : queryStage inner url with
        | error t =>
          have ht : t = terminalSimple errCodeBadRequest 414 := by
            unfold queryStage at hquery
            split at hquery
            · split at hquery
              · injection hquery with hquery
                exact hquery.symm
              · cases hquery
            · cases hquery
          rw [ht]
          exact terminalSimple_plain _ (by decide)
        | ok rawQuery => exact hwindow

theorem Terminal.write_written (t : Terminal) (out : Bytes) :
    Written t.fields (t.write out) where
  bytes := ⟨_, rfl⟩
  size := rfl
  fits := by
    show outDataStart ≤ (t.fields.bytes ++ out.drop outDataStart).length
    rw [List.length_append, HeaderFields.length_bytes]
    omega

theorem writePass_written (url rid : Bytes) {p : Pass}
    (hwindow : p.rate.limit ≠ 0 ∨ p.rate.resetMs = 0 ∧ p.rate.retryAfterMs = 0) {out : Bytes}
    (hout : outDataStart ≤ out.length) :
    ∃ f, Written f (writePass inner url rid p out) ∧ f.Plain := by
  obtain ⟨hlen, hlengths⟩ := writeBodySections_lengths inner p.headers p.rawQuery url rid hout
  have hle := sectionLengths_le inner.emitMetadataJson (cookiesText inner p.headers).length
    (queryText inner p.rawQuery).length (envelopeLen rid (extractPath url)) hout
  rw [← hlengths] at hle
  dsimp only at hle hlen
  set written := writeBodySections inner p.headers p.rawQuery url rid out
  obtain ⟨f, hresult, hc, hq, hb, hstatus, hrate⟩ : ∃ f : HeaderFields,
      writePass inner url rid p out = f.write written.2 ∧
      f.cookiesJsonLen = written.1.cookiesJsonLen ∧ f.queryJsonLen = written.1.queryJsonLen ∧
      f.bodyJsonLen = UInt32.ofNat written.1.bodyJsonLen ∧ f.status = 200 ∧ f.rate = p.rate :=
    ⟨_, rfl, rfl, rfl, rfl, rfl, rfl⟩
  refine ⟨f, ⟨⟨_, by rw [hresult]; rfl⟩, by rw [hresult]; rfl, ?_⟩, ?_, ?_⟩
  · have hbody : f.bodyJsonLen.toNat ≤ written.1.bodyJsonLen := by
      rw [hb, UInt32.toNat_ofNat']
      exact Nat.mod_le _ _
    rw [hresult]
    show outDataStart + f.cookiesJsonLen.toNat + f.queryJsonLen.toNat + f.bodyJsonLen.toNat ≤
      (f.bytes ++ written.2.drop outDataStart).length
    rw [List.length_append, f.length_bytes, List.length_drop, hlen, hc, hq]
    omega
  · rw [hstatus]
    decide
  · rw [hrate]
    exact hwindow.imp_right .inr

theorem finish_written (mk : MethodKind) (url ip rid headersPacked body : Bytes) (now : UInt64)
    {out : Bytes} (hout : outDataStart ≤ out.length) :
    ∃ f, Written f (finish inner url rid (outcome crates inner mk url ip headersPacked body now) out) ∧
      f.Plain := by
  unfold outcome
  cases HeaderRefs.parse headersPacked (mk = .options) inner.limits.maxHeaders.toNat with
  | error e =>
    exact ⟨_, (terminalSimple errCodeRequestTooLarge 431).write_written out,
      terminalSimple_plain _ (by decide)⟩
  | ok headers =>
    have hplain := @runStages_plain crates inner mk url ip headers body now
    dsimp only
    cases hrun : (runStages crates inner mk url ip headers body now).1 with
    | error t =>
      rw [hrun] at hplain
      exact ⟨_, t.write_written out, hplain⟩
    | ok p =>
      rw [hrun] at hplain
      exact writePass_written url rid hplain hout

variable (crates inner) in
/-- **Every result of the pipeline** is a plain header over its sections. -/
theorem handle_written {body out : Bytes} {now : UInt64} {r : Nat × Bytes}
    (h : (∃ mk url ip rid headersPacked,
        (handleComponents crates inner mk url ip rid headersPacked body out now).1 = .ok r) ∨
      ∃ input, (handlePacked crates inner input body out now).1 = .ok r) :
    ∃ f, Written f r ∧ f.Plain := by
  have hcomponents : ∀ {mk url ip rid headersPacked},
      (handleComponents crates inner mk url ip rid headersPacked body out now).1 = .ok r →
        ∃ f, Written f r ∧ f.Plain := by
    intro mk url ip rid headersPacked h
    by_cases hout : out.length < outDataStart
    · rw [handleComponents, if_pos hout] at h
      cases h
    rw [handleComponents_eq_finish crates inner mk url ip rid headersPacked body now
      (Nat.le_of_not_lt hout)] at h
    injection h with h
    exact h ▸ finish_written mk url ip rid headersPacked body now (Nat.le_of_not_lt hout)
  rcases h with ⟨mk, url, ip, rid, headersPacked, h⟩ | ⟨input, h⟩
  · exact hcomponents h
  · unfold handlePacked at h
    split at h
    · cases h
    next hout =>
    split at h
    · cases h
    split at h
    · next t hframe =>
      injection h with h
      have hplain : t.fields.Plain := by
        -- a frame that cannot be read is answered with one of the refusals for a size
        have hmem := readFrame_eq_error hframe
        simp only [sizeTerminals, List.mem_cons, List.not_mem_nil, or_false] at hmem
        rcases hmem with rfl | rfl | rfl
        · exact terminalSimple_plain _ (by decide)
        · exact terminalSimple_plain _ (by decide)
        · exact terminalSimple_plain _ (by decide)
      exact h ▸ ⟨_, t.write_written out, hplain⟩
    · exact hcomponents h

/-- **Results are decoded exactly and within bounds.** A result of the pipeline means the same to both
decoders: its header, for times that a number holds exactly, and its sections. And of any buffer at
all, whatever its header declares and however much of it was written, neither exposes a byte behind
what was written or one byte twice. -/
theorem ingressResult_decoded (crates : Crates) (inner : IngressInner) :
    (∀ (request out : Bytes) (now : UInt64) (r : Nat × Bytes),
      ((∃ mk url ip rid headersPacked,
          (handleComponents crates inner mk url ip rid headersPacked request out now).1 = .ok r) ∨
        ∃ input, (handlePacked crates inner input request out now).1 = .ok r) →
      ∃ f, Written f r ∧ f.Plain ∧
        (f.rate.resetMs.toNat < 2 ^ 53 → f.rate.retryAfterMs.toNat < 2 ^ 53 → ∀ body requestId,
          FastIngressResult.refresh (r.2.take r.1) body requestId =
            f.decodedFast (Sections.read r.2) body requestId ∧
          (BakedIngressResult.refresh r.2 body r.1).toIngressResultBase = f.decoded (Sections.read r.2) body)) ∧
    ∀ (buf body requestId : Bytes) (len : Nat),
      (FastIngressResult.refresh (buf.take len) body requestId).Within buf len ∧
      (BakedIngressResult.refresh buf body len).Within buf len := by
  constructor
  · intro request out now r h
    obtain ⟨f, hwritten, hplain⟩ := handle_written crates inner h
    refine ⟨f, hwritten, hplain, ?_⟩
    intro _ _ body requestId
    exact ⟨hwritten.fast hplain body requestId, hwritten.baked hplain body⟩
  · intro buf body requestId len
    exact ⟨FastIngressResult.refresh_within buf body requestId len,
      BakedIngressResult.refresh_within buf body len⟩

end

/-- A request with a query, written over what an earlier one left in the buffer: both decoders report
the same. -/
theorem ingressResult_decoded_sample : ∃ r,
    (handleComponents sampleCrates sampleQueryInner .get (utf8 "/?a=1") [] [] [] []
      (List.replicate 64 255) 0).1 = .ok r ∧
    (BakedIngressResult.refresh r.2 [] r.1).toIngressResultBase =
      (FastIngressResult.refresh (r.2.take r.1) [] []).toIngressResultBase := by
  have hresult := handleComponents_eq_finish sampleCrates sampleQueryInner .get (utf8 "/?a=1") [] [] []
    [] 0 (show outDataStart ≤ (List.replicate 64 255 : Bytes).length by decide)
  obtain ⟨f, hwritten, -, hdecoded⟩ := (ingressResult_decoded sampleCrates sampleQueryInner).1 []
    (List.replicate 64 255) 0 _ (.inl ⟨.get, utf8 "/?a=1", [], [], [], hresult⟩)
  refine ⟨_, hresult, ?_⟩
  -- no limiter, no window
  obtain ⟨tail, htail⟩ := hwritten.bytes
  have hreset := resetMs_append (f := f) tail
  have hretry := retryAfterMs_append (f := f) tail
  rw [← htail] at hreset hretry
  obtain ⟨hfast, hbaked⟩ := hdecoded (by rw [← hreset]; decide +kernel)
    (by rw [← hretry]; decide +kernel) [] []
  rw [hfast, hbaked]
  rfl

end Castrum
