import Castrum.Util.Wire

/-!
# Castrum — the result header (`rust/ingress/output.rs`, `rust/ingress/terminal.rs`)

A result is a header of 48 bytes and behind it up to three JSON sections: cookies, query, metadata.
The header holds the three lengths, and a reader cuts the sections out by them.

* `HeaderFields.write` — the header over the first 48 bytes, and the length it announces;
* `Sections.read_append` — what a reader cuts out of a result;
* `Terminal` — the headers of the results that end a request early.
-/

namespace Castrum

/-! ## Layout -/

def outDataStart : Nat := 48

def flagHasCookies : UInt32 := 1
def flagHasQuery : UInt32 := 2
def flagBodyValidJson : UInt32 := 4
def flagSchemaValid : UInt32 := 8
def flagCorsAllowed : UInt32 := 16
def flagIsPreflight : UInt32 := 32
def flagRateLimited : UInt32 := 64
def flagHttps : UInt32 := 128
def flagTrustedProxy : UInt32 := 256
def flagBodyTruncated : UInt32 := 512

def hvJson : UInt8 := 1
def hvCorsSimple : UInt8 := 2
def hvCorsPreflight : UInt8 := 4
def hvRateActive : UInt8 := 8
def hvRateLimited : UInt8 := 16

def errCodeNone : UInt8 := 0
def errCodeCorsPreflight : UInt8 := 1
def errCodeRateLimited : UInt8 := 2
def errCodeBodyTooLarge : UInt8 := 3
def errCodeInvalidJson : UInt8 := 4
def errCodeSchemaValidation : UInt8 := 5
def errCodeBadRequest : UInt8 := 6
def errCodeRequestTooLarge : UInt8 := 7

def computeHeaderVariant (corsOk isPreflight rateActive rateLimited wantsJson : Bool) : UInt8 :=
  (if wantsJson then hvJson else 0) |||
  (if corsOk && !isPreflight then hvCorsSimple else 0) |||
  (if isPreflight then hvCorsPreflight else 0) |||
  (if rateActive then hvRateActive else 0) |||
  (if rateLimited then hvRateLimited else 0)

/-- `flags` leaves the bit `flag` alone. -/
def Clears (flags flag : UInt32) : Prop := flags &&& flag = 0

theorem or_and_flag (a b flag : UInt32) : (a ||| b) &&& flag = (a &&& flag) ||| (b &&& flag) := by
  apply UInt32.toBitVec_inj.mp
  simp only [UInt32.toBitVec_and, UInt32.toBitVec_or]
  exact BitVec.and_or_distrib_right

theorem Clears.or {a b flag : UInt32} (ha : Clears a flag) (hb : Clears b flag) :
    Clears (a ||| b) flag := by
  rw [Clears, or_and_flag, show a &&& flag = 0 from ha, show b &&& flag = 0 from hb]
  rfl

theorem Clears.ite {a b flag : UInt32} {c : Prop} [Decidable c] (ha : Clears a flag)
    (hb : Clears b flag) : Clears (if c then a else b) flag := by
  split
  · exact ha
  · exact hb

/-! ## The header -/

structure RateInfo where
  limit : UInt32 := 0
  remaining : UInt32 := 0
  resetMs : UInt64 := 0
  retryAfterMs : UInt64 := 0
  deriving DecidableEq, Repr

structure HeaderFields where
  verdict : UInt8
  errorCode : UInt8
  status : UInt16
  flags : UInt32
  rate : RateInfo
  cookiesJsonLen : UInt32
  queryJsonLen : UInt32
  headerVariant : UInt8
  bodyJsonLen : UInt32
  deriving DecidableEq, Repr

namespace HeaderFields

/-- A success: verdict 0, status 200. -/
def ok (flags : UInt32) (rate : RateInfo) (cookiesJsonLen queryJsonLen : UInt32)
    (headerVariant : UInt8) (bodyJsonLen : UInt32) : HeaderFields :=
  { verdict := 0, errorCode := errCodeNone, status := 200, flags, rate, cookiesJsonLen,
    queryJsonLen, headerVariant, bodyJsonLen }

/-- Everything outside 200..=599 is written as 500. -/
def clampStatus (status : UInt16) : UInt16 := if 200 ≤ status ∧ status ≤ 599 then status else 500

/-- The part of the header before the section lengths. -/
def front (f : HeaderFields) : Bytes :=
  [f.verdict, f.errorCode] ++ le16 (clampStatus f.status).toNat ++ le32 f.flags.toNat ++
    le32 f.rate.limit.toNat ++ le32 f.rate.remaining.toNat ++ le64 f.rate.resetMs.toNat ++
    le64 f.rate.retryAfterMs.toNat

/-- The header: every field at its offset, the three bytes behind the variant zero. -/
def bytes (f : HeaderFields) : Bytes :=
  f.front ++ (le32 f.cookiesJsonLen.toNat ++ (le32 f.queryJsonLen.toNat ++
    ([f.headerVariant, 0, 0, 0] ++ le32 f.bodyJsonLen.toNat)))

theorem length_front (f : HeaderFields) : f.front.length = 32 := rfl

@[simp] theorem length_bytes (f : HeaderFields) : f.bytes.length = outDataStart := rfl

/-- `write_output_header`, for a buffer that holds a header: what is returned, and the buffer. -/
def write (f : HeaderFields) (out : Bytes) : Nat × Bytes :=
  (outDataStart + f.cookiesJsonLen.toNat + f.queryJsonLen.toNat + f.bodyJsonLen.toNat,
    f.bytes ++ out.drop outDataStart)

end HeaderFields

/-! ## Reading a result -/

/-- The field of 32 bits at `offset`; a result always has one. -/
def u32At (out : Bytes) (offset : Nat) : Nat := (readU32 out offset).getD 0

theorem u32At_append {before : Bytes} {offset : Nat} (h : before.length = offset) (n : UInt32)
    (behind : Bytes) : u32At (before ++ (le32 n.toNat ++ behind)) offset = n.toNat := by
  rw [u32At, ← h, readU32_append, Option.getD_some, Nat.mod_eq_of_lt n.toNat_lt]

/-- `FLAG_BODY_TRUNCATED`, as a reader of the result sees it. -/
def bodyTruncated (out : Bytes) : Prop := u32At out 4 &&& flagBodyTruncated.toNat ≠ 0

/-- The sections of a result, cut out by the lengths in its header. -/
structure Sections where
  cookies : Bytes
  query : Bytes
  body : Bytes
  deriving DecidableEq, Repr

def Sections.read (out : Bytes) : Sections :=
  let cookiesLen := u32At out 32
  let queryLen := u32At out 36
  let bodyLen := u32At out 44
  { cookies := (out.drop outDataStart).take cookiesLen
    query := (out.drop (outDataStart + cookiesLen)).take queryLen
    body := (out.drop (outDataStart + cookiesLen + queryLen)).take bodyLen }

section

variable (f : HeaderFields) (tail : Bytes)

theorem head_append : (f.bytes ++ tail)[0]? = some f.verdict := rfl

theorem errorCode_append : (f.bytes ++ tail)[1]? = some f.errorCode := rfl

theorem status_append :
    readU16 (f.bytes ++ tail) 2 = some (HeaderFields.clampStatus f.status).toNat := by
  have h := readU16_append (HeaderFields.clampStatus f.status).toNat [f.verdict, f.errorCode]
    (f.bytes.drop 4 ++ tail)
  rw [Nat.mod_eq_of_lt (UInt16.toNat_lt _)] at h
  rw [← h]
  rfl

theorem flags_append : u32At (f.bytes ++ tail) 4 = f.flags.toNat :=
  u32At_append (show (f.bytes.take 4).length = 4 from rfl) f.flags (f.bytes.drop 8 ++ tail)

theorem cookiesLen_append : u32At (f.bytes ++ tail) 32 = f.cookiesJsonLen.toNat :=
  u32At_append f.length_front f.cookiesJsonLen (f.bytes.drop 36 ++ tail)

theorem queryLen_append : u32At (f.bytes ++ tail) 36 = f.queryJsonLen.toNat :=
  u32At_append (show (f.bytes.take 36).length = 36 from rfl) f.queryJsonLen
    (f.bytes.drop 40 ++ tail)

theorem bodyLen_append : u32At (f.bytes ++ tail) 44 = f.bodyJsonLen.toNat :=
  u32At_append (show (f.bytes.take 44).length = 44 from rfl) f.bodyJsonLen tail

/-- **What a reader cuts out** of the bytes behind the header. -/
theorem Sections.read_append : read (f.bytes ++ tail) =
    { cookies := tail.take f.cookiesJsonLen.toNat
      query := (tail.drop f.cookiesJsonLen.toNat).take f.queryJsonLen.toNat
      body := (tail.drop (f.cookiesJsonLen.toNat + f.queryJsonLen.toNat)).take
        f.bodyJsonLen.toNat } := by
  have hdrop : ∀ n, (f.bytes ++ tail).drop (outDataStart + n) = tail.drop n := by
    intro n
    rw [← f.length_bytes, ← List.drop_drop, List.drop_left]
  unfold read
  rw [cookiesLen_append, queryLen_append, bodyLen_append]
  dsimp only
  rw [Nat.add_assoc, hdrop, hdrop, ← Nat.add_zero outDataStart, hdrop, List.drop_zero]

end

/-! ## Terminals -/

/-- The header of a result that ends the request: it announces no sections. -/
structure Terminal where
  verdict : UInt8
  errorCode : UInt8
  status : UInt16
  flags : UInt32
  rate : RateInfo
  headerVariant : UInt8
  deriving DecidableEq, Repr

/-- `HeaderFields::terminal`. -/
def Terminal.fields (t : Terminal) : HeaderFields :=
  { verdict := t.verdict, errorCode := t.errorCode, status := t.status, flags := t.flags,
    rate := t.rate, cookiesJsonLen := 0, queryJsonLen := 0, headerVariant := t.headerVariant,
    bodyJsonLen := 0 }

def Terminal.write (t : Terminal) (out : Bytes) : Nat × Bytes := t.fields.write out

def terminalSimple (errorCode : UInt8) (status : UInt16) : Terminal :=
  ⟨1, errorCode, status, 0, {}, hvJson⟩

def terminalPreflightOk (flags : UInt32) (hv : UInt8) : Terminal :=
  ⟨2, errCodeNone, 204, flags, {}, hv⟩

def terminalPreflightForbidden (flags : UInt32) (hv : UInt8) : Terminal :=
  ⟨2, errCodeCorsPreflight, 403, flags, {}, hv⟩

def terminalRateLimited (flags : UInt32) (hv : UInt8) (rate : RateInfo) : Terminal :=
  ⟨1, errCodeRateLimited, 429, flags, rate, hv⟩

def terminalBodyTooLarge (flags : UInt32) (hv : UInt8) (rate : RateInfo) : Terminal :=
  ⟨1, errCodeBodyTooLarge, 413, flags, rate, hv⟩

def terminalInvalidJson (flags : UInt32) (hv : UInt8) (rate : RateInfo) : Terminal :=
  ⟨1, errCodeInvalidJson, 400, flags, rate, hv⟩

def terminalSchemaValidation (flags : UInt32) (hv : UInt8) (rate : RateInfo) : Terminal :=
  ⟨1, errCodeSchemaValidation, 422, flags, rate, hv⟩

end Castrum
