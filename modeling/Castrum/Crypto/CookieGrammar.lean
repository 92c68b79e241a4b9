import Castrum.Ffi.RoundTrip
import Castrum.Lib.Output

/-!
# Castrum — the grammar of signed cookies (`rust/crypto/cookie_sign.rs`)

Three verifiers split a cookie at its last dot, and two signers put one together, each on its own.

* `verifyCookieInto_eq` / `verifyCookieBytesBool_eq` — what the other two verifiers make of the value;
* `verifyCookieBytes_eq_some_iff` — the cookies of a value;
* `signCookieInto_eq` — the three writes are those of one cookie;
* `cookie_grammar` — the verifiers accept the same cookies, those of the grammar.
-/

namespace Castrum.CookieGrammar

/-- `verify_cookie_bytes_bool`. -/
def verifyCookieBytesBool (H : Hmac) (signed : Bytes) (key : H.Key) : Bool :=
  match rposition (· == dotByte) signed with
  | none => false
  | some dot =>
    let value := signed.take dot
    let sig := (signed.drop dot).drop 1
    if sig.length ≠ 64 then false
    else
      match hexDecode32 sig with
      | none => false
      | some sigBytes => H.verify key value sigBytes

/-- `sign_cookie_into`, write by write. -/
def signCookieInto (H : Hmac) (value : Bytes) (key : H.Key) (out : Bytes) : Option Nat × Bytes :=
  let need := value.length + 1 + 64
  if out.length < need then (none, out)
  else
    let sig := copyInto (hexEncode (H.sign key value)) (List.replicate 64 0)
    let out := placed out 0 value
    let out := placed out value.length [dotByte]
    (some need, placed out (value.length + 1) sig)

section

variable (H : Hmac) (signed : Bytes) (key : H.Key) (out : Bytes)

/-! ## The verifiers -/

theorem verifyCookieInto_eq :
    verifyCookieInto H signed key out =
      match verifyCookieBytes H signed key with
      | none => (none, out)
      | some v => if out.length < v.length then (none, out) else (some v.length, copyInto v out) := by
  unfold verifyCookieInto verifyCookieBytes
  cases rposition (· == dotByte) signed with
  | none => rfl
  | some dot =>
    dsimp only
    by_cases hlength : ((signed.drop dot).drop 1).length ≠ 64
    · rw [if_pos hlength, if_pos hlength]
    · rw [if_neg hlength, if_neg hlength]
      cases hexDecode32 ((signed.drop dot).drop 1) with
      | none => rfl
      | some sigBytes =>
        dsimp only
        by_cases hverify : H.verify key (signed.take dot) sigBytes = false
        · rw [if_pos hverify, if_pos hverify]
        · rw [if_neg hverify, if_neg hverify]

theorem verifyCookieBytesBool_eq :
    verifyCookieBytesBool H signed key = (verifyCookieBytes H signed key).isSome := by
  unfold verifyCookieBytesBool verifyCookieBytes
  cases rposition (· == dotByte) signed with
  | none => rfl
  | some dot =>
    dsimp only
    by_cases hlength : ((signed.drop dot).drop 1).length ≠ 64
    · rw [if_pos hlength, if_pos hlength]
      rfl
    · rw [if_neg hlength, if_neg hlength]
      cases hexDecode32 ((signed.drop dot).drop 1) with
      | none => rfl
      | some sigBytes =>
        dsimp only
        cases H.verify key (signed.take dot) sigBytes <;> rfl

theorem copyInto_replicate (v : Bytes) : copyInto v (List.replicate v.length 0) = v := by
  rw [copyInto, List.drop_replicate, Nat.sub_self, List.replicate_zero, List.append_nil]

/-- The verifier that writes, with a buffer of the value's length. -/
theorem verifyCookieBytes_eq_some (v : Bytes) :
    verifyCookieBytes H signed key = some v ↔
      verifyCookieInto H signed key (List.replicate v.length 0) = (some v.length, v) := by
  rw [verifyCookieInto_eq]
  constructor
  · intro h
    rw [h]
    simp only [List.length_replicate, Nat.lt_irrefl, if_false, copyInto_replicate]
  · intro h
    cases hbytes : verifyCookieBytes H signed key with
    | none => rw [hbytes] at h; cases h
    | some w =>
      rw [hbytes] at h
      dsimp only at h
      split at h
      · cases h
      · obtain ⟨hlength, hcopy⟩ := Prod.mk.inj h
        rw [← Option.some.inj hlength, copyInto_replicate] at hcopy
        rw [hcopy]

/-- **The cookies of a value**: the value, a dot, and the 64 hex digits of its tag in any case. -/
theorem verifyCookieBytes_eq_some_iff (htag : ∀ v, (H.sign key v).length = 32) (v : Bytes) :
    verifyCookieBytes H signed key = some v ↔
      ∃ h, signed = v ++ dotByte :: h ∧ h.length = 64 ∧
        h.map asciiLower = hexEncode (H.sign key v) := by
  rw [verifyCookieBytes_eq_some, verifyCookieInto_eq_some_iff]
  constructor
  · rintro ⟨w, ⟨h, rfl, hspell⟩, hlen, hlength, -, hcopy⟩
    rw [← hlength, copyInto_replicate] at hcopy
    subst hcopy
    exact ⟨h, rfl, length_of_spells hspell hlen, hspell⟩
  · rintro ⟨h, rfl, -, hspell⟩
    exact ⟨v, ⟨h, rfl, hspell⟩, htag v, rfl, List.length_replicate.ge, (copyInto_replicate v).symm⟩

/-! ## The signers -/

theorem placed_zero (text : Bytes) : placed out 0 text = copyInto text out := by
  rw [placed, copyInto, List.take_zero, List.nil_append, Nat.zero_add]

/-- **The three writes** are one copy of the cookie. -/
theorem signCookieInto_eq (value : Bytes) (htag : (H.sign key value).length = 32) :
    signCookieInto H value key out = Castrum.signCookieInto H value key out := by
  have hhex : (hexEncode (H.sign key value)).length = 64 := by rw [hexEncode_length, htag]
  have hsig : copyInto (hexEncode (H.sign key value)) (List.replicate 64 0) =
      hexEncode (H.sign key value) := by
    rw [← hhex]
    exact copyInto_replicate _
  -- the three writes stand one behind the other, and so are one write
  have hdot : placed (placed out 0 value) value.length [dotByte] =
      placed out 0 (value ++ [dotByte]) := by
    have hplaced := placed_placed (Nat.zero_le out.length) value [dotByte]
    rwa [Nat.zero_add] at hplaced
  have hall : placed (placed out 0 (value ++ [dotByte])) (value.length + 1)
      (hexEncode (H.sign key value)) = copyInto (signCookieBytes H value key) out := by
    have hplaced := placed_placed (Nat.zero_le out.length) (value ++ [dotByte])
      (hexEncode (H.sign key value))
    rw [Nat.zero_add, List.length_append, List.length_singleton, List.append_assoc] at hplaced
    rw [hplaced, placed_zero]
    rfl
  unfold signCookieInto Castrum.signCookieInto
  dsimp only
  rw [hsig, hdot, hall]

/-! ## The grammar -/

/-- **The grammar of signed cookies.** The verifiers accept the same cookies, those that are a value, a dot
and the 64 hex digits of the value's tag, and return the value; and what the signers write is such a
cookie. -/
theorem cookie_grammar (H : Hmac) (key : H.Key) (htag : ∀ v, (H.sign key v).length = 32) :
    (∀ s v, verifyCookieBytes H s key = some v ↔
      ∃ h, s = v ++ dotByte :: h ∧ h.length = 64 ∧ h.map asciiLower = hexEncode (H.sign key v)) ∧
    (∀ s, verifyCookieBytesBool H s key = (verifyCookieBytes H s key).isSome) ∧
    (∀ s out, (∀ v ∈ verifyCookieBytes H s key, v.length ≤ out.length) →
      verifyCookieInto H s key out = match verifyCookieBytes H s key with
        | some v => (some v.length, copyInto v out)
        | none => (none, out)) ∧
    (∀ v, verifyCookieBytes H (signCookieBytes H v key) key = some v) ∧
    ∀ v out, v.length + 65 ≤ out.length → ∃ n out', signCookieInto H v key out = (some n, out') ∧
      verifyCookieBytes H (out'.take n) key = some v := by
  have hsigned : ∀ v, verifyCookieBytes H (signCookieBytes H v key) key = some v :=
    fun v => verifyCookieBytes_signCookieBytes H v key (htag v)
  refine ⟨fun s v => verifyCookieBytes_eq_some_iff H s key htag v,
    fun s => verifyCookieBytesBool_eq H s key, fun s out hroom => ?_, hsigned, fun v out hroom => ?_⟩
  · rw [verifyCookieInto_eq]
    cases hbytes : verifyCookieBytes H s key with
    | none => rfl
    | some v => exact if_neg (Nat.not_lt.mpr (hroom v hbytes))
  · refine ⟨_, _, (signCookieInto_eq H key out v (htag v)).trans (if_neg (Nat.not_lt.mpr hroom)), ?_⟩
    have hlength : (signCookieBytes H v key).length = v.length + 65 := by
      rw [signCookieBytes, List.length_append, List.length_cons, hexEncode_length, htag]
    rw [copyInto, ← hlength, List.take_left]
    exact hsigned v

end

theorem length_hmacSample (v : Bytes) : (hmacSample.sign [107] v).length = 32 := by
  show (if v = [] then _ else _ : Bytes).length = 32
  split <;> rfl

/-- The cookies of no bytes and of `a`, with the secret `k`. -/
theorem sample_grammar :
    verifyCookieBytes hmacSample (signCookieBytes hmacSample [] [107]) [107] = some [] ∧
    verifyCookieBytes hmacSample (signCookieBytes hmacSample [97] [107]) [107] = some [97] := by
  obtain ⟨-, -, -, hsigned, -⟩ := cookie_grammar hmacSample [107] length_hmacSample
  exact ⟨hsigned [], hsigned [97]⟩

end Castrum.CookieGrammar
