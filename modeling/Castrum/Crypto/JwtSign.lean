import Castrum.Crypto.Jwt

/-!
# Castrum — signed tokens (`rust/crypto/jwt/token.rs`, `rust/crypto/jwt/api.rs`)

A signer adds `iat` and `exp` to claims that are an object, and puts header, payload and signature
together. There is one path over the DOM of `serde_json`, which appends the two, and one over that of
`sonic_rs`, which keeps a sorted map from the first change on.

* `adds_serdeSigned` / `adds_sonicSigned` — both paths add the same two;
* `timesHold_fresh` — from when to when a fresh token is valid;
* `verifyTokenWithKey_build` — the token of a payload is as good as the payload;
* `jwt_exact` — verification is exact, and a token that was just signed is accepted until it expires.
-/

namespace Castrum.Jwt

variable (C : JwtCrates)

abbrev Members := List (Bytes × Value)

/-- `json!` of an `i64`. -/
def ofI64 (x : Int) : Number :=
  if 0 ≤ x then .posInt (UInt64.ofNat x.toNat) else .negInt (Fin.ofNat (2 ^ 63) (-x - 1).toNat)

def ofSeconds (x : Int) : Value := .number (ofI64 x)

/-! ## Claims -/

/-- `obj.entry(key).or_insert_with(..)`. -/
def orInsertWith (key : Bytes) (value : Except (Failure Unit) Value) (members : Members) :
    Except (Failure Unit) Members := do
  if (members.lookup key).isSome then return members
  else return members ++ [(key, ← value)]

/-- The change that `inject_and_payload_b64` makes to its claims. -/
def injectClaims (claims : Value) (ttlSeconds : Option Int) (nowSeconds : Int) :
    Except (Failure Unit) Value :=
  match claims with
  | .object members =>
    match ttlSeconds with
    | some ttl =>
      if ttl > 0 then do
        let members ← orInsertWith iatKey (.ok (ofSeconds nowSeconds)) members
        let members ← orInsertWith expKey (ofSeconds <$> i64 (nowSeconds + ttl)) members
        return .object members
      else return claims
    | none => return claims
  | _ => return claims

def injectAndPayloadB64 (claims : Value) (ttlSeconds : Option Int) (nowSeconds : Int) :
    Except (Failure Unit) Bytes := do
  let claims ← injectClaims claims ttlSeconds nowSeconds
  let payload ← orFail (.fail ()) (C.serdeToVec claims)
  return C.encode payload

/-- `BTreeMap::insert`. -/
def btreeInsert (key : Bytes) (value : Value) : Members → Members
  | [] => [(key, value)]
  | (k, v) :: members =>
    if k = key then (key, value) :: members
    else if key < k then (key, value) :: (k, v) :: members
    else (k, v) :: btreeInsert key value members

/-- The sorted map that a change makes of an object; a name that comes twice keeps its last value. -/
def asObjectMut (members : Members) : Members :=
  members.foldl (fun obj e => btreeInsert e.1 e.2 obj) []

def injectTtlClaims (claims : Value) (ttlSeconds : Option Int) (nowSeconds : Int) :
    Except (Failure Unit) Value :=
  match ttlSeconds with
  | some ttl =>
    if ttl > 0 then
      match claims with
      | .object members => do
        let obj := asObjectMut members
        let obj := if (obj.lookup iatKey).isNone then btreeInsert iatKey (ofSeconds nowSeconds) obj else obj
        if (obj.lookup expKey).isNone then
          let exp ← i64 (nowSeconds + ttl)
          return .object (btreeInsert expKey (ofSeconds exp) obj)
        else return .object obj
      | _ => return claims
    else return claims
  | none => return claims

def injectAndPayloadB64Sonic (claims : Value) (ttlSeconds : Option Int) (nowSeconds : Int) :
    Except (Failure Unit) Bytes := do
  let claims ← injectTtlClaims claims ttlSeconds nowSeconds
  let payload ← orFail (.fail ()) (C.sonicToVec claims)
  return C.encode payload

/-! ## Tokens -/

def buildTokenWithKey (header_b64 payload_b64 : Bytes) (key : C.hmac.Key) : Bytes :=
  let input := signingInput header_b64 payload_b64
  input ++ dotByte :: C.encode (C.hmac.sign key input)

def buildToken (header_b64 payload_b64 secret : Bytes) : Bytes :=
  buildTokenWithKey C header_b64 payload_b64 (C.hmac.new secret)

def buildEddsaToken (header_b64 payload_b64 privateDer : Bytes) : Option Bytes := do
  let input := signingInput header_b64 payload_b64
  let sig ← C.edSign privateDer input
  return input ++ dotByte :: C.encode sig

/-- `jwt_sign`: the claims are a DOM of `serde_json`. -/
def jwtSign (claims : Value) (secret : Bytes) (ttlSeconds : Option Int) (nowSeconds : Int) :
    Except (Failure Unit) Bytes := do
  let payload_b64 ← injectAndPayloadB64 C claims ttlSeconds nowSeconds
  return buildToken C (jwtHeaderB64 C) payload_b64 secret

/-- `jwt_sign_bytes`: the claims are text. -/
def jwtSignBytes (claimsJson secret : Bytes) (ttlSeconds : Option Int) (nowSeconds : Int) :
    Except (Failure Unit) Bytes := do
  let claims ← orFail (.fail ()) (C.parse claimsJson)
  let payload_b64 ← injectAndPayloadB64Sonic C claims ttlSeconds nowSeconds
  return buildToken C (jwtHeaderB64 C) payload_b64 secret

def signEddsa (claimsJson privateDer : Bytes) (ttlSeconds : Option Int) (nowSeconds : Int) :
    Except (Failure Unit) Bytes := do
  let claims ← orFail (.fail ()) (C.parse claimsJson)
  let payload_b64 ← injectAndPayloadB64Sonic C claims ttlSeconds nowSeconds
  orFail (.fail ()) (buildEddsaToken C (eddsaHeaderB64 C) payload_b64 privateDer)

/-! ## Numbers -/

section

variable {C : JwtCrates} {now now0 ttl exp x : Int} {claims signed : Value} {members : Members}

theorem toRat_ofI64 (hlow : -2 ^ 63 ≤ x) (hhigh : x < 2 ^ 63) : (ofI64 x).toRat = x := by
  rw [ofI64]
  split
  · next hnonneg =>
    have hnat : (UInt64.ofNat x.toNat).toNat = x.toNat :=
      UInt64.toNat_ofNat_of_lt' (show x.toNat < 2 ^ 64 by omega)
    rw [Number.toRat, hnat]
    exact_mod_cast Int.toNat_of_nonneg hnonneg
  · next hneg =>
    have hval : (Fin.ofNat (2 ^ 63) (-x - 1).toNat).val = (-x - 1).toNat :=
      Nat.mod_eq_of_lt (by omega)
    rw [Number.toRat, hval]
    congr 1
    omega

theorem asF64_ofI64 (hlow : -2 ^ 53 < x) (hhigh : x < 2 ^ 53) : (ofI64 x).asF64 = some (x : ℚ) := by
  rw [ofI64]
  split
  · next hnonneg =>
    have hnat : (UInt64.ofNat x.toNat).toNat = x.toNat :=
      UInt64.toNat_ofNat_of_lt' (show x.toNat < 2 ^ 64 by omega)
    rw [Number.asF64, hnat, roundNat_of_lt (by omega)]
    exact congrArg some (by exact_mod_cast Int.toNat_of_nonneg hnonneg)
  · next hneg =>
    have hval : (Fin.ofNat (2 ^ 63) (-x - 1).toNat).val = (-x - 1).toNat :=
      Nat.mod_eq_of_lt (by omega)
    have hcast : (((-x - 1).toNat + 1 : Nat) : Int) = -x := by omega
    rw [Number.asF64, hval, roundNat_of_lt (by omega), ← Int.cast_natCast, hcast, Int.cast_neg, neg_neg]

/-! ## Fresh claims -/

/-- `signed` is the claims with the two times of the signer. -/
structure Adds (claims : Bytes → Option Value) (now0 exp : Int) (signed : Value) : Prop where
  iat : member iatKey signed = some (ofSeconds now0)
  exp : member expKey signed = some (ofSeconds exp)
  rest : ∀ key, key ≠ iatKey → key ≠ expKey → member key signed = claims key

/-- **When fresh claims hold**: from the leeway before they were issued until they expire. -/
theorem timesHold_fresh {fields : Bytes → Option Value} (hadds : Adds fields now0 exp signed)
    (hnbf : fields nbfKey = none) (hnow0 : -2 ^ 53 < now0 ∧ now0 < 2 ^ 53)
    (hexp : -2 ^ 53 < exp ∧ exp < 2 ^ 53) (hnow : -2 ^ 53 < now ∧ now < 2 ^ 53) :
    TimesHold now signed ↔ now0 - 60 ≤ now ∧ now < exp := by
  have hleeway : ((now0 : ℚ) - clockSkewLeewaySecs) = ((now0 - 60 : Int) : ℚ) := by
    rw [clockSkewLeewaySecs]
    push_cast
    rfl
  -- the leeway is subtracted in `f64`, which does not round seconds of this size past an integer
  have hround : roundF64 ((now0 - 60 : Int) : ℚ) ≤ now ↔ now0 - 60 ≤ now := by
    constructor
    · intro h
      by_contra hlt
      have hle : ((now + 1 : Int) : ℚ) ≤ roundF64 ((now0 - 60 : Int) : ℚ) :=
        le_roundF64_int (by omega) (by omega) (by exact_mod_cast not_le.mp hlt)
      push_cast at hle h
      linarith
    · exact fun h => roundF64_le_int (by omega) hnow.2 (by exact_mod_cast h)
  have hrat : (ofI64 exp).toRat = exp := toRat_ofI64 (by omega) (by omega)
  constructor
  · rintro ⟨hexp', -, hiat'⟩
    obtain ⟨n, hn, hlt⟩ := hexp' _ hadds.exp
    obtain ⟨m, hm, iat, hiat, hle⟩ := hiat' _ hadds.iat
    cases hn
    cases hm
    rw [hrat] at hlt
    cases (asF64_ofI64 hnow0.1 hnow0.2).symm.trans hiat
    rw [hleeway] at hle
    exact ⟨hround.mp hle, by exact_mod_cast hlt⟩
  · rintro ⟨hle, hlt⟩
    refine ⟨fun c hc => ?_, fun c hc => ?_, fun c hc => ?_⟩
    · cases hadds.exp.symm.trans hc
      exact ⟨_, rfl, by rw [hrat]; exact_mod_cast hlt⟩
    · rw [hadds.rest nbfKey (by decide) (by decide), hnbf] at hc
      cases hc
    · cases hadds.iat.symm.trans hc
      exact ⟨_, rfl, _, asF64_ofI64 hnow0.1 hnow0.2, by rw [hleeway]; exact hround.mpr hle⟩

/-! ## Both ways to add them -/

theorem lookup_cons_ite (k key : Bytes) (v : Value) (members : Members) :
    List.lookup key ((k, v) :: members) = if key = k then some v else members.lookup key := by
  rw [List.lookup_cons]
  by_cases h : key = k
  · rw [if_pos h, beq_iff_eq.mpr h]
  · rw [if_neg h, beq_false_of_ne h]

theorem lookup_btreeInsert (k key : Bytes) (v : Value) (members : Members) :
    (btreeInsert k v members).lookup key = if key = k then some v else members.lookup key := by
  induction members with
  | nil => rw [btreeInsert, lookup_cons_ite]
  | cons e members ih =>
    obtain ⟨k', v'⟩ := e
    rw [btreeInsert]
    split
    · next heq =>
      subst heq
      rw [lookup_cons_ite, lookup_cons_ite]
      split
      · rfl
      · rfl
    · next hne =>
      split
      · rw [lookup_cons_ite]
      · rw [lookup_cons_ite, ih, lookup_cons_ite]
        by_cases hk' : key = k'
        · rw [if_pos hk', if_pos hk', if_neg fun hk => hne (hk'.symm.trans hk)]
        · rw [if_neg hk', if_neg hk']

/-- The map holds the last value of each name. -/
theorem lookup_asObjectMut (key : Bytes) (members : Members) :
    (asObjectMut members).lookup key = members.reverse.lookup key := by
  have hfold : ∀ obj : Members,
      (members.foldl (fun obj e => btreeInsert e.1 e.2 obj) obj).lookup key =
        (members.reverse.lookup key).or (obj.lookup key) := by
    induction members with
    | nil => exact fun obj => rfl
    | cons e members ih =>
      intro obj
      rw [List.foldl_cons, ih, lookup_btreeInsert, List.reverse_cons, List.lookup_append, Option.or_assoc,
        lookup_cons_ite]
      congr 1
      split
      · rfl
      · rfl
  rw [asObjectMut, hfold, List.lookup_nil, Option.or_none]

theorem lookup_reverse_eq_none {key : Bytes} (h : members.lookup key = none) :
    members.reverse.lookup key = none := by
  rw [List.lookup_eq_none_iff] at h ⊢
  exact fun e he => h e (List.mem_reverse.mp he)

/-- What the path of `serde_json` writes. -/
def serdeSigned (members : Members) (now0 exp : Int) : Value :=
  .object (members ++ [(iatKey, ofSeconds now0)] ++ [(expKey, ofSeconds exp)])

/-- What the path of `sonic_rs` writes. -/
def sonicSigned (members : Members) (now0 exp : Int) : Value :=
  .object (btreeInsert expKey (ofSeconds exp)
    (btreeInsert iatKey (ofSeconds now0) (asObjectMut members)))

theorem adds_serdeSigned (hiat : members.lookup iatKey = none) (hexp : members.lookup expKey = none) :
    Adds (List.lookup · members) now0 exp (serdeSigned members now0 exp) := by
  have hlookup : ∀ key, member key (serdeSigned members now0 exp) =
      ((members.lookup key).or (if key = iatKey then some (ofSeconds now0) else none)).or
        (if key = expKey then some (ofSeconds exp) else none) := fun key => by
    rw [serdeSigned, member, List.lookup_append, List.lookup_append, lookup_cons_ite, lookup_cons_ite]
    rfl
  refine ⟨?_, ?_, fun key hki hke => ?_⟩
  · rw [hlookup, hiat]
    rfl
  · rw [hlookup, hexp]
    rfl
  · rw [hlookup, if_neg hki, if_neg hke, Option.or_none, Option.or_none]

theorem adds_sonicSigned (members : Members) (now0 exp : Int) :
    Adds (List.lookup · members.reverse) now0 exp (sonicSigned members now0 exp) := by
  have hlookup : ∀ key, member key (sonicSigned members now0 exp) =
      if key = expKey then some (ofSeconds exp)
      else if key = iatKey then some (ofSeconds now0) else members.reverse.lookup key := fun key => by
    rw [sonicSigned, member, lookup_btreeInsert, lookup_btreeInsert, lookup_asObjectMut]
  refine ⟨?_, ?_, fun key hki hke => ?_⟩
  · rw [hlookup, if_neg (by decide), if_pos rfl]
  · rw [hlookup, if_pos rfl]
  · rw [hlookup, if_neg hke, if_neg hki]

theorem injectClaims_fresh (hiat : members.lookup iatKey = none) (hexp : members.lookup expKey = none)
    (httl : 0 < ttl) (hrange : -2 ^ 63 ≤ now0 + ttl ∧ now0 + ttl < 2 ^ 63) :
    injectClaims (.object members) (some ttl) now0 = .ok (serdeSigned members now0 (now0 + ttl)) := by
  have hexp' : List.lookup expKey (members ++ [(iatKey, ofSeconds now0)]) = none := by
    rw [List.lookup_append, hexp]
    rfl
  rw [injectClaims, if_pos httl, orInsertWith, hiat, i64_of_mem hrange]
  show orInsertWith expKey (.ok (ofSeconds (now0 + ttl))) (members ++ [(iatKey, ofSeconds now0)]) >>= _ = _
  rw [orInsertWith, hexp']
  rfl

theorem injectTtlClaims_fresh (hiat : members.lookup iatKey = none)
    (hexp : members.lookup expKey = none) (httl : 0 < ttl)
    (hrange : -2 ^ 63 ≤ now0 + ttl ∧ now0 + ttl < 2 ^ 63) :
    injectTtlClaims (.object members) (some ttl) now0 = .ok (sonicSigned members now0 (now0 + ttl)) := by
  have hiat' : (asObjectMut members).lookup iatKey = none := by
    rw [lookup_asObjectMut, lookup_reverse_eq_none hiat]
  have hexp' : (btreeInsert iatKey (ofSeconds now0) (asObjectMut members)).lookup expKey = none := by
    rw [lookup_btreeInsert, if_neg (by decide), lookup_asObjectMut, lookup_reverse_eq_none hexp]
  rw [injectTtlClaims]
  dsimp only
  rw [if_pos httl, hiat', Option.isNone_none, if_pos rfl, hexp', Option.isNone_none, if_pos rfl,
    i64_of_mem hrange]
  rfl

/-! ## Signed and verified -/

/-- base64url takes a text through a segment. -/
structure RoundTrips (C : JwtCrates) (text : Bytes) : Prop where
  decode_encode : C.decode (C.encode text) = some text
  plain : dotByte ∉ C.encode text

/-- A value is read back from its text, and the text from its segment. -/
structure Survives (C : JwtCrates) (v : Value) (text : Bytes) : Prop extends RoundTrips C text where
  parse : C.parse text = some v

/-- The canonical header of an algorithm is read back. -/
def HeaderSurvives (C : JwtCrates) (alg : Bytes) : Prop :=
  ∃ text, C.serdeToVec (headerValue alg) = some text ∧ Survives C (headerValue alg) text

variable {alg payload payload_b64 privateDer publicDer sig : Bytes}

theorem HeaderSurvives.namesAlg (h : HeaderSurvives C alg) : NamesAlg C alg (headerB64 C alg) := by
  obtain ⟨text, hwrite, hsurvives⟩ := h
  rw [headerB64, hwrite]
  exact ⟨text, _, hsurvives.decode_encode, hsurvives.parse, rfl⟩

theorem HeaderSurvives.plain (h : HeaderSurvives C alg) : dotByte ∉ headerB64 C alg := by
  obtain ⟨text, hwrite, hsurvives⟩ := h
  rw [headerB64, hwrite]
  exact hsurvives.plain

theorem checkAlg_canonical (canonical : Bytes) : checkAlg C canonical alg canonical = true :=
  if_neg (not_not.mpr rfl)

/-- The segments of a token that was put together. -/
theorem splits_build {header_b64 sig_b64 : Bytes} (hheader : dotByte ∉ header_b64)
    (hpayload : dotByte ∉ payload_b64) (hsig : dotByte ∉ sig_b64) :
    TokenParts.Splits ⟨header_b64, payload_b64, sig_b64⟩
      (signingInput header_b64 payload_b64 ++ dotByte :: sig_b64) where
  text := by rw [signingInput, List.append_assoc, List.cons_append]
  header := hheader
  payload := hpayload
  sig := hsig

/-- **A token is as good as its payload**, under the key that signed it. -/
theorem verifyTokenWithKey_build (hheader : HeaderSurvives C hs256) (hpayload : dotByte ∉ payload_b64)
    {key : C.hmac.Key}
    (htag : RoundTrips C (C.hmac.sign key (signingInput (jwtHeaderB64 C) payload_b64))) :
    verifyTokenWithKey C (buildTokenWithKey C (jwtHeaderB64 C) payload_b64 key) key now =
      verifyTimeClaims C payload_b64 now := by
  have hsplit := splitToken_of_splits (splits_build hheader.plain hpayload htag.plain)
  have hverify := (verifySignatureWithKey_iff hsplit).mpr htag.decode_encode
  rw [← jwtHeaderB64] at hverify hsplit
  rw [verifyTokenWithKey, buildTokenWithKey, hverify, hsplit]
  dsimp only [bind, Option.bind]
  rw [checkAlg_canonical]
  rfl

theorem verifyTokenEddsa_build (now : Int) (hheader : HeaderSurvives C edDsa)
    (hpayload : dotByte ∉ payload_b64)
    (hsign : C.edSign privateDer (signingInput (eddsaHeaderB64 C) payload_b64) = some sig)
    (hverify : C.edVerify publicDer (signingInput (eddsaHeaderB64 C) payload_b64) sig = true)
    (hsig : RoundTrips C sig) :
    ∃ token, buildEddsaToken C (eddsaHeaderB64 C) payload_b64 privateDer = some token ∧
      verifyTokenEddsa C token publicDer now = verifyTimeClaims C payload_b64 now := by
  refine ⟨signingInput (eddsaHeaderB64 C) payload_b64 ++ dotByte :: C.encode sig, ?_, ?_⟩
  · rw [buildEddsaToken, hsign]
    rfl
  · have hsplit := splitToken_of_splits (splits_build hheader.plain hpayload hsig.plain)
    rw [← eddsaHeaderB64] at hsplit
    rw [verifyTokenEddsa, hsplit]
    dsimp only [bind, Option.bind]
    rw [checkAlg_canonical, hsig.decode_encode]
    dsimp only
    rw [hverify]
    rfl

/-- What the times of a signing are: seconds that a double holds, and a lifetime. -/
structure Times (now0 ttl now : Int) : Prop where
  lifetime : 0 < ttl
  issued : -2 ^ 53 < now0
  expiry : now0 + ttl < 2 ^ 53
  clock : -2 ^ 53 < now ∧ now < 2 ^ 53

theorem Times.range (h : Times now0 ttl now) : -2 ^ 63 ≤ now0 + ttl ∧ now0 + ttl < 2 ^ 63 := by
  have hlifetime := h.lifetime
  have hissued := h.issued
  have hexpiry := h.expiry
  omega

/-- A payload while it is valid. -/
def validFrom (now0 exp now : Int) (payload : Bytes) : Option Bytes :=
  if now0 - 60 ≤ now ∧ now < exp then some payload else none

theorem verifyTimeClaims_fresh {fields : Bytes → Option Value} (htimes : Times now0 ttl now)
    (hadds : Adds fields now0 (now0 + ttl) signed) (hnbf : fields nbfKey = none)
    (hsurvives : Survives C signed payload) :
    verifyTimeClaims C (C.encode payload) now = validFrom now0 (now0 + ttl) now payload := by
  obtain ⟨httl, hnow0, hexp, hnow⟩ := htimes
  have hiff := timesHold_fresh hadds hnbf ⟨hnow0, by omega⟩ ⟨by omega, hexp⟩ hnow
  rw [validFrom]
  split
  · next hvalid =>
    exact (verifyTimeClaims_eq_some_iff hnow.1 hnow.2).mpr
      ⟨hsurvives.decode_encode, signed, hsurvives.parse, hiff.mpr hvalid⟩
  · next hvalid =>
    rw [Option.eq_none_iff_forall_ne_some]
    intro payload' h
    obtain ⟨hdecode, claims, hparse, hholds⟩ := (verifyTimeClaims_eq_some_iff hnow.1 hnow.2).mp h
    cases hsurvives.decode_encode.symm.trans hdecode
    cases hsurvives.parse.symm.trans hparse
    exact hvalid (hiff.mp hholds)

/-- The claims have none of the three times. -/
def Untimed (members : Members) : Prop :=
  ∀ key ∈ [expKey, nbfKey, iatKey], members.lookup key = none

theorem jwtSign_fresh (hheader : HeaderSurvives C hs256) {secret : Bytes} (htimes : Times now0 ttl now)
    (huntimed : Untimed members)
    (hwrite : C.serdeToVec (serdeSigned members now0 (now0 + ttl)) = some payload)
    (hsurvives : Survives C (serdeSigned members now0 (now0 + ttl)) payload)
    (htag : RoundTrips C
      (C.hmac.sign (C.hmac.new secret) (signingInput (jwtHeaderB64 C) (C.encode payload)))) :
    ∃ token, jwtSign C (.object members) secret (some ttl) now0 = .ok token ∧
      verifyToken C token secret now = validFrom now0 (now0 + ttl) now payload := by
  have hexp := huntimed expKey (by decide)
  have hiat := huntimed iatKey (by decide)
  refine ⟨buildToken C (jwtHeaderB64 C) (C.encode payload) secret, ?_, ?_⟩
  · rw [jwtSign, injectAndPayloadB64, injectClaims_fresh hiat hexp htimes.lifetime htimes.range]
    dsimp only [bind, Except.bind]
    rw [hwrite]
    rfl
  · rw [verifyToken, buildToken, verifyTokenWithKey_build hheader hsurvives.plain htag]
    exact verifyTimeClaims_fresh htimes (adds_serdeSigned hiat hexp) (huntimed nbfKey (by decide)) hsurvives

theorem injectAndPayloadB64Sonic_fresh (htimes : Times now0 ttl now) (huntimed : Untimed members)
    (hwrite : C.sonicToVec (sonicSigned members now0 (now0 + ttl)) = some payload) :
    injectAndPayloadB64Sonic C (.object members) (some ttl) now0 = .ok (C.encode payload) := by
  rw [injectAndPayloadB64Sonic, injectTtlClaims_fresh (huntimed iatKey (by decide))
    (huntimed expKey (by decide)) htimes.lifetime htimes.range]
  dsimp only [bind, Except.bind]
  rw [hwrite]
  rfl

theorem jwtSignBytes_fresh (hheader : HeaderSurvives C hs256) {claimsJson secret : Bytes}
    (hparse : C.parse claimsJson = some (.object members)) (htimes : Times now0 ttl now)
    (huntimed : Untimed members)
    (hwrite : C.sonicToVec (sonicSigned members now0 (now0 + ttl)) = some payload)
    (hsurvives : Survives C (sonicSigned members now0 (now0 + ttl)) payload)
    (htag : RoundTrips C
      (C.hmac.sign (C.hmac.new secret) (signingInput (jwtHeaderB64 C) (C.encode payload)))) :
    ∃ token, jwtSignBytes C claimsJson secret (some ttl) now0 = .ok token ∧
      verifyToken C token secret now = validFrom now0 (now0 + ttl) now payload := by
  have hnbf := lookup_reverse_eq_none (huntimed nbfKey (by decide))
  refine ⟨buildToken C (jwtHeaderB64 C) (C.encode payload) secret, ?_, ?_⟩
  · rw [jwtSignBytes, hparse, orFail_some]
    dsimp only [bind, Except.bind]
    rw [injectAndPayloadB64Sonic_fresh htimes huntimed hwrite]
    rfl
  · rw [verifyToken, buildToken, verifyTokenWithKey_build hheader hsurvives.plain htag]
    exact verifyTimeClaims_fresh htimes (adds_sonicSigned members now0 (now0 + ttl)) hnbf hsurvives

theorem signEddsa_fresh (hheader : HeaderSurvives C edDsa) {claimsJson : Bytes}
    (hparse : C.parse claimsJson = some (.object members)) (htimes : Times now0 ttl now)
    (huntimed : Untimed members)
    (hwrite : C.sonicToVec (sonicSigned members now0 (now0 + ttl)) = some payload)
    (hsurvives : Survives C (sonicSigned members now0 (now0 + ttl)) payload)
    (hsign : C.edSign privateDer (signingInput (eddsaHeaderB64 C) (C.encode payload)) = some sig)
    (hverify : C.edVerify publicDer (signingInput (eddsaHeaderB64 C) (C.encode payload)) sig = true)
    (hsig : RoundTrips C sig) :
    ∃ token, signEddsa C claimsJson privateDer (some ttl) now0 = .ok token ∧
      verifyTokenEddsa C token publicDer now = validFrom now0 (now0 + ttl) now payload := by
  have hnbf := lookup_reverse_eq_none (huntimed nbfKey (by decide))
  obtain ⟨token, hbuild, heq⟩ :=
    verifyTokenEddsa_build now hheader hsurvives.plain hsign hverify hsig
  refine ⟨token, ?_, ?_⟩
  · rw [signEddsa, hparse, orFail_some]
    dsimp only [bind, Except.bind]
    rw [injectAndPayloadB64Sonic_fresh htimes huntimed hwrite]
    dsimp only
    rw [hbuild]
    rfl
  · rw [heq]
    exact verifyTimeClaims_fresh htimes (adds_sonicSigned members now0 (now0 + ttl)) hnbf hsurvives

end

/-- **Verification is exact**: what is accepted, that the leeway is a subtraction of numbers, that no header
passes as both algorithms, and from when to when a token that was just signed is accepted, on each of the
paths that sign. -/
structure JwtExact : Prop where
  withKey : ∀ (token : Bytes) (key : C.hmac.Key) (now : Int) (payload : Bytes),
    -2 ^ 53 < now → now < 2 ^ 53 → (verifyTokenWithKey C token key now = some payload ↔
      ∃ parts, Accepts C hs256 (fun input sig => sig = C.hmac.sign key input) token now payload parts)
  eddsa : ∀ (token publicDer : Bytes) (now : Int) (payload : Bytes),
    -2 ^ 53 < now → now < 2 ^ 53 → (verifyTokenEddsa C token publicDer now = some payload ↔
      ∃ parts, Accepts C edDsa (fun input sig => C.edVerify publicDer input sig = true) token now payload
        parts)
  leeway : ∀ (n : Number) (iat : ℚ) (now : Int), 0 ≤ now → now < 2 ^ 53 → IsDouble n →
    n.toRat < 2 ^ 53 → n.asF64 = some iat →
      (roundF64 (iat - clockSkewLeewaySecs) ≤ now ↔ n.toRat - 60 ≤ now)
  disjoint : ∀ header_b64, ¬ (checkAlg C (jwtHeaderB64 C) hs256 header_b64 = true ∧
    checkAlg C (eddsaHeaderB64 C) edDsa header_b64 = true)
  signed : ∀ (members : Members) (secret : Bytes) (now0 ttl now : Int) (payload : Bytes),
    Times now0 ttl now → Untimed members →
    C.serdeToVec (serdeSigned members now0 (now0 + ttl)) = some payload →
    Survives C (serdeSigned members now0 (now0 + ttl)) payload →
    RoundTrips C (C.hmac.sign (C.hmac.new secret) (signingInput (jwtHeaderB64 C) (C.encode payload))) →
      Adds (List.lookup · members) now0 (now0 + ttl) (serdeSigned members now0 (now0 + ttl)) ∧
      ∃ token, jwtSign C (.object members) secret (some ttl) now0 = .ok token ∧
        verifyToken C token secret now = validFrom now0 (now0 + ttl) now payload
  signedBytes : ∀ (members : Members) (claimsJson secret : Bytes) (now0 ttl now : Int)
    (payload : Bytes), Times now0 ttl now → Untimed members →
    C.parse claimsJson = some (.object members) →
    C.sonicToVec (sonicSigned members now0 (now0 + ttl)) = some payload →
    Survives C (sonicSigned members now0 (now0 + ttl)) payload →
    RoundTrips C (C.hmac.sign (C.hmac.new secret) (signingInput (jwtHeaderB64 C) (C.encode payload))) →
      Adds (List.lookup · members.reverse) now0 (now0 + ttl) (sonicSigned members now0 (now0 + ttl)) ∧
      ∃ token, jwtSignBytes C claimsJson secret (some ttl) now0 = .ok token ∧
        verifyToken C token secret now = validFrom now0 (now0 + ttl) now payload
  signedEddsa : ∀ (members : Members) (claimsJson privateDer publicDer sig : Bytes)
    (now0 ttl now : Int) (payload : Bytes), Times now0 ttl now → Untimed members →
    C.parse claimsJson = some (.object members) →
    C.sonicToVec (sonicSigned members now0 (now0 + ttl)) = some payload →
    Survives C (sonicSigned members now0 (now0 + ttl)) payload →
    C.edSign privateDer (signingInput (eddsaHeaderB64 C) (C.encode payload)) = some sig →
    C.edVerify publicDer (signingInput (eddsaHeaderB64 C) (C.encode payload)) sig = true →
    RoundTrips C sig →
      Adds (List.lookup · members.reverse) now0 (now0 + ttl) (sonicSigned members now0 (now0 + ttl)) ∧
      ∃ token, signEddsa C claimsJson privateDer (some ttl) now0 = .ok token ∧
        verifyTokenEddsa C token publicDer now = validFrom now0 (now0 + ttl) now payload

theorem jwt_exact (hhs : HeaderSurvives C hs256) (hed : HeaderSurvives C edDsa) : JwtExact C where
  withKey _ _ _ _ hlow hhigh := verifyTokenWithKey_eq_some_iff hhs.namesAlg hlow hhigh
  eddsa _ _ _ _ hlow hhigh := verifyTokenEddsa_eq_some_iff hed.namesAlg hlow hhigh
  leeway _ _ _ hlow hhigh hdouble htime h := leeway_exact hlow hhigh hdouble htime h
  disjoint _ h := absurd h.2 (Bool.eq_false_iff.mp (not_both hhs.namesAlg hed.namesAlg h.1))
  signed _ _ _ _ _ _ htimes huntimed hwrite hsurvives htag :=
    ⟨adds_serdeSigned (huntimed iatKey (by decide)) (huntimed expKey (by decide)),
      jwtSign_fresh hhs htimes huntimed hwrite hsurvives htag⟩
  signedBytes members _ _ now0 ttl _ _ htimes huntimed hparse hwrite hsurvives htag :=
    ⟨adds_sonicSigned members now0 (now0 + ttl),
      jwtSignBytes_fresh hhs hparse htimes huntimed hwrite hsurvives htag⟩
  signedEddsa members _ _ _ _ now0 ttl _ _ htimes huntimed hparse hwrite hsurvives hsign hverify hsig :=
    ⟨adds_sonicSigned members now0 (now0 + ttl),
      signEddsa_fresh hed hparse htimes huntimed hwrite hsurvives hsign hverify hsig⟩

/-! ## One token -/

def sampleTag : Bytes :=
  [174, 26, 62, 167, 205, 33, 58, 180, 146, 119, 69, 229, 88, 189, 208, 83, 8, 106, 127, 130, 180, 216,
    14, 175, 63, 133, 131, 225, 202, 22, 98, 248]

def hsText : Bytes := utf8 "\x7b\"alg\":\"HS256\",\"typ\":\"JWT\"\x7d"

def edText : Bytes := utf8 "\x7b\"alg\":\"EdDSA\",\"typ\":\"JWT\"\x7d"

def samplePayload : Bytes := utf8 "\x7b\"sub\":\"123\",\"iat\":1700000000,\"exp\":1700003600\x7d"

def sampleMembers : Members := [(utf8 "sub", .string (utf8 "123"))]

/-- The texts of the sample and their segments. -/
def sampleSegments : List (Bytes × Bytes) :=
  [(hsText, utf8 "eyJhbGciOiJIUzI1NiIsInR5cCI6IkpXVCJ9"),
    (edText, utf8 "eyJhbGciOiJFZERTQSIsInR5cCI6IkpXVCJ9"),
    (samplePayload, utf8 "eyJzdWIiOiIxMjMiLCJpYXQiOjE3MDAwMDAwMDAsImV4cCI6MTcwMDAwMzYwMH0"),
    (sampleTag, utf8 "rho-p80hOrSSd0XlWL3QUwhqf4K02A6vP4WD4coWYvg")]

/-- The crates on one token: its key is `test-secret-key`. -/
def sampleCrates : JwtCrates where
  hmac := { Key := Bytes, new := id, sign := fun _ _ => sampleTag }
  edSign _ _ := none
  edVerify _ _ _ := false
  encode text := (sampleSegments.lookup text).getD []
  decode segment := (sampleSegments.find? (·.2 = segment)).map (·.1)
  parse text :=
    if text = hsText then some (headerValue hs256)
    else if text = edText then some (headerValue edDsa)
    else if text = samplePayload then some (serdeSigned sampleMembers 1700000000 1700003600)
    else none
  sonicToVec _ := none
  serdeToVec
    | .object [(_, .string alg), _] => some (if alg = hs256 then hsText else edText)
    | _ => some samplePayload

/-- The token is accepted in its last second. -/
theorem jwt_exact_sample : JwtExact sampleCrates ∧
    ∃ token, jwtSign sampleCrates (.object sampleMembers) (utf8 "test-secret-key") (some 3600) 1700000000 =
        .ok token ∧
      verifyToken sampleCrates token (utf8 "test-secret-key") 1700003599 = some samplePayload := by
  have hexact : JwtExact sampleCrates := jwt_exact sampleCrates
    ⟨hsText, by decide, ⟨by decide, by decide⟩, rfl⟩ ⟨edText, by decide, ⟨by decide, by decide⟩, rfl⟩
  have huntimed : Untimed sampleMembers := fun key hkey => by
    fin_cases hkey
    · rfl
    · rfl
    · rfl
  refine ⟨hexact, ?_⟩
  obtain ⟨-, token, hsign, hverify⟩ := hexact.signed sampleMembers (utf8 "test-secret-key") 1700000000
    3600 1700003599 samplePayload ⟨by decide, by decide, by decide, by decide, by decide⟩ huntimed rfl
    ⟨⟨by decide, by decide⟩, rfl⟩ ⟨by decide, by decide⟩
  exact ⟨token, hsign, hverify⟩

end Castrum.Jwt
