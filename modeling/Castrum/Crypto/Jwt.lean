import Castrum.Crypto.CookieSign
import Castrum.Json.Value
import Castrum.Lib.Binary64
import Castrum.Lib.Checked

/-!
# Castrum — verification of tokens (`rust/crypto/jwt/token.rs`)

A token is accepted by its signature, the algorithm its header names, and three times of its claims. The
header every signer writes is recognised by its bytes. The crates behind it are `JwtCrates`.

* `splitToken_eq_some_iff` — the three segments;
* `checkAlg_iff` — the byte comparison in front of the parser changes nothing;
* `verifyTimeClaims_eq_some_iff` — the three comparisons of doubles are comparisons of numbers;
* `leeway_exact` — nor does the leeway round;
* `verifyTokenWithKey_eq_some_iff` / `verifyTokenEddsa_eq_some_iff` — what is accepted.
-/

namespace Castrum

/-- What the tokens rest on: `aws_lc_rs`, the base64url engine, `sonic_rs` and `serde_json`. -/
structure JwtCrates where
  hmac : Hmac
  edSign : Bytes → Bytes → Option Bytes
  edVerify : Bytes → Bytes → Bytes → Bool
  encode : Bytes → Bytes
  decode : Bytes → Option Bytes
  parse : Bytes → Option Value
  sonicToVec : Value → Option Bytes
  serdeToVec : Value → Option Bytes

namespace Jwt

variable (C : JwtCrates)

def clockSkewLeewaySecs : Int := 60

def algKey : Bytes := utf8 "alg"

def expKey : Bytes := utf8 "exp"

def nbfKey : Bytes := utf8 "nbf"

def iatKey : Bytes := utf8 "iat"

def hs256 : Bytes := utf8 "HS256"

def edDsa : Bytes := utf8 "EdDSA"

/-! ## Headers -/

/-- `json!` of a header. -/
def headerValue (alg : Bytes) : Value :=
  .object [(algKey, .string alg), (utf8 "typ", .string (utf8 "JWT"))]

/-- The canonical header of an algorithm; that the constant serializes is expected. -/
def headerB64 (alg : Bytes) : Bytes := C.encode ((C.serdeToVec (headerValue alg)).getD [])

def jwtHeaderB64 : Bytes := headerB64 C hs256

def eddsaHeaderB64 : Bytes := headerB64 C edDsa

/-! ## Values -/

/-- `value.get(key)`: of anything but an object there is none. -/
def member (key : Bytes) : Value → Option Value
  | .object members => members.lookup key
  | _ => none

def asStr : Value → Option Bytes
  | .string s => some s
  | _ => none

def asF64 : Value → Option ℚ
  | .number n => n.asF64
  | _ => none

/-- `x as f64`. -/
def i64AsF64 (x : Int) : ℚ := if 0 ≤ x then roundNat x.toNat else -roundNat (-x).toNat

/-! ## Segments -/

structure TokenParts where
  header_b64 : Bytes
  payload_b64 : Bytes
  sig_b64 : Bytes
deriving DecidableEq

def memchr (b : UInt8) (s : Bytes) : Option Nat := s.idxOf? b

/-- Split a compact token into its segments (`split_token`). -/
def splitToken (token : Bytes) : Option TokenParts := do
  let first ← memchr dotByte token
  let rest := token.drop (first + 1)
  let second ← memchr dotByte rest
  let sig_b64 := rest.drop (second + 1)
  if (memchr dotByte sig_b64).isSome then none
  else some { header_b64 := token.take first, payload_b64 := rest.take second, sig_b64 }

def signingInput (header_b64 payload_b64 : Bytes) : Bytes := header_b64 ++ dotByte :: payload_b64

/-! ## Verification -/

/-- `verify_signature_with_key`. -/
def verifySignatureWithKey (token : Bytes) (key : C.hmac.Key) : Bool :=
  match splitToken token with
  | none => false
  | some parts =>
    match C.decode parts.sig_b64 with
    | some provided => C.hmac.verify key (signingInput parts.header_b64 parts.payload_b64) provided
    | none => false

/-- The allowlist, with its fast path. -/
def checkAlg (canonical alg header_b64 : Bytes) : Bool :=
  if header_b64 ≠ canonical then
    match (C.decode header_b64).bind C.parse with
    | none => false
    | some header => (member algKey header).bind asStr = some alg
  else true

inductive TimeClaim where
  | absent
  | value (n : ℚ)
  | invalid

/-- A number of a DOM is finite. -/
def timeClaim (value : Value) (key : Bytes) : TimeClaim :=
  match member key value with
  | none => .absent
  | some v =>
    match asF64 v with
    | some n => .value n
    | none => .invalid

/-- One of the three checks, by what it rejects. -/
def TimeClaim.passes (rejected : ℚ → Bool) : TimeClaim → Bool
  | .absent => true
  | .value n => !rejected n
  | .invalid => false

def verifyTimeClaims (payload_b64 : Bytes) (nowSeconds : Int) : Option Bytes := do
  let payload ← C.decode payload_b64
  let value ← C.parse payload
  let now := i64AsF64 nowSeconds
  if !(timeClaim value expKey).passes fun exp => now ≥ exp then none
  else if !(timeClaim value nbfKey).passes fun nbf => now < nbf then none
  else if !(timeClaim value iatKey).passes fun iat => now < roundF64 (iat - clockSkewLeewaySecs) then none
  else some payload

def verifyTokenWithKey (token : Bytes) (key : C.hmac.Key) (nowSeconds : Int) : Option Bytes := do
  if !verifySignatureWithKey C token key then none
  else
    let parts ← splitToken token
    if !checkAlg C (jwtHeaderB64 C) hs256 parts.header_b64 then none
    else verifyTimeClaims C parts.payload_b64 nowSeconds

def verifyToken (token secret : Bytes) (nowSeconds : Int) : Option Bytes :=
  verifyTokenWithKey C token (C.hmac.new secret) nowSeconds

def verifyTokenEddsa (token publicDer : Bytes) (nowSeconds : Int) : Option Bytes := do
  let parts ← splitToken token
  if !checkAlg C (eddsaHeaderB64 C) edDsa parts.header_b64 then none
  else
    let sig ← C.decode parts.sig_b64
    if !C.edVerify publicDer (signingInput parts.header_b64 parts.payload_b64) sig then none
    else verifyTimeClaims C parts.payload_b64 nowSeconds

/-! ## The segments -/

section

variable {b : UInt8} {s : Bytes} {i : Nat} {parts : TokenParts} {token : Bytes}

theorem memchr_append (s t : Bytes) (h : b ∉ s) : memchr b (s ++ b :: t) = some s.length := by
  refine List.idxOf?_eq_some_iff.mpr ⟨by simp, by simp, fun j hj => ?_⟩
  rw [List.getElem_append_left hj]
  exact fun heq => h (heq ▸ List.getElem_mem hj)

theorem exists_of_memchr (h : memchr b s = some i) :
    b ∉ s.take i ∧ s = s.take i ++ b :: s.drop (i + 1) := by
  obtain ⟨hi, hb, hfirst⟩ := List.idxOf?_eq_some_iff.mp h
  constructor
  · intro hmem
    obtain ⟨j, hj, heq⟩ := List.getElem_of_mem hmem
    rw [List.length_take] at hj
    rw [List.getElem_take] at heq
    exact hfirst j (by omega) heq
  · rw [← hb, ← List.drop_eq_getElem_cons hi, List.take_append_drop]

theorem memchr_isSome : (memchr b s).isSome = true ↔ b ∈ s := by
  rw [Option.isSome_iff_ne_none, Ne, memchr, List.idxOf?_eq_none_iff, not_not]

/-- Three segments, with a dot behind the first and the second and no other. -/
structure TokenParts.Splits (parts : TokenParts) (token : Bytes) : Prop where
  text : token = parts.header_b64 ++ dotByte :: (parts.payload_b64 ++ dotByte :: parts.sig_b64)
  header : dotByte ∉ parts.header_b64
  payload : dotByte ∉ parts.payload_b64
  sig : dotByte ∉ parts.sig_b64

theorem splitToken_of_splits (h : parts.Splits token) : splitToken token = some parts := by
  have hdrop : ∀ s t : Bytes, (s ++ dotByte :: t).drop (s.length + 1) = t := fun s t => by
    rw [← List.drop_drop, List.drop_left, List.drop_one, List.tail_cons]
  have hsig : (memchr dotByte parts.sig_b64).isSome = false :=
    Bool.eq_false_iff.mpr fun hsome => h.sig (memchr_isSome.mp hsome)
  rw [h.text, splitToken, memchr_append _ _ h.header]
  dsimp only [bind, Option.bind]
  rw [hdrop, memchr_append _ _ h.payload]
  dsimp only
  rw [hdrop, hsig, if_neg Bool.false_ne_true, List.take_left, List.take_left]

/-- **A token splits in one way**, and only where it has two dots. -/
theorem splitToken_eq_some_iff : splitToken token = some parts ↔ parts.Splits token := by
  constructor
  · intro h
    obtain ⟨first, hfirst, h⟩ := Option.bind_eq_some_iff.mp h
    obtain ⟨second, hsecond, h⟩ := Option.bind_eq_some_iff.mp h
    obtain ⟨hsig, h⟩ := Option.ite_none_left_eq_some.mp h
    cases h
    obtain ⟨hheader, htoken⟩ := exists_of_memchr hfirst
    obtain ⟨hpayload, hrest⟩ := exists_of_memchr hsecond
    exact ⟨htoken.trans (congrArg _ (congrArg _ hrest)), hheader, hpayload,
      fun hmem => hsig (memchr_isSome.mpr hmem)⟩
  · exact splitToken_of_splits

end

/-! ## Doubles -/

section

variable {n : Number} {x : ℚ} {now : Int}

/-- A number that is held as an `f64` is one. -/
def IsDouble : Number → Prop
  | .float q => roundF64 q = q
  | _ => True

theorem two_pow_53_le_roundNat {m : Nat} (h : 2 ^ 53 ≤ m) : 2 ^ 53 ≤ roundNat m := by
  have hlog : 53 ≤ m.log2 := (Nat.le_log2 (by omega)).mpr h
  have hself : 2 ^ m.log2 ≤ m := Nat.log2_self_le (by omega)
  have hsplit : (2 : Nat) ^ m.log2 = 2 ^ 52 * 2 ^ (m.log2 - 52) := by
    rw [← Nat.pow_add]
    congr 1
    omega
  have hq : 2 ^ 52 ≤ m / 2 ^ (m.log2 - 52) :=
    (Nat.le_div_iff_mul_le (by positivity)).mpr (hsplit ▸ hself)
  have hbit : 2 ≤ 2 ^ (m.log2 - 52) := Nat.le_self_pow (by omega) 2
  have hlow : 2 ^ 53 ≤ m / 2 ^ (m.log2 - 52) * 2 ^ (m.log2 - 52) := Nat.mul_le_mul hq hbit
  rw [roundNat, if_neg (by omega)]
  split
  · rw [Nat.add_mul]
    omega
  · exact hlow

theorem i64AsF64_eq (hlow : -2 ^ 53 < now) (hhigh : now < 2 ^ 53) : i64AsF64 now = now := by
  rw [i64AsF64]
  split
  · next hnonneg =>
    rw [roundNat_of_lt (by omega)]
    exact_mod_cast Int.toNat_of_nonneg hnonneg
  · next hneg =>
    have hcast : ((-now).toNat : Int) = -now := Int.toNat_of_nonneg (by omega)
    rw [roundNat_of_lt (by omega), ← Int.cast_natCast, hcast, Int.cast_neg, neg_neg]

/-- **Comparing with the double of a number is comparing with the number**, since the integers that are
rounded are out of the range of times. -/
theorem lt_asF64_iff (hlow : -2 ^ 53 < now) (hhigh : now < 2 ^ 53) (h : n.asF64 = some x) :
    (now : ℚ) < x ↔ (now : ℚ) < n.toRat := by
  have hlow' : (-2 ^ 53 : ℚ) < now := by exact_mod_cast hlow
  have hhigh' : (now : ℚ) < 2 ^ 53 := by exact_mod_cast hhigh
  cases n with
  | posInt u =>
    cases h
    by_cases hu : u.toNat < 2 ^ 53
    · rw [roundNat_of_lt hu, Number.toRat]
    · have hround : (2 ^ 53 : ℚ) ≤ roundNat u.toNat := by
        exact_mod_cast two_pow_53_le_roundNat (not_lt.mp hu)
      have hbig : (2 ^ 53 : ℚ) ≤ u.toNat := by exact_mod_cast not_lt.mp hu
      exact iff_of_true (hhigh'.trans_le hround) (hhigh'.trans_le hbig)
  | negInt m =>
    cases h
    by_cases hm : m.val + 1 < 2 ^ 53
    · rw [roundNat_of_lt hm, Number.toRat]
      push_cast
      exact Iff.rfl
    · have hround : (2 ^ 53 : ℚ) ≤ roundNat (m.val + 1) := by
        exact_mod_cast two_pow_53_le_roundNat (not_lt.mp hm)
      have hbig : (2 ^ 53 : ℚ) ≤ m.val + 1 := by exact_mod_cast not_lt.mp hm
      rw [Number.toRat]
      push_cast
      exact iff_of_false (by linarith) (by linarith)
  | float q =>
    cases h
    exact Iff.rfl

theorem roundF64_int {k : ℤ} (hlow : -2 ^ 53 < k) (hhigh : k < 2 ^ 53) : roundF64 k = k :=
  le_antisymm (roundF64_le_int hlow.le hhigh le_rfl) (le_roundF64_int hlow hhigh.le le_rfl)

/-- **The leeway does not round**, on the times since the epoch. -/
theorem leeway_exact (hlow : 0 ≤ now) (hhigh : now < 2 ^ 53) (hdouble : IsDouble n)
    (htime : n.toRat < 2 ^ 53) (h : n.asF64 = some x) :
    roundF64 (x - clockSkewLeewaySecs) ≤ now ↔ n.toRat - 60 ≤ now := by
  have hleeway : ((clockSkewLeewaySecs : Int) : ℚ) = ((60 : ℕ) : ℚ) := by
    rw [clockSkewLeewaySecs]
    norm_num
  have hside : roundF64 x = x → x = n.toRat →
      (roundF64 (x - clockSkewLeewaySecs) ≤ now ↔ n.toRat - 60 ≤ now) := by
    rintro hx rfl
    have hiff := lt_roundF64_sub_iff (k := 60) hx hlow hhigh
    rw [hleeway, ← not_lt, ← not_lt, hiff]
    push_cast
    exact Iff.rfl
  cases n with
  | posInt u =>
    cases h
    have htime : (u.toNat : ℚ) < 2 ^ 53 := htime
    have hu : u.toNat < 2 ^ 53 := by exact_mod_cast htime
    rw [roundNat_of_lt hu] at hside ⊢
    exact hside (by exact_mod_cast roundF64_int (k := u.toNat) (by omega) (by omega)) rfl
  | negInt m =>
    cases h
    -- what was issued before the epoch is not in the future
    have hnow : (0 : ℚ) ≤ now := by exact_mod_cast hlow
    have hpos : (0 : ℚ) ≤ roundNat (m.val + 1) := by positivity
    have hm : (0 : ℚ) ≤ m.val := by positivity
    refine iff_of_true (roundF64_le_int (by omega) hhigh ?_) ?_
    · rw [hleeway]
      push_cast
      linarith
    · rw [Number.toRat]
      push_cast
      linarith
  | float q =>
    cases h
    exact hside hdouble rfl

end

/-! ## What is accepted -/

section

variable {C : JwtCrates} {alg canonical header_b64 payload_b64 payload token publicDer : Bytes}
variable {claims : Value} {now : Int}

/-- The header is an object with this `alg`. -/
def NamesAlg (C : JwtCrates) (alg header_b64 : Bytes) : Prop :=
  ∃ text members, C.decode header_b64 = some text ∧ C.parse text = some (.object members) ∧
    members.lookup algKey = some (.string alg)

/-- Each of the times is absent or a number on the right side of now. -/
structure TimesHold (now : Int) (claims : Value) : Prop where
  exp : ∀ c, member expKey claims = some c → ∃ n, c = .number n ∧ now < n.toRat
  nbf : ∀ c, member nbfKey claims = some c → ∃ n, c = .number n ∧ n.toRat ≤ now
  iat : ∀ c, member iatKey claims = some c → ∃ n, c = .number n ∧
    ∃ iat, n.asF64 = some iat ∧ roundF64 (iat - clockSkewLeewaySecs) ≤ now

/-- The payload is JSON whose times hold. -/
def Claims (C : JwtCrates) (now : Int) (payload_b64 payload : Bytes) : Prop :=
  C.decode payload_b64 = some payload ∧ ∃ claims, C.parse payload = some claims ∧ TimesHold now claims

theorem member_asStr_iff {v : Value} :
    (member algKey v).bind asStr = some alg ↔
      ∃ members, v = .object members ∧ members.lookup algKey = some (.string alg) := by
  constructor
  · intro h
    obtain ⟨c, hc, hstr⟩ := Option.bind_eq_some_iff.mp h
    cases v with
    | object members =>
      cases c with
      | string s =>
        cases hstr
        exact ⟨members, rfl, hc⟩
      | _ => exact nomatch hstr
    | _ => exact nomatch hc
  · rintro ⟨members, rfl, h⟩
    rw [member, h]
    rfl

/-- **The fast path accepts nothing else**, as the canonical header names the algorithm. -/
theorem checkAlg_iff (hcanonical : NamesAlg C alg canonical) :
    checkAlg C canonical alg header_b64 = true ↔ NamesAlg C alg header_b64 := by
  rw [checkAlg]
  split
  · cases hparse : (C.decode header_b64).bind C.parse with
    | none =>
      refine iff_of_false Bool.false_ne_true ?_
      rintro ⟨text, members, hdecode, hvalue, -⟩
      rw [hdecode, Option.bind_some, hvalue] at hparse
      exact nomatch hparse
    | some header =>
      obtain ⟨text, hdecode, hvalue⟩ := Option.bind_eq_some_iff.mp hparse
      dsimp only
      rw [decide_eq_true_iff, member_asStr_iff]
      constructor
      · rintro ⟨members, rfl, hlookup⟩
        exact ⟨text, members, hdecode, hvalue, hlookup⟩
      · rintro ⟨text', members, hdecode', hvalue', hlookup⟩
        cases hdecode.symm.trans hdecode'
        cases hvalue.symm.trans hvalue'
        exact ⟨members, rfl, hlookup⟩
  · next heq =>
    rw [not_not] at heq
    exact iff_of_true rfl (heq ▸ hcanonical)

/-- A header names one algorithm. -/
theorem NamesAlg.unique {alg' : Bytes} (h : NamesAlg C alg header_b64)
    (h' : NamesAlg C alg' header_b64) : alg = alg' := by
  obtain ⟨text, members, hdecode, hparse, hlookup⟩ := h
  obtain ⟨text', members', hdecode', hparse', hlookup'⟩ := h'
  cases hdecode.symm.trans hdecode'
  cases hparse.symm.trans hparse'
  cases hlookup.symm.trans hlookup'
  rfl

theorem exists_asF64 (n : Number) : ∃ x, n.asF64 = some x := by
  cases n with
  | _ => exact ⟨_, rfl⟩

/-- A check passes where there is nothing to check, or a number that is not rejected. -/
theorem passes_timeClaim_iff {key : Bytes} {rejected : ℚ → Bool} {P : Number → Prop}
    (hP : ∀ n x, n.asF64 = some x → (rejected x = false ↔ P n)) :
    (timeClaim claims key).passes rejected = true ↔
      ∀ c, member key claims = some c → ∃ n, c = .number n ∧ P n := by
  rw [timeClaim]
  cases hmember : member key claims with
  | none => exact iff_of_true rfl fun c hc => nomatch hc
  | some v =>
    cases v with
    | number n =>
      obtain ⟨x, hx⟩ := exists_asF64 n
      dsimp only [asF64]
      rw [hx]
      dsimp only
      rw [TimeClaim.passes, Bool.not_eq_true', hP n x hx]
      constructor
      · rintro h c hc
        cases hc
        exact ⟨n, rfl, h⟩
      · intro h
        obtain ⟨n', hn, hP'⟩ := h _ rfl
        cases hn
        exact hP'
    | _ =>
      refine iff_of_false Bool.false_ne_true fun h => ?_
      obtain ⟨n, hn, -⟩ := h _ rfl
      exact nomatch hn

/-- **The three checks**, which are comparisons of doubles, compare the numbers themselves. -/
theorem timesHold_iff (hlow : -2 ^ 53 < now) (hhigh : now < 2 ^ 53) : TimesHold now claims ↔
    (timeClaim claims expKey).passes (fun exp => i64AsF64 now ≥ exp) = true ∧
    (timeClaim claims nbfKey).passes (fun nbf => i64AsF64 now < nbf) = true ∧
    (timeClaim claims iatKey).passes
      (fun iat => i64AsF64 now < roundF64 (iat - clockSkewLeewaySecs)) = true := by
  have hnow := i64AsF64_eq hlow hhigh
  have hexp : (timeClaim claims expKey).passes (fun exp => i64AsF64 now ≥ exp) = true ↔
      ∀ c, member expKey claims = some c → ∃ n, c = .number n ∧ now < n.toRat :=
    passes_timeClaim_iff fun n x hx => by
      rw [hnow, decide_eq_false_iff_not, ge_iff_le, not_le, lt_asF64_iff hlow hhigh hx]
  have hnbf : (timeClaim claims nbfKey).passes (fun nbf => i64AsF64 now < nbf) = true ↔
      ∀ c, member nbfKey claims = some c → ∃ n, c = .number n ∧ n.toRat ≤ now :=
    passes_timeClaim_iff fun n x hx => by
      rw [hnow, decide_eq_false_iff_not, lt_asF64_iff hlow hhigh hx, not_lt]
  have hiat : (timeClaim claims iatKey).passes
      (fun iat => i64AsF64 now < roundF64 (iat - clockSkewLeewaySecs)) = true ↔
      ∀ c, member iatKey claims = some c → ∃ n, c = .number n ∧
        ∃ iat, n.asF64 = some iat ∧ roundF64 (iat - clockSkewLeewaySecs) ≤ now :=
    passes_timeClaim_iff fun n x hx => by
      rw [hnow, decide_eq_false_iff_not, not_lt]
      constructor
      · exact fun h => ⟨x, hx, h⟩
      · rintro ⟨x', hx', h⟩
        cases hx.symm.trans hx'
        exact h
  exact ⟨fun h => ⟨hexp.mpr h.exp, hnbf.mpr h.nbf, hiat.mpr h.iat⟩,
    fun h => ⟨hexp.mp h.1, hnbf.mp h.2.1, hiat.mp h.2.2⟩⟩

/-- **The payload that comes back** is that of the segment. -/
theorem verifyTimeClaims_eq_some_iff (hlow : -2 ^ 53 < now) (hhigh : now < 2 ^ 53) :
    verifyTimeClaims C payload_b64 now = some payload ↔ Claims C now payload_b64 payload := by
  constructor
  · intro h
    obtain ⟨payload', hdecode, h⟩ := Option.bind_eq_some_iff.mp h
    obtain ⟨claims, hparse, h⟩ := Option.bind_eq_some_iff.mp h
    obtain ⟨hexp, h⟩ := Option.ite_none_left_eq_some.mp h
    obtain ⟨hnbf, h⟩ := Option.ite_none_left_eq_some.mp h
    obtain ⟨hiat, h⟩ := Option.ite_none_left_eq_some.mp h
    rw [Bool.not_eq_true', Bool.not_eq_false] at hexp hnbf hiat
    cases h
    exact ⟨hdecode, claims, hparse, (timesHold_iff hlow hhigh).mpr ⟨hexp, hnbf, hiat⟩⟩
  · rintro ⟨hdecode, claims, hparse, htimes⟩
    obtain ⟨hexp, hnbf, hiat⟩ := (timesHold_iff hlow hhigh).mp htimes
    rw [verifyTimeClaims, hdecode]
    dsimp only [bind, Option.bind]
    rw [hparse]
    dsimp only
    rw [hexp, hnbf, hiat]
    rfl

/-- What every token has to have, for one algorithm. -/
structure Accepts (C : JwtCrates) (alg : Bytes) (signed : Bytes → Bytes → Prop) (token : Bytes)
    (now : Int) (payload : Bytes) (parts : TokenParts) : Prop where
  splits : parts.Splits token
  sig : ∃ sig, C.decode parts.sig_b64 = some sig ∧
    signed (signingInput parts.header_b64 parts.payload_b64) sig
  alg : NamesAlg C alg parts.header_b64
  claims : Claims C now parts.payload_b64 payload

theorem verifySignatureWithKey_iff {key : C.hmac.Key} {parts : TokenParts}
    (h : splitToken token = some parts) : verifySignatureWithKey C token key = true ↔
      C.decode parts.sig_b64 =
        some (C.hmac.sign key (signingInput parts.header_b64 parts.payload_b64)) := by
  rw [verifySignatureWithKey, h]
  dsimp only
  cases C.decode parts.sig_b64 with
  | none => exact iff_of_false Bool.false_ne_true (fun h => nomatch h)
  | some provided =>
    dsimp only
    rw [Hmac.verify, beq_iff_eq, Option.some.injEq]

/-- **What is accepted under a key**: three segments, the tag of the first two, the algorithm, and times
that hold. -/
theorem verifyTokenWithKey_eq_some_iff (hheader : NamesAlg C hs256 (jwtHeaderB64 C))
    (hlow : -2 ^ 53 < now) (hhigh : now < 2 ^ 53) {key : C.hmac.Key} :
    verifyTokenWithKey C token key now = some payload ↔
      ∃ parts, Accepts C hs256 (fun input sig => sig = C.hmac.sign key input) token now payload parts := by
  constructor
  · intro h
    obtain ⟨hsig, h⟩ := Option.ite_none_left_eq_some.mp h
    obtain ⟨parts, hsplit, h⟩ := Option.bind_eq_some_iff.mp h
    obtain ⟨halg, h⟩ := Option.ite_none_left_eq_some.mp h
    rw [Bool.not_eq_true', Bool.not_eq_false] at hsig halg
    exact ⟨parts, splitToken_eq_some_iff.mp hsplit,
      ⟨_, (verifySignatureWithKey_iff hsplit).mp hsig, rfl⟩, (checkAlg_iff hheader).mp halg,
      (verifyTimeClaims_eq_some_iff hlow hhigh).mp h⟩
  · rintro ⟨parts, hsplits, ⟨sig, hsig, rfl⟩, halg, hclaims⟩
    have hsplit := splitToken_of_splits hsplits
    rw [verifyTokenWithKey, (verifySignatureWithKey_iff hsplit).mpr hsig, hsplit]
    dsimp only [bind, Option.bind]
    rw [(checkAlg_iff hheader).mpr halg]
    exact (verifyTimeClaims_eq_some_iff hlow hhigh).mpr hclaims

theorem verifyTokenEddsa_eq_some_iff (hheader : NamesAlg C edDsa (eddsaHeaderB64 C))
    (hlow : -2 ^ 53 < now) (hhigh : now < 2 ^ 53) :
    verifyTokenEddsa C token publicDer now = some payload ↔
      ∃ parts, Accepts C edDsa (fun input sig => C.edVerify publicDer input sig = true) token now payload
        parts := by
  constructor
  · intro h
    obtain ⟨parts, hsplit, h⟩ := Option.bind_eq_some_iff.mp h
    obtain ⟨halg, h⟩ := Option.ite_none_left_eq_some.mp h
    obtain ⟨sig, hsig, h⟩ := Option.bind_eq_some_iff.mp h
    obtain ⟨hverify, h⟩ := Option.ite_none_left_eq_some.mp h
    rw [Bool.not_eq_true', Bool.not_eq_false] at halg hverify
    exact ⟨parts, splitToken_eq_some_iff.mp hsplit, ⟨sig, hsig, hverify⟩,
      (checkAlg_iff hheader).mp halg, (verifyTimeClaims_eq_some_iff hlow hhigh).mp h⟩
  · rintro ⟨parts, hsplits, ⟨sig, hsig, hverify⟩, halg, hclaims⟩
    rw [verifyTokenEddsa, splitToken_of_splits hsplits]
    dsimp only [bind, Option.bind]
    rw [(checkAlg_iff hheader).mpr halg, hsig]
    dsimp only
    rw [hverify]
    exact (verifyTimeClaims_eq_some_iff hlow hhigh).mpr hclaims

/-- **No token is accepted as both.** -/
theorem not_both (hhs : NamesAlg C hs256 (jwtHeaderB64 C)) (hed : NamesAlg C edDsa (eddsaHeaderB64 C))
    {header_b64 : Bytes} (h : checkAlg C (jwtHeaderB64 C) hs256 header_b64 = true) :
    checkAlg C (eddsaHeaderB64 C) edDsa header_b64 = false := by
  by_contra hcon
  rw [Bool.not_eq_false] at hcon
  have heq := ((checkAlg_iff hhs).mp h).unique ((checkAlg_iff hed).mp hcon)
  exact absurd heq (by decide)

end

end Jwt

end Castrum
