import Castrum.Crypto.Aead
import Castrum.Ffi.Compress

/-!
# Castrum — payloads over `bun:ffi` (`rust/ffi/*.rs`, `src/native/ffi/build/*.ts`)

Compression, encryption and cookie signing each come in pairs, and over `bun:ffi` the second half of each
answers with one integer. Its `0` stands for a failure, and for a payload of no bytes as well. The codecs,
ciphers and MACs are parameters that undo each other on the payload at hand.

* `ffi_returns_iff` — over `bun:ffi` exactly the payloads that are not empty do.
-/

namespace Castrum

/-! ## Encryption -/

/-- `open_in_place` of the ciphers. -/
structure AeadOpening (C : AeadCiphers) where
  openInPlace : C.Key → Bytes → Bytes → Option Bytes

section

variable {C : AeadCiphers} (O : AeadOpening C)

def decryptWithKey (opening : C.Key) (nonce ciphertext : Bytes) : Option Bytes :=
  if nonce.length ≠ nonceLen then none else O.openInPlace opening nonce ciphertext

def decrypt (alg : AeadAlgorithm) (key nonce ciphertext : Bytes) : Option Bytes :=
  (C.unboundKey alg key).bind fun opening => decryptWithKey O opening nonce ciphertext

/-- `aead_alg`. -/
def aeadAlg : Nat → Option AeadAlgorithm
  | 0 => some .aes256Gcm
  | 1 => some .chacha20Poly1305
  | _ => none

/-- `castrum_aead_encrypt` and `castrum_aead_decrypt` differ in the function they call; a result that does
not fit is a failure. -/
def castrumAead (core : AeadAlgorithm → Bytes → Bytes → Bytes → Option Bytes)
    (key nonce text : Option Bytes) (alg : Nat) (out : Option Bytes) : Nat × Bytes :=
  match aeadAlg alg, key, nonce, text, out with
  | some alg, some key, some nonce, some text, some out =>
    match core alg key nonce text with
    | none => (0, out)
    | some result => if result.length > out.length then (0, out) else (result.length, copyInto result out)
  | _, _, _, _, out => (0, out.getD [])

def castrumAeadEncrypt (C : AeadCiphers) :
    Option Bytes → Option Bytes → Option Bytes → Nat → Option Bytes → Nat × Bytes :=
  castrumAead (encrypt C)

def castrumAeadDecrypt :
    Option Bytes → Option Bytes → Option Bytes → Nat → Option Bytes → Nat × Bytes :=
  castrumAead (decrypt O)

variable (A : Alloc) (emptyIsNull : Bool)

def ffiAeadEncrypt (C : AeadCiphers) (key nonce plaintext : Bytes) (algorithm : Nat) :
    Except String Bytes :=
  let r := castrumAeadEncrypt C (ptrOf emptyIsNull key) (ptrOf emptyIsNull nonce)
    (ptrOf emptyIsNull plaintext) algorithm (ptrOf emptyIsNull (A.buf 0 (plaintext.length + 16)))
  if r.1 = 0 then .error "aead encrypt: output buffer too small or bad parameters"
  else .ok (r.2.take r.1)

/-- `none` is the `null` of a text that does not authenticate. -/
def ffiAeadDecrypt (key nonce ciphertext : Bytes) (algorithm : Nat) : Option Bytes :=
  let r := castrumAeadDecrypt O (ptrOf emptyIsNull key) (ptrOf emptyIsNull nonce)
    (ptrOf emptyIsNull ciphertext) algorithm (ptrOf emptyIsNull (A.buf 0 ciphertext.length))
  if r.1 = 0 then none else some (r.2.take r.1)

end

/-! ## Signed cookies -/

section

variable {H : Hmac}

/-- `sign_cookie_into`. -/
def signCookieInto (H : Hmac) (value : Bytes) (key : H.Key) (out : Bytes) : Option Nat × Bytes :=
  if out.length < value.length + 65 then (none, out)
  else (some (value.length + 65), copyInto (signCookieBytes H value key) out)

def castrumSignCookieInto (cache : KeyCache H) (value secret out : Option Bytes) : Nat × Bytes :=
  match value, secret, out with
  | some value, some secret, some out =>
    if out.length < value.length + 65 then (value.length + 65, out)
    else
      let r := (withHmacKeyCached cache secret (fun key => signCookieInto H value key out)).1
      (r.1.getD 0, r.2)
  | _, _, out => (0, out.getD [])

def ffiSignCookieInto (cache : KeyCache H) (emptyIsNull : Bool) (value secret output : Bytes) :
    JsResult × Bytes :=
  ffiInto (castrumSignCookieInto cache (ptrOf emptyIsNull value) (ptrOf emptyIsNull secret)
      (ptrOf emptyIsNull output))
    output "sign cookie: invalid input" "sign cookie: output buffer too small"

end

/-! ## What comes back -/

/-- A payload is compressed, and comes back: by the allocating wrappers, and by those that write into a
buffer that is large enough. -/
def CodecReturns (compress decompress : Nat → Bytes → Option Nat → Option (Except String Bytes))
    (compressInto decompressInto : Bytes → Bytes → Option Nat → JsResult × Bytes) (p : Bytes) : Prop :=
  ∀ level cap : Option Nat, p.length ≤ cap.getD maxDecompressed → ∃ z,
    (∃ n, compress n p level = some (.ok z)) ∧
    (∀ output, 2 * p.length + 64 ≤ output.length → HandsOver (compressInto p output level) z) ∧
    (∃ n, decompress n z cap = some (.ok p)) ∧
    ∀ output, p.length ≤ output.length → HandsOver (decompressInto z output cap) p

section

variable (A : Alloc) (emptyIsNull : Bool)

def GzipReturns (gzip : StreamCodec) (p : Bytes) : Prop :=
  CodecReturns (gzipCompress A emptyIsNull gzip) (gzipDecompress A emptyIsNull gzip)
    (gzipCompressInto emptyIsNull gzip) (gzipDecompressInto emptyIsNull gzip) p

def BrotliReturns (brotli : StreamCodec) (p : Bytes) : Prop :=
  CodecReturns (brotliCompress A emptyIsNull brotli) (brotliDecompress A emptyIsNull brotli)
    (brotliCompressInto emptyIsNull brotli) (brotliDecompressInto emptyIsNull brotli) p

def AeadReturns {C : AeadCiphers} (O : AeadOpening C) (key nonce : Bytes) (algorithm : Nat)
    (p : Bytes) : Prop :=
  ∃ z, ffiAeadEncrypt A emptyIsNull C key nonce p algorithm = .ok z ∧
    ffiAeadDecrypt O A emptyIsNull key nonce z algorithm = some p

/-- Into buffers that are large enough. -/
def CookieReturns {H : Hmac} (cache : KeyCache H) (secret p : Bytes) : Prop :=
  ∀ output output' : Bytes, p.length + 65 ≤ output.length → p.length + 65 ≤ output'.length → ∃ z,
    HandsOver (ffiSignCookieInto cache emptyIsNull p secret output) z ∧
    HandsOver (ffiVerifyCookieInto cache emptyIsNull z secret output') p

end

/-! ## What the primitives are assumed to do -/

/-- The decoder undoes the encoder on `p`. A stream is not empty, and larger than its content by little. -/
structure StreamCodec.Restores (C : StreamCodec) (level : Nat) (p : Bytes) : Prop where
  delivers : C.Decoder.Delivers (C.decoder (C.stream level p)) p
  nonempty : C.stream level p ≠ []
  length_le : (C.stream level p).length ≤ 2 * p.length + 64

/-- The cipher takes the key and the nonce, and opens what it has sealed; the tag has 16 bytes. -/
structure AeadOpening.Restores {C : AeadCiphers} (O : AeadOpening C) (alg : AeadAlgorithm)
    (key nonce p : Bytes) : Prop where
  key_length : key.length = 32
  nonce_length : nonce.length = nonceLen
  opens : ∃ k, C.unboundKey alg key = some k ∧
    (C.sealAppendTag k nonce p).length = p.length + 16 ∧
    O.openInPlace k nonce (C.sealAppendTag k nonce p) = some p

/-! ## The pairs one by one -/

section

variable {A : Alloc} {emptyIsNull : Bool} {p : Bytes}

theorem compress_answers (emptyIsNull : Bool) (C : StreamCodec) (level : Nat) (hp : p ≠ []) :
    Answers (fun out => castrumGzipCompress C (ptrOf emptyIsNull p) level (ptrOf emptyIsNull out))
      (C.stream level p) :=
  compressToOut_answers hp (compressInto_answers C p level)

theorem decompress_answers (emptyIsNull : Bool) {C : StreamCodec} {level : Nat}
    (h : C.Restores level p) {cap : Nat}
    (hcap : p.length ≤ cap) :
    Answers (fun out => castrumGzipDecompress C (ptrOf emptyIsNull (C.stream level p)) cap
      (ptrOf emptyIsNull out)) p :=
  compressToOut_answers h.nonempty (decompressInto_answers h.delivers hcap)

/-- Compressing no bytes at all gives the stream, or nothing where the empty view is a null pointer. -/
theorem ffiCompress_nil {C : StreamCodec} {error : String} {n level : Nat} {z : Bytes}
    (hz : ffiCompress A emptyIsNull (castrumGzipCompress C) error n [] level = some (.ok z)) :
    z = C.stream level [] := by
  cases emptyIsNull with
  | true =>
    have hnull : Answers (fun out => castrumGzipCompress C (ptrOf true []) level (ptrOf true out)) [] :=
      fun out _ => ⟨rfl, fun _ => rfl⟩
    exact absurd rfl (growExact_ok A hnull (by decide) hz).2
  | false =>
    have hstream : Answers (fun out => castrumGzipCompress C (ptrOf false []) level (ptrOf false out))
        (C.stream level []) := by
      intro out hout
      simp only [ptrOf_of_ne_nil hout]
      exact compressInto_answers C [] level out hout
    exact (growExact_ok A hstream (by decide) hz).1

/-- **A codec's pair over `bun:ffi`**: exactly a payload that is not empty comes back. -/
theorem codecReturns_iff (C : StreamCodec) (lv : Option Nat → Nat) (initial : Bytes → Nat → Nat)
    (e₁ e₂ e₃ e₄ e₅ e₆ : String) (h : ∀ level, C.Restores (lv level) p) :
    CodecReturns
      (fun n data level => ffiCompress A emptyIsNull (castrumGzipCompress C) e₁ n data (lv level))
      (fun n data cap => ffiDecompress A emptyIsNull (castrumGzipDecompress C) initial e₂ n data cap)
      (fun data output level => ffiInto (castrumGzipCompress C (ptrOf emptyIsNull data) (lv level)
        (ptrOf emptyIsNull output)) output e₃ e₄)
      (fun data output cap => ffiInto (castrumGzipDecompress C (ptrOf emptyIsNull data)
        (cap.getD maxDecompressed) (ptrOf emptyIsNull output)) output e₅ e₆) p ↔ p ≠ [] := by
  constructor
  · intro hreturns hp
    subst hp
    obtain ⟨z, ⟨n, hz⟩, -, ⟨m, hback⟩, -⟩ := hreturns none none (Nat.zero_le _)
    have hstream : z = C.stream (lv none) [] := ffiCompress_nil hz
    rw [hstream] at hback
    have hanswers := decompress_answers emptyIsNull (h none) (Nat.zero_le maxDecompressed)
    exact (growExact_ok A hanswers (by decide) hback).2 rfl
  · intro hp level cap hcap
    have hstream := compress_answers emptyIsNull C (lv level) hp
    have hback := decompress_answers emptyIsNull (h level) hcap
    have hle := (h level).length_le
    refine ⟨C.stream (lv level) p, ⟨2, ?_⟩, fun output hroom => ?_, ⟨2, ?_⟩, fun output hroom => ?_⟩
    · apply growExact_answers A hstream (h level).nonempty
      show _ ≤ max (p.length * 2 + 64) compressMaxCap
      omega
    · exact ffiInto_answers hstream (h level).nonempty (by omega) e₃ e₄
    · exact growExact_answers A hback hp hcap 0 _ e₂
    · exact ffiInto_answers hback hp hroom e₅ e₆

/-- What the native function writes is as long as it reports. -/
theorem length_take_castrumAead (core : AeadAlgorithm → Bytes → Bytes → Bytes → Option Bytes)
    (key nonce text : Option Bytes) (alg : Nat) (out : Option Bytes) :
    ((castrumAead core key nonce text alg out).2.take (castrumAead core key nonce text alg out).1).length =
      (castrumAead core key nonce text alg out).1 := by
  unfold castrumAead
  split
  · split
    · rfl
    · split
      · rfl
      · rw [copyInto, List.take_left]
  · rfl

/-- One call of a cipher, on views that are not empty. -/
theorem castrumAead_eq {core : AeadAlgorithm → Bytes → Bytes → Bytes → Option Bytes} {algorithm : Nat}
    {alg : AeadAlgorithm} {key nonce text result : Bytes} (halg : aeadAlg algorithm = some alg)
    (hkey : key ≠ []) (hnonce : nonce ≠ []) (htext : text ≠ [])
    (hcore : core alg key nonce text = some result) {out : Bytes} (hout : out ≠ [])
    (hroom : result.length ≤ out.length) :
    castrumAead core (ptrOf emptyIsNull key) (ptrOf emptyIsNull nonce) (ptrOf emptyIsNull text) algorithm
      (ptrOf emptyIsNull out) = (result.length, copyInto result out) := by
  simp only [castrumAead, halg, ptrOf_of_ne_nil hkey, ptrOf_of_ne_nil hnonce, ptrOf_of_ne_nil htext,
    ptrOf_of_ne_nil hout, hcore, if_neg (show ¬ result.length > out.length by omega)]

/-- **The ciphers over `bun:ffi`.** -/
theorem aeadReturns_iff {C : AeadCiphers} {O : AeadOpening C} {algorithm : Nat} {alg : AeadAlgorithm}
    {key nonce : Bytes} (halg : aeadAlg algorithm = some alg) (h : O.Restores alg key nonce p) :
    AeadReturns A emptyIsNull O key nonce algorithm p ↔ p ≠ [] := by
  constructor
  · rintro ⟨z, -, hback⟩ hp
    subst hp
    simp only [ffiAeadDecrypt, castrumAeadDecrypt] at hback
    obtain ⟨hne, hnil⟩ := Option.ite_none_left_eq_some.mp hback
    -- no bytes, but a length that is not `0`
    have hlength := length_take_castrumAead (decrypt O) (ptrOf emptyIsNull key) (ptrOf emptyIsNull nonce)
      (ptrOf emptyIsNull z) algorithm (ptrOf emptyIsNull (A.buf 0 z.length))
    rw [Option.some.inj hnil] at hlength
    exact hne hlength.symm
  · intro hp
    obtain ⟨k, hk, hsealed, hopened⟩ := h.opens
    have hkey : key ≠ [] := List.ne_nil_of_length_pos (by rw [h.key_length]; decide)
    have hnonce : nonce ≠ [] := List.ne_nil_of_length_pos (by rw [h.nonce_length]; decide)
    have hpos : 0 < p.length := List.length_pos_of_ne_nil hp
    have hcipher : C.sealAppendTag k nonce p ≠ [] := List.ne_nil_of_length_pos (by omega)
    have hencrypt : encrypt C alg key nonce p = some (C.sealAppendTag k nonce p) := by
      rw [encrypt, hk, Option.bind_some, encryptWithKey, if_neg (not_not_intro h.nonce_length)]
    have hdecrypt : decrypt O alg key nonce (C.sealAppendTag k nonce p) = some p := by
      rw [decrypt, hk, Option.bind_some, decryptWithKey, if_neg (not_not_intro h.nonce_length), hopened]
    refine ⟨C.sealAppendTag k nonce p, ?_, ?_⟩
    · rw [ffiAeadEncrypt, castrumAeadEncrypt, castrumAead_eq halg hkey hnonce hp hencrypt
        (A.buf_ne_nil (by omega)) (by rw [A.length_buf, hsealed])]
      simp only
      rw [if_neg (by omega), copyInto, List.take_left]
    · rw [ffiAeadDecrypt, castrumAeadDecrypt, castrumAead_eq halg hkey hnonce hcipher hdecrypt
        (A.buf_ne_nil (by omega)) (by rw [A.length_buf]; omega)]
      simp only
      rw [if_neg (by omega), copyInto, List.take_left]

theorem length_signCookieBytes {H : Hmac} {key : H.Key} (htag : (H.sign key p).length = 32) :
    (signCookieBytes H p key).length = p.length + 65 := by
  rw [signCookieBytes, List.length_append, List.length_cons, hexEncode_length, htag]

theorem castrumSignCookieInto_null {H : Hmac} (cache : KeyCache H) (value out : Option Bytes) :
    (castrumSignCookieInto cache value none out).1 = 0 := by
  cases value with
  | none => rfl
  | some value => rfl

/-- **Cookies over `bun:ffi`.** An empty secret may arrive as a null pointer as well. -/
theorem cookieReturns_iff {H : Hmac} (cache : KeyCache H) {secret : Bytes}
    (htag : (H.sign (H.new secret) p).length = 32) :
    CookieReturns emptyIsNull cache secret p ↔ p ≠ [] ∧ ptrOf emptyIsNull secret ≠ none := by
  constructor
  · intro hreturns
    obtain ⟨z, hsigned, hback⟩ := hreturns (List.replicate (p.length + 65) 0)
      (List.replicate (p.length + 65) 0) (by simp) (by simp)
    constructor
    · intro hp
      -- a length of `0` is reported as `null`
      subst hp
      have hnum := hback.1
      rw [ffiVerifyCookieInto] at hnum
      split at hnum
      · cases hnum
      · next hne =>
        split at hnum
        · cases hnum
        · exact hne (JsResult.num.inj hnum)
    · intro hnull
      have hnum := hsigned.1
      rw [ffiSignCookieInto, hnull, ffiInto, castrumSignCookieInto_null, if_pos rfl] at hnum
      cases hnum
  · rintro ⟨hp, hnull⟩ output output' hroom hroom'
    have hsecret : ptrOf emptyIsNull secret = some secret := by
      obtain ⟨secret', hptr⟩ := Option.ne_none_iff_exists'.mp hnull
      rw [hptr, eq_of_ptrOf_eq_some emptyIsNull hptr]
    have hpos : 0 < p.length := List.length_pos_of_ne_nil hp
    have hout : output ≠ [] := List.ne_nil_of_length_pos (by omega)
    have hout' : output' ≠ [] := List.ne_nil_of_length_pos (by omega)
    have hlength := length_signCookieBytes htag
    have hsignedNil : signCookieBytes H p (H.new secret) ≠ [] := List.ne_nil_of_length_pos (by omega)
    refine ⟨signCookieBytes H p (H.new secret), ?_, ?_⟩
    · simp only [ffiSignCookieInto, castrumSignCookieInto, ptrOf_of_ne_nil hp, hsecret,
        ptrOf_of_ne_nil hout, withHmacKeyCached_fst, signCookieInto,
        if_neg (show ¬ output.length < p.length + 65 by omega), Option.getD_some, ffiInto,
        if_neg (show ¬ p.length + 65 = 0 by omega)]
      refine ⟨by rw [hlength], ?_⟩
      rw [copyInto, List.take_left]
    · have hverify : verifyCookieInto H (signCookieBytes H p (H.new secret)) (H.new secret) output' =
          (some p.length, copyInto p output') := by
        refine (verifyCookieInto_eq_some_iff H _ _ _ _ _).mpr
          ⟨p, ⟨hexEncode (H.sign (H.new secret) p), rfl, map_asciiLower_hexEncode _⟩, htag, rfl, ?_, rfl⟩
        omega
      simp only [ffiVerifyCookieInto, ptrOf_of_ne_nil hsignedNil, hsecret, ptrOf_of_ne_nil hout']
      rw [castrumVerifyCookieInto_of_sized cache (by omega), hverify]
      simp only [Option.getD_some, if_neg (show ¬ p.length = 0 by omega),
        if_neg (show ¬ p.length > output'.length by omega)]
      exact ⟨rfl, by rw [copyInto, List.take_left]⟩

end

/-! ## Both transports -/

section

variable {gzip brotli : StreamCodec} {C : AeadCiphers} {O : AeadOpening C} {H : Hmac}
  {alg : AeadAlgorithm} {key nonce secret p : Bytes}

/-- **Over `bun:ffi` exactly a payload that is not empty comes back**, by each of the four pairs. A cookie
needs a secret that does not arrive as a null pointer, too. -/
theorem ffi_returns_iff (A : Alloc) (emptyIsNull : Bool) (cache : KeyCache H) {algorithm : Nat}
    (hgzip : ∀ level ≤ 9, gzip.Restores level p) (hbrotli : ∀ quality ≤ 11, brotli.Restores quality p)
    (halg : aeadAlg algorithm = some alg) (haead : O.Restores alg key nonce p)
    (htag : (H.sign (H.new secret) p).length = 32) :
    (GzipReturns A emptyIsNull gzip p ↔ p ≠ []) ∧ (BrotliReturns A emptyIsNull brotli p ↔ p ≠ []) ∧
      (AeadReturns A emptyIsNull O key nonce algorithm p ↔ p ≠ []) ∧
      (CookieReturns emptyIsNull cache secret p ↔ p ≠ [] ∧ ptrOf emptyIsNull secret ≠ none) := by
  refine ⟨?_, ?_, aeadReturns_iff halg haead, cookieReturns_iff cache htag⟩
  · exact codecReturns_iff gzip (fun level => min (level.getD 6) 9) (gzipInitial emptyIsNull) _ _ _ _ _ _
      fun level => hgzip _ (Nat.min_le_right _ _)
  · exact codecReturns_iff brotli (fun quality => min (quality.getD 5) 11)
      (fun data _ => brotliInitial data) _ _ _ _ _ _ fun quality => hbrotli _ (Nat.min_le_right _ _)

end

/-! ## Two payloads -/

/-- What gzip makes of no bytes and of the byte `a`. -/
def gzipSample : StreamCodec where
  writes level data :=
    [[31, 139, 8, 0, 0, 0, 0, 0, if level ≤ 1 then 4 else if level = 9 then 2 else 0, 255],
      if data = [] then if level = 0 then [1, 0, 0, 255, 255] else [3, 0]
      else if level = 0 then [1, 1, 0, 254, 255, 97] else [75, 4, 0],
      if data = [] then [0, 0, 0, 0, 0, 0, 0, 0] else [67, 190, 183, 232, 1, 0, 0, 0]]
  Decoder := Reader.slice UInt8
  decoder z := if wordOf (z.drop (z.length - 4)) = 0 then [] else [97]

/-- What brotli makes of them. -/
def brotliSample : StreamCodec where
  writes _ data := if data = [] then [[59]] else [[11, 0, 128, 97, 3]]
  Decoder := Reader.slice UInt8
  decoder z := if z = [59] then [] else [97]

/-- AES-256-GCM under a key and a nonce of zeros. -/
def aeadSample : AeadCiphers where
  Key := Unit
  unboundKey _ key := if key.length = 32 then some () else none
  sealAppendTag _ _ plaintext :=
    if plaintext = [] then [83, 15, 138, 251, 199, 69, 54, 185, 169, 99, 180, 241, 196, 203, 115, 139]
    else [175, 82, 236, 111, 97, 213, 241, 52, 198, 28, 6, 73, 6, 133, 228, 88, 75]

def openingSample : AeadOpening aeadSample where
  openInPlace _ _ ciphertext := some (if ciphertext.length = 16 then [] else [97])

/-- HMAC-SHA256 under the secret `k`. -/
def hmacSample : Hmac where
  Key := Bytes
  new := id
  sign _ message :=
    if message = [] then [139, 185, 144, 196, 10, 125, 97, 203, 151, 89, 122, 148, 33, 37, 2, 91, 229, 10,
      200, 190, 183, 68, 54, 227, 115, 91, 152, 137, 58, 127, 102, 32]
    else [120, 218, 145, 81, 30, 103, 85, 135, 245, 185, 223, 120, 190, 222, 186, 245, 86, 13, 162, 171,
      184, 129, 98, 238, 135, 93, 205, 247, 68, 149, 29, 158]

theorem gzipSample_restores {p : Bytes} (hp : p = [] ∨ p = [97]) (level : Nat) :
    gzipSample.Restores level p := by
  have hdecoder : gzipSample.decoder (gzipSample.stream level p) = p := by
    show (if wordOf _ = 0 then ([] : Bytes) else [97]) = p
    rcases hp with rfl | rfl <;> by_cases hlevel : level = 0 <;>
      simp [gzipSample, StreamCodec.stream, hlevel, wordOf]
  have hlength : 0 < (gzipSample.stream level p).length ∧
      (gzipSample.stream level p).length ≤ 2 * p.length + 64 := by
    rcases hp with rfl | rfl <;> by_cases hlevel : level = 0 <;>
      simp [gzipSample, StreamCodec.stream, hlevel]
  refine ⟨?_, List.ne_nil_of_length_pos hlength.1, hlength.2⟩
  rw [hdecoder]
  exact Reader.slice_delivers p

theorem brotliSample_restores {p : Bytes} (hp : p = [] ∨ p = [97]) (quality : Nat) :
    brotliSample.Restores quality p := by
  rcases hp with rfl | rfl
  · exact ⟨Reader.slice_delivers [], (by decide : ([59] : Bytes) ≠ []), (by decide : 1 ≤ 64)⟩
  · exact ⟨Reader.slice_delivers [97], (by decide : ([11, 0, 128, 97, 3] : Bytes) ≠ []),
      (by decide : 5 ≤ 66)⟩

theorem openingSample_restores {p : Bytes} (hp : p = [] ∨ p = [97]) :
    openingSample.Restores .aes256Gcm (List.replicate 32 0) (List.replicate 12 0) p := by
  rcases hp with rfl | rfl
  · exact ⟨rfl, rfl, (), rfl, rfl, rfl⟩
  · exact ⟨rfl, rfl, (), rfl, rfl, rfl⟩

/-- Buffers of zeros. -/
def zeroAlloc : Alloc where
  buf _ cap := List.replicate cap 0
  length_buf _ _ := List.length_replicate

/-- One byte comes back. -/
theorem ffi_returns_a :
    GzipReturns zeroAlloc false gzipSample [97] ∧ BrotliReturns zeroAlloc false brotliSample [97] ∧
      AeadReturns zeroAlloc false openingSample (List.replicate 32 0) (List.replicate 12 0) 0 [97] ∧
      CookieReturns (H := hmacSample) false ⟨[], by simp⟩ [107] [97] := by
  have halg : aeadAlg 0 = some .aes256Gcm := rfl
  have htag : (hmacSample.sign (hmacSample.new [107]) [97]).length = 32 := rfl
  have hreturns := ffi_returns_iff zeroAlloc false ⟨[], by simp⟩
    (fun level _ => gzipSample_restores (.inr rfl) level)
    (fun quality _ => brotliSample_restores (.inr rfl) quality) halg (openingSample_restores (.inr rfl)) htag
  exact ⟨hreturns.1.mpr (by decide), hreturns.2.1.mpr (by decide), hreturns.2.2.1.mpr (by decide),
    hreturns.2.2.2.mpr (by decide)⟩

/-- **The empty payload**: a stream that holds no bytes is an error, a text of no bytes does not
authenticate, and an empty cookie is invalid. -/
theorem ffi_loses_empty :
    ¬ GzipReturns zeroAlloc false gzipSample [] ∧ ¬ BrotliReturns zeroAlloc false brotliSample [] ∧
      ¬ AeadReturns zeroAlloc false openingSample (List.replicate 32 0) (List.replicate 12 0) 0 [] ∧
      ¬ CookieReturns (H := hmacSample) false ⟨[], by simp⟩ [107] [] := by
  refine ⟨fun h => ?_, fun h => ?_, fun h => ?_, fun h => ?_⟩
  · exact (codecReturns_iff gzipSample (fun level => min (level.getD 6) 9) (gzipInitial false) _ _ _ _ _ _
      fun level => gzipSample_restores (.inl rfl) _).mp h rfl
  · exact (codecReturns_iff brotliSample (fun quality => min (quality.getD 5) 11)
      (fun data _ => brotliInitial data) _ _ _ _ _ _
      fun quality => brotliSample_restores (.inl rfl) _).mp h rfl
  · exact (aeadReturns_iff rfl (openingSample_restores (.inl rfl))).mp h rfl
  · exact ((cookieReturns_iff (H := hmacSample) _ rfl).mp h).1 rfl

end Castrum
