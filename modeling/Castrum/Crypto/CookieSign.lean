import Castrum.Util.Bytes

/-!
# Castrum — signed cookies (`rust/crypto/cookie_sign.rs`, the key cache of `rust/ffi/util.rs`)

A signed cookie is `value ++ "." ++ 64-hex(HMAC-SHA256(secret, value))`. This module embeds the
verifier that writes the value into a caller buffer, together with the per-thread LRU of compiled
keys the C ABI verifies through.

HMAC itself is the `aws_lc_rs` crate: it enters as the structure `Hmac` (key compilation and the
tag), with `hmac::verify` the comparison of the presented tag with the computed one.

* `verifyCookieInto_eq_some_iff` — the core accepts exactly the authentic cookies that fit, and
  what it writes is the value;
* `withHmacKeyCached_fst` — a cache lookup runs its callback with the key compiled from the
  secret asked for, whatever was cached before (the invariant is a field of `KeyCache`).
-/

namespace Castrum

/-- The HMAC-SHA256 primitive of `aws_lc_rs`: a key compiled from a secret, and the tag of a
message under a key. -/
structure Hmac where
  Key : Type
  new : Bytes → Key
  sign : Key → Bytes → Bytes

/-- `hmac::verify`: the presented tag is the message's tag under `key`. -/
def Hmac.verify (H : Hmac) (key : H.Key) (message tag : Bytes) : Bool :=
  tag == H.sign key message

/-- `b'.'`, the separator of value and signature. -/
def dotByte : UInt8 := 46

/-- `copy_from_slice` of `value` into the front of `out`. -/
def copyInto (value out : Bytes) : Bytes := value ++ out.drop value.length

/-- Verify into `out` (the value without its signature): the value length, or `none` on an
invalid signature or a too-small buffer. The second component is the buffer afterwards
(`verify_cookie_into`). -/
def verifyCookieInto (H : Hmac) (signed : Bytes) (key : H.Key) (out : Bytes) :
    Option Nat × Bytes :=
  match rposition (· == dotByte) signed with
  | none => (none, out)
  | some dot =>
    let value := signed.take dot
    let sig := (signed.drop dot).drop 1
    if sig.length ≠ 64 then (none, out)
    else
      match hexDecode32 sig with
      | none => (none, out)
      | some sigBytes =>
        if H.verify key value sigBytes = false then (none, out)
        else if out.length < value.length then (none, out)
        else (some value.length, copyInto value out)

/-- `value` ++ "." ++ lowercase hex of its tag (`sign_cookie_bytes`). -/
def signCookieBytes (H : Hmac) (value : Bytes) (key : H.Key) : Bytes :=
  value ++ dotByte :: hexEncode (H.sign key value)

/-- Verify; the signed value without its signature (`verify_cookie_bytes`). -/
def verifyCookieBytes (H : Hmac) (signed : Bytes) (key : H.Key) : Option Bytes :=
  match rposition (· == dotByte) signed with
  | none => none
  | some dot =>
    let value := signed.take dot
    let sig := (signed.drop dot).drop 1
    if sig.length ≠ 64 then none
    else
      match hexDecode32 sig with
      | none => none
      | some sigBytes => if H.verify key value sigBytes = false then none else some value

/-- `v` is authenticated by `signed`: `signed` is `v ++ "." ++ h` with `h` the hex, in any case,
of the tag of `v` under `key`. -/
def Signs (H : Hmac) (key : H.Key) (signed v : Bytes) : Prop :=
  ∃ h, signed = v ++ dotByte :: h ∧ h.map asciiLower = hexEncode (H.sign key v)

theorem dotByte_not_mem_hexEncode (bs : Bytes) : asciiLower dotByte ∉ hexEncode bs := by
  induction bs with
  | nil => simp [hexEncode]
  | cons b bs ih =>
    have hdot : ∀ b : UInt8, asciiLower dotByte ≠ hexDigit (b >>> 4) ∧
        asciiLower dotByte ≠ hexDigit (b &&& 0x0f) := forall_byte (by decide +kernel)
    rw [hexEncode, List.mem_cons, List.mem_cons, not_or, not_or]
    exact ⟨(hdot b).1, (hdot b).2, ih⟩

theorem map_asciiLower_hexEncode (bs : Bytes) : (hexEncode bs).map asciiLower = hexEncode bs := by
  induction bs with
  | nil => rfl
  | cons b bs ih =>
    have hlower : ∀ b : UInt8, asciiLower (hexDigit (b >>> 4)) = hexDigit (b >>> 4) ∧
        asciiLower (hexDigit (b &&& 0x0f)) = hexDigit (b &&& 0x0f) := forall_byte (by decide +kernel)
    rw [hexEncode, List.map_cons, List.map_cons, ih, (hlower b).1, (hlower b).2]

/-- No hex digit is a dot, so the scan stops at the separator. -/
theorem rposition_signed {h tag : Bytes} (hspell : h.map asciiLower = hexEncode tag) (v : Bytes) :
    rposition (· == dotByte) (v ++ dotByte :: h) = some v.length := by
  refine (rposition_eq_some_iff _ _ _).mpr ⟨v, dotByte, h, rfl, rfl, by simp, ?_⟩
  intro x hx
  by_contra hcon
  obtain rfl : x = dotByte := by simpa using hcon
  apply dotByte_not_mem_hexEncode tag
  rw [← hspell]
  exact List.mem_map_of_mem hx

theorem length_of_spells {h tag : Bytes} (hspell : h.map asciiLower = hexEncode tag)
    (htag : tag.length = 32) : h.length = 64 := by
  have := congrArg List.length hspell
  rw [List.length_map, hexEncode_length, htag] at this
  exact this

/-- **What `sign_cookie_bytes` writes is accepted**, and read back as the value. -/
theorem verifyCookieBytes_signCookieBytes (H : Hmac) (value : Bytes) (key : H.Key)
    (htag : (H.sign key value).length = 32) :
    verifyCookieBytes H (signCookieBytes H value key) key = some value := by
  have hspell := map_asciiLower_hexEncode (H.sign key value)
  have hdec : hexDecode32 (hexEncode (H.sign key value)) = some (H.sign key value) :=
    (hexDecode32_eq_some_iff _ _).mpr ⟨htag, hspell⟩
  have h64 := length_of_spells hspell htag
  unfold verifyCookieBytes signCookieBytes
  simp only [rposition_signed hspell value, List.take_left, List.drop_left, List.drop_succ_cons,
    List.drop_zero, hdec]
  simp [h64, Hmac.verify]

/-- **The core is exact.** `verify_cookie_into` returns `w` and leaves `out'` exactly when
`signed` authenticates a value of length `w` under a 32-byte tag, the value fits, and `out'` is
the buffer with the value copied to its front. -/
theorem verifyCookieInto_eq_some_iff (H : Hmac) (signed : Bytes) (key : H.Key) (out : Bytes)
    (w : Nat) (out' : Bytes) :
    verifyCookieInto H signed key out = (some w, out') ↔
      ∃ v, Signs H key signed v ∧ (H.sign key v).length = 32 ∧ v.length = w ∧
        v.length ≤ out.length ∧ out' = copyInto v out := by
  unfold verifyCookieInto
  constructor
  · intro h
    split at h
    · exact absurd h (by simp)
    · next dot hdot =>
      -- the value is what stands in front of the last dot
      obtain ⟨pre, b, post, rfl, rfl, hb, -⟩ := (rposition_eq_some_iff _ _ _).mp hdot
      obtain rfl : b = dotByte := by simpa using hb
      simp only [List.take_left, List.drop_left, List.drop_succ_cons, List.drop_zero] at h
      split at h
      · exact absurd h (by simp)
      · split at h
        · exact absurd h (by simp)
        · next sigBytes hsig =>
          obtain ⟨hlen, hspell⟩ := (hexDecode32_eq_some_iff _ _).mp hsig
          split at h
          · exact absurd h (by simp)
          · next hver =>
            obtain rfl : sigBytes = H.sign key pre := by
              simpa [Hmac.verify] using hver
            split at h
            · exact absurd h (by simp)
            · next hfit =>
              obtain ⟨hw, rfl⟩ := Prod.mk.inj h
              exact ⟨pre, ⟨post, rfl, hspell⟩, hlen, Option.some.inj hw, by omega, rfl⟩
  · rintro ⟨v, ⟨h, rfl, hspell⟩, hlen, rfl, hfit, rfl⟩
    have hdec : hexDecode32 h = some (H.sign key v) :=
      (hexDecode32_eq_some_iff _ _).mpr ⟨hlen, hspell⟩
    have h64 := length_of_spells hspell hlen
    have hdot := rposition_signed hspell v
    simp only [hdot, List.take_left, List.drop_left, List.drop_succ_cons, List.drop_zero, hdec]
    simp [h64, Hmac.verify, hfit]

/-! ## The compiled-key cache -/

/-- Capacity of the per-thread compiled-key LRU (`HMAC_KEY_CACHE_CAP`). -/
def hmacKeyCacheCap : Nat := 16

/-- The per-thread LRU of compiled keys, most recently used first. Every entry holds the key
compiled from the secret it is filed under. -/
structure KeyCache (H : Hmac) where
  entries : List (Bytes × H.Key)
  sound : ∀ e ∈ entries, e.2 = H.new e.1

/-- `LruCache::get`: a hit moves the entry to the front. -/
def KeyCache.touch {H : Hmac} (cache : KeyCache H) (secret : Bytes) (key : H.Key)
    (h : key = H.new secret) : KeyCache H where
  entries := (secret, key) :: cache.entries.filter (fun e => e.1 != secret)
  sound := by
    intro e he
    rcases List.mem_cons.mp he with rfl | he
    · exact h
    · exact cache.sound e (List.mem_of_mem_filter he)

/-- `pop_lru` when the cache is at its capacity. -/
def KeyCache.evict {H : Hmac} (cache : KeyCache H) : KeyCache H where
  entries := if hmacKeyCacheCap ≤ cache.entries.length then cache.entries.dropLast else cache.entries
  sound := by
    intro e he
    split at he
    · exact cache.sound e (List.mem_of_mem_dropLast he)
    · exact cache.sound e he

/-- Run `f` with the cached compiled key for `secret`, compiling and caching it on a miss
(`with_hmac_key_cached`). -/
def withHmacKeyCached {H : Hmac} {α : Type} (cache : KeyCache H) (secret : Bytes)
    (f : H.Key → α) : α × KeyCache H :=
  match hfind : cache.entries.find? (fun e => e.1 == secret) with
  | some (s, key) =>
    (f key, cache.touch secret key (by
      have hmem := List.mem_of_find?_eq_some hfind
      have hs : s = secret := by simpa using List.find?_some hfind
      exact hs ▸ cache.sound _ hmem))
  | none =>
    let key := H.new secret
    (f key, cache.evict.touch secret key rfl)

/-- **The cache is transparent**: whatever it holds, the callback runs with the key compiled from
the secret asked for. -/
theorem withHmacKeyCached_fst {H : Hmac} {α : Type} (cache : KeyCache H) (secret : Bytes)
    (f : H.Key → α) : (withHmacKeyCached cache secret f).1 = f (H.new secret) := by
  unfold withHmacKeyCached
  split
  · next s key hfind =>
    have hmem := List.mem_of_find?_eq_some hfind
    have hs : s = secret := by simpa using List.find?_some hfind
    simp only
    rw [show key = H.new s from cache.sound _ hmem, hs]
  · rfl

end Castrum
