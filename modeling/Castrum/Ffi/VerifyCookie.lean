import Castrum.Crypto.CookieSign

/-!
# Castrum — the `bun:ffi` cookie verifier (`rust/ffi/crypto.rs`, `src/native/ffi/build/codecs.ts`)

`castrum_verify_cookie_into` answers with ONE integer that carries three meanings: the verified
length, a required size, or `0` for a failure. The TypeScript wrapper tells them apart by
comparing the integer with the buffer it passed. The two sides measure different things: the
native guard compares the buffer with the **signed** length, the wrapper compares the answer with
the **value** length. A buffer between the two makes a required size look like a verified length.

* `castrumVerifyCookieInto` / `ffiVerifyCookieInto` — the two functions, null pointers included;
* `ffiVerifyCookieInto_authentic_of_sized` — with a buffer of the signed length every reported
  length is authenticated;
* `ffiVerifyCookieInto_authentic_iff` — exactly which `signed`/buffer lengths keep the promise.
-/

namespace Castrum

/-- What a `bun:ffi` wrapper hands back to its JavaScript caller. -/
inductive JsResult where
  | num (w : Nat)
  | null
  | throws (message : String)
  deriving DecidableEq, Repr

/-- The pointer `bun:ffi` passes for a view: an engine may hand an empty view over as null. -/
def ptrOf (emptyIsNull : Bool) (view : Bytes) : Option Bytes :=
  if view.isEmpty && emptyIsNull then none else some view

/-- Verify a signed cookie into a caller buffer (`castrum_verify_cookie_into`): the value length,
a required size when the buffer is shorter than `signed`, or `0`. `none` is a null pointer; the
second component is the output buffer afterwards. -/
def castrumVerifyCookieInto {H : Hmac} (cache : KeyCache H) (signed secret out : Option Bytes) :
    Nat × Bytes :=
  match signed, secret, out with
  | some s, some secret, some out =>
    if out.length < s.length then
      -- sizing only: the signature is not looked at
      let dot := (rposition (· == dotByte) s).getD 0
      if dot ≠ 0 then (dot, out) else (s.length, out)
    else
      let r := (withHmacKeyCached cache secret (fun key => verifyCookieInto H s key out)).1
      (r.1.getD 0, r.2)
  | _, _, out => (0, out.getD [])

/-- The wrapper: `0` is a failed verification, a size beyond the buffer throws, anything else is
the verified length (`verifyCookieInto` of `codecs.ts`). -/
def ffiVerifyCookieInto {H : Hmac} (cache : KeyCache H) (emptyIsNull : Bool)
    (signed secret output : Bytes) : JsResult × Bytes :=
  let r := castrumVerifyCookieInto cache (ptrOf emptyIsNull signed) (ptrOf emptyIsNull secret)
    (ptrOf emptyIsNull output)
  if r.1 = 0 then (.null, r.2)
  else if r.1 > output.length then (.throws "verify cookie: output buffer too small", r.2)
  else (.num r.1, r.2)

/-- The promise of a reported length `w`: `signed` authenticates some value of that length, and
the buffer holds exactly that value in its first `w` bytes. -/
def Authentic (H : Hmac) (signed secret : Bytes) (w : Nat) (output : Bytes) : Prop :=
  ∃ v, Signs H (H.new secret) signed v ∧ v.length = w ∧ output.take w = v

variable {H : Hmac} (cache : KeyCache H) (emptyIsNull : Bool)

/-- A pointer that is not null points at the view it was made from. -/
theorem eq_of_ptrOf_eq_some {view v : Bytes} (h : ptrOf emptyIsNull view = some v) : v = view := by
  unfold ptrOf at h
  split at h
  · exact absurd h (by simp)
  · exact (Option.some.inj h).symm

/-- With a buffer at least as long as `signed` the native call answers `0`, or the answer of the
core verifier under the key compiled from `secret`. -/
theorem castrumVerifyCookieInto_of_sized {signed secret output : Bytes}
    (hsize : signed.length ≤ output.length) :
    castrumVerifyCookieInto cache (some signed) (some secret) (some output) =
      ((verifyCookieInto H signed (H.new secret) output).1.getD 0,
        (verifyCookieInto H signed (H.new secret) output).2) := by
  simp only [castrumVerifyCookieInto, if_neg (Nat.not_lt.mpr hsize), withHmacKeyCached_fst]

/-- With a buffer at least as long as `signed` the sizing branch is not taken, so every reported
length comes out of the core verifier. -/
theorem ffiVerifyCookieInto_authentic_of_sized {signed secret output : Bytes}
    (hsize : signed.length ≤ output.length) {w : Nat} {output' : Bytes}
    (h : ffiVerifyCookieInto cache emptyIsNull signed secret output = (.num w, output')) :
    Authentic H signed secret w output' := by
  unfold ffiVerifyCookieInto at h
  -- a null argument answers `0`, which the wrapper maps to `null`
  rcases hs : ptrOf emptyIsNull signed with _ | s
  · simp [hs, castrumVerifyCookieInto] at h
  rcases hsec : ptrOf emptyIsNull secret with _ | sec
  · simp [hs, hsec, castrumVerifyCookieInto] at h
  rcases hout : ptrOf emptyIsNull output with _ | out
  · simp [hs, hsec, hout, castrumVerifyCookieInto] at h
  obtain rfl := eq_of_ptrOf_eq_some emptyIsNull hs
  obtain rfl := eq_of_ptrOf_eq_some emptyIsNull hsec
  obtain rfl := eq_of_ptrOf_eq_some emptyIsNull hout
  rw [hs, hsec, hout, castrumVerifyCookieInto_of_sized cache hsize] at h
  rcases hr : verifyCookieInto H s (H.new sec) out with ⟨r, o⟩
  rw [hr] at h
  cases r with
  | none => simp at h
  | some n =>
    obtain ⟨v, hsig, -, rfl, hfit, rfl⟩ := (verifyCookieInto_eq_some_iff H _ _ _ _ _).mp hr
    simp only [Option.getD_some] at h
    split at h
    · exact absurd h (by simp)
    · split at h
      · exact absurd h (by simp)
      · obtain ⟨hw, rfl⟩ := Prod.mk.inj h
        obtain rfl : v.length = w := JsResult.num.inj hw
        exact ⟨v, hsig, rfl, by simp [copyInto]⟩

/-- In the sizing branch the wrapper reports the index of the last dot as a length whenever that
index is positive and fits the buffer, and the buffer is left as it was. -/
theorem ffiVerifyCookieInto_of_short {signed secret output : Bytes}
    (hsecret : ptrOf emptyIsNull secret = some secret) (hshort : output.length < signed.length)
    (hout : output ≠ []) :
    ffiVerifyCookieInto cache emptyIsNull signed secret output =
      (let dot := (rposition (· == dotByte) signed).getD 0
       if dot ≠ 0 ∧ dot ≤ output.length then (.num dot, output)
       else (.throws "verify cookie: output buffer too small", output)) := by
  have hs : ptrOf emptyIsNull signed = some signed := by
    cases signed with
    | nil => simp at hshort
    | cons b bs => simp [ptrOf]
  have ho : ptrOf emptyIsNull output = some output := by
    cases output with
    | nil => exact absurd rfl hout
    | cons b bs => simp [ptrOf]
  simp only [ffiVerifyCookieInto, castrumVerifyCookieInto, hs, hsecret, ho, if_pos hshort]
  by_cases hdot : (rposition (· == dotByte) signed).getD 0 = 0
  · have hpos : signed.length ≠ 0 := by omega
    simp only [hdot, ne_eq, not_true_eq_false, if_false, false_and, if_neg hpos,
      if_pos (show signed.length > output.length from hshort)]
  · by_cases hfit : (rposition (· == dotByte) signed).getD 0 ≤ output.length
    · simp only [ne_eq, hdot, not_false_eq_true, if_true, hfit, and_self, if_false,
        if_neg (Nat.not_lt.mpr hfit)]
    · simp only [ne_eq, hdot, not_false_eq_true, if_true, hfit, and_false, if_false,
        if_pos (Nat.lt_of_not_le hfit)]

/-- A single byte that differs from a given one. -/
theorem exists_byte_ne (b : UInt8) : ∃ b' : UInt8, b' ≠ b := by
  by_cases hb : b = 0
  · exact ⟨1, by rw [hb]; decide⟩
  · exact ⟨0, fun h => hb h.symm⟩

/-- **When a reported length is a verified one.** For buffers of length `n`, every length the
wrapper reports is authenticated exactly when the sizing branch cannot be mistaken for a result:
the buffer holds the whole signed cookie, or the last dot of `signed` is missing, at index `0`, or
beyond the buffer (or the secret arrives as a null pointer, which answers `0`). -/
theorem ffiVerifyCookieInto_authentic_iff (signed secret : Bytes) (n : Nat) :
    (∀ output w output', output.length = n →
        ffiVerifyCookieInto cache emptyIsNull signed secret output = (.num w, output') →
        Authentic H signed secret w output') ↔
      signed.length ≤ n ∨ (rposition (· == dotByte) signed).getD 0 = 0 ∨
        n < (rposition (· == dotByte) signed).getD 0 ∨ ptrOf emptyIsNull secret = none := by
  constructor
  · intro h
    by_contra hcon
    simp only [not_or, Nat.not_le, Nat.not_lt] at hcon
    obtain ⟨hshort, hdot, hfit, hnull⟩ := hcon
    have hsecret : ptrOf emptyIsNull secret = some secret := by
      unfold ptrOf at hnull ⊢
      split
      · simp_all
      · rfl
    -- a buffer whose first byte differs from the cookie's cannot hold the value
    cases signed with
    | nil => simp at hshort
    | cons b rest =>
      obtain ⟨b', hb'⟩ := exists_byte_ne b
      have hn : 0 < n := by omega
      have hlen : (List.replicate n b').length = n := List.length_replicate
      have hne : List.replicate n b' ≠ [] := by
        intro hnil
        rw [hnil] at hlen
        simp at hlen
        omega
      have hrun := ffiVerifyCookieInto_of_short cache emptyIsNull hsecret
        (show (List.replicate n b').length < (b :: rest).length by rw [hlen]; exact hshort) hne
      simp only [ne_eq, hdot, not_false_eq_true, hlen, hfit, and_self, if_true] at hrun
      obtain ⟨v, ⟨d, hsig, -⟩, hvlen, hout⟩ := h _ _ _ hlen hrun
      have hv : v = b :: rest.take (v.length - 1) := by
        cases v with
        | nil => simp at hvlen; omega
        | cons x v' =>
          obtain ⟨rfl, hrest⟩ := List.cons.inj (by simpa using hsig)
          simp [hrest]
      rw [hv] at hout
      obtain ⟨m, hm⟩ : ∃ m, n = m + 1 := ⟨n - 1, by omega⟩
      obtain ⟨k, hk⟩ : ∃ k, (rposition (· == dotByte) (b :: rest)).getD 0 = k + 1 :=
        ⟨(rposition (· == dotByte) (b :: rest)).getD 0 - 1, by omega⟩
      rw [hk, hm, List.replicate_succ, List.take_succ_cons] at hout
      exact hb' (List.cons.inj hout).1
  · rintro h output w output' rfl hrun
    rcases Nat.lt_or_ge output.length signed.length with hshort | hsize
    · exfalso
      by_cases hsecret : ptrOf emptyIsNull secret = some secret
      · by_cases hout : output = []
        · -- an empty buffer can only throw or, as a null pointer, answer `0`
          subst hout
          simp only [ffiVerifyCookieInto] at hrun
          split at hrun
          · exact absurd hrun (by simp)
          · split at hrun
            · exact absurd hrun (by simp)
            · next h1 h2 => simp only [List.length_nil] at h2; omega
        · rw [ffiVerifyCookieInto_of_short cache emptyIsNull hsecret hshort hout] at hrun
          simp only at hrun
          split at hrun
          · next hc =>
            rcases h with h | h | h | h
            · omega
            · exact hc.1 h
            · omega
            · rw [hsecret] at h; exact absurd h (by simp)
          · exact absurd hrun (by simp)
      · have hnull : ptrOf emptyIsNull secret = none := by
          unfold ptrOf at hsecret ⊢
          split
          · rfl
          · simp_all
        simp only [ffiVerifyCookieInto, castrumVerifyCookieInto, hnull] at hrun
        simp at hrun
    · exact ffiVerifyCookieInto_authentic_of_sized cache emptyIsNull hsize hrun

/-- The forged cookie `admin.x` with a five-byte buffer: the wrapper reports the length `5`, and
no key is looked at. -/
theorem ffiVerifyCookieInto_forged :
    ¬ ∀ (H : Hmac) (cache : KeyCache H) (emptyIsNull : Bool) (signed secret output : Bytes)
        (w : Nat) (output' : Bytes),
      ffiVerifyCookieInto cache emptyIsNull signed secret output = (.num w, output') →
      Authentic H signed secret w output' := by
  intro h
  let H : Hmac := ⟨Bytes, id, fun _ _ => List.replicate 32 0⟩
  have hrun : ffiVerifyCookieInto (H := H) ⟨[], by simp⟩ false
      [97, 100, 109, 105, 110, 46, 120] [107] [0, 0, 0, 0, 0]
      = (.num 5, [0, 0, 0, 0, 0]) := by decide
  obtain ⟨v, ⟨d, hsig, -⟩, -, hout⟩ := h H _ _ _ _ _ _ _ hrun
  rw [← hout] at hsig
  simp at hsig

end Castrum
