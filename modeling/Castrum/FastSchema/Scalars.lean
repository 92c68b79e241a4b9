import Castrum.Json.Utf8

/-!
# Castrum — the length of a string and of its text (`count_chars`, `decode_string` of `cursor.rs`)

The length of a body is the number of its code points, and the text is what these are written as. A low
surrogate without its partner is written as it is, which is no UTF-8; a high one becomes U+FFFD.

* `pushCp_append_inj` — code points are told apart by how their bytes begin;
* `scalarCount_decodeString_iff` — when the text has as many scalar values as the body is long.
-/

namespace Castrum

open Ascii

/-- The bytes are UTF-8 of `n` scalar values. -/
def ScalarCount (bytes : Bytes) (n : Nat) : Prop := ∃ cps, Spells bytes cps ∧ cps.length = n

/-! ## Code points and their bytes -/

/-- The code point of the bytes of one. -/
def codePoint : Bytes → Nat
  | [a] => a.toNat
  | [a, b] => (a.toNat - 0xC0) * 0x40 + (b.toNat - 0x80)
  | [a, b, c] => (a.toNat - 0xE0) * 0x1000 + (b.toNat - 0x80) * 0x40 + (c.toNat - 0x80)
  | [a, b, c, d] =>
    (a.toNat - 0xF0) * 0x40000 + (b.toNat - 0x80) * 0x1000 + (c.toNat - 0x80) * 0x40 + (d.toNat - 0x80)
  | _ => 0

theorem codePoint_pushCp {cp : Nat} (h : cp ≤ 0x10FFFF) : codePoint (pushCp cp) = cp := by
  -- one case for each length: the bits that were cut apart are put together again
  by_cases h₁ : cp < 0x80
  · have hbytes : pushCp cp = [UInt8.ofNat cp] := if_pos h₁
    rw [hbytes]
    exact ofNat_toNat_of_lt (by omega)
  by_cases h₂ : cp < 0x800
  · have hbytes : pushCp cp =
        [UInt8.ofNat (0xC0 + cp / 0x40), UInt8.ofNat (0x80 + cp % 0x40)] := by
      rw [pushCp, if_neg h₁, if_pos h₂]
    rw [hbytes]
    show ((UInt8.ofNat (0xC0 + cp / 0x40)).toNat - 0xC0) * 0x40 +
      ((UInt8.ofNat (0x80 + cp % 0x40)).toNat - 0x80) = cp
    rw [ofNat_toNat_of_lt (by omega), ofNat_toNat_of_lt (by omega)]
    omega
  by_cases h₃ : cp < 0x10000
  · have hbytes : pushCp cp =
        [UInt8.ofNat (0xE0 + cp / 0x1000), UInt8.ofNat (0x80 + cp / 0x40 % 0x40),
          UInt8.ofNat (0x80 + cp % 0x40)] := by
      rw [pushCp, if_neg h₁, if_neg h₂, if_pos h₃]
    rw [hbytes]
    show ((UInt8.ofNat (0xE0 + cp / 0x1000)).toNat - 0xE0) * 0x1000 +
      ((UInt8.ofNat (0x80 + cp / 0x40 % 0x40)).toNat - 0x80) * 0x40 +
      ((UInt8.ofNat (0x80 + cp % 0x40)).toNat - 0x80) = cp
    rw [ofNat_toNat_of_lt (by omega), ofNat_toNat_of_lt (by omega), ofNat_toNat_of_lt (by omega)]
    omega
  · have hbytes : pushCp cp =
        [UInt8.ofNat (0xF0 + cp / 0x40000), UInt8.ofNat (0x80 + cp / 0x1000 % 0x40),
          UInt8.ofNat (0x80 + cp / 0x40 % 0x40), UInt8.ofNat (0x80 + cp % 0x40)] := by
      rw [pushCp, if_neg h₁, if_neg h₂, if_neg h₃]
    rw [hbytes]
    show ((UInt8.ofNat (0xF0 + cp / 0x40000)).toNat - 0xF0) * 0x40000 +
      ((UInt8.ofNat (0x80 + cp / 0x1000 % 0x40)).toNat - 0x80) * 0x1000 +
      ((UInt8.ofNat (0x80 + cp / 0x40 % 0x40)).toNat - 0x80) * 0x40 +
      ((UInt8.ofNat (0x80 + cp % 0x40)).toNat - 0x80) = cp
    rw [ofNat_toNat_of_lt (by omega), ofNat_toNat_of_lt (by omega), ofNat_toNat_of_lt (by omega),
      ofNat_toNat_of_lt (by omega)]
    omega

/-- The first byte gives the number of bytes. -/
theorem length_pushCp {cp : Nat} (h : cp ≤ 0x10FFFF) :
    ∃ b t, pushCp cp = b :: t ∧ t.length + 1 = if b < 0x80 then 1 else charLen b := by
  by_cases hascii : cp < 0x80
  · refine ⟨UInt8.ofNat cp, [], if_pos hascii, ?_⟩
    have hlt : UInt8.ofNat cp < 0x80 := by
      rw [UInt8.lt_iff_toNat_lt, ofNat_toNat_of_lt (by omega)]
      exact hascii
    rw [if_pos hlt]
    rfl
  · obtain ⟨b, t, hbt, hlen, hall⟩ := pushCp_spec (by omega) h
    have hb := (hall b (by rw [hbt]; exact List.mem_cons_self)).2
    exact ⟨b, t, hbt, by rw [if_neg hb, hlen]⟩

/-- **Code points are told apart** by how their bytes begin, also those of surrogates. -/
theorem pushCp_append_inj {a b : Nat} {r s : Bytes} (ha : a ≤ 0x10FFFF) (hb : b ≤ 0x10FFFF)
    (h : pushCp a ++ r = pushCp b ++ s) : a = b ∧ r = s := by
  obtain ⟨x, t, hx, hlen⟩ := length_pushCp ha
  obtain ⟨y, u, hy, hlen'⟩ := length_pushCp hb
  have hfirst : x = y := by
    rw [hx, hy] at h
    exact (List.cons.inj h).1
  have hlength : (pushCp a).length = (pushCp b).length := by
    rw [hx, hy, List.length_cons, List.length_cons, hlen, hlen', hfirst]
  obtain ⟨hbytes, hrest⟩ := List.append_inj h hlength
  have hcp := congrArg codePoint hbytes
  rw [codePoint_pushCp ha, codePoint_pushCp hb] at hcp
  exact ⟨hcp, hrest⟩

theorem flatMap_pushCp_inj {cps cqs : List Nat} (hcps : ∀ cp ∈ cps, cp ≤ 0x10FFFF)
    (hcqs : ∀ cp ∈ cqs, cp ≤ 0x10FFFF) (h : cps.flatMap pushCp = cqs.flatMap pushCp) : cps = cqs := by
  -- every code point has bytes, so that no text is the front of itself
  have hne : ∀ cp ≤ 0x10FFFF, ∀ r : Bytes, pushCp cp ++ r ≠ [] := by
    intro cp hcp r hnil
    obtain ⟨b, t, hbt, -⟩ := length_pushCp hcp
    rw [hbt] at hnil
    cases hnil
  induction cps generalizing cqs with
  | nil =>
    cases cqs with
    | nil => rfl
    | cons b cqs => exact absurd h.symm (hne b (hcqs b List.mem_cons_self) _)
  | cons a cps ih =>
    cases cqs with
    | nil => exact absurd h (hne a (hcps a List.mem_cons_self) _)
    | cons b cqs =>
      obtain ⟨ha, hcps'⟩ := List.forall_mem_cons.mp hcps
      obtain ⟨hb, hcqs'⟩ := List.forall_mem_cons.mp hcqs
      rw [List.flatMap_cons, List.flatMap_cons] at h
      obtain ⟨hab, hrest⟩ := pushCp_append_inj ha hb h
      rw [hab, ih hcps' hcqs' hrest]

/-! ## Bodies -/

theorem hexDigits_lt {hex : Bytes} {v n : Nat} (h : hexDigits v hex = some n) :
    n < (v + 1) * 16 ^ hex.length := by
  induction hex generalizing v with
  | nil =>
    cases h
    rw [List.length_nil, Nat.pow_zero]
    omega
  | cons c hex ih =>
    rw [hexDigits] at h
    split at h
    · next d hd =>
      have hd16 : d.toNat < 16 := by
        have hall : ∀ c : UInt8, ∀ d ∈ hexVal c, d.toNat < 16 := forall_byte (by decide +kernel)
        exact hall c d hd
      have hlt := ih h
      rw [List.length_cons, Nat.pow_succ]
      calc n < (v * 16 + d.toNat + 1) * 16 ^ hex.length := hlt
        _ ≤ ((v + 1) * 16) * 16 ^ hex.length := Nat.mul_le_mul_right _ (by omega)
        _ = (v + 1) * (16 ^ hex.length * 16) := by ring
    · cases h

theorem hex4_lt {hex : Bytes} {n : Nat} (h : hex4 hex = some n) : n < 0x10000 := by
  have hlength := hex4_length h
  unfold hex4 at h
  rw [if_neg (not_not.mpr hlength)] at h
  have hlt := hexDigits_lt h
  rw [hlength] at hlt
  omega

/-- A code point of a body is a scalar value or a low surrogate. -/
theorem Decodes.scalar_or_low {raw : Bytes} {cps : List Nat} (h : Decodes raw cps) :
    ∀ cp ∈ cps, cp ≤ 0x10FFFF ∧ (IsScalar cp ↔ isLow cp = false) := by
  -- a high half that stands alone is replaced, so that only a low half is left of the surrogates
  have hscalar : ∀ {cp : Nat}, cp ≤ 0x10FFFF → isHigh cp = false →
      cp ≤ 0x10FFFF ∧ (IsScalar cp ↔ isLow cp = false) := by
    intro cp hmax hhigh
    refine ⟨hmax, ?_⟩
    simp only [isHigh, isLow, IsScalar, Bool.and_eq_false_iff, decide_eq_false_iff_not] at hhigh ⊢
    omega
  have hplain : ∀ {cp : Nat}, cp ≤ 0x10FFFF → ¬ (0xD800 ≤ cp ∧ cp ≤ 0xDFFF) → isHigh cp = false := by
    intro cp _ hnot
    simp only [isHigh, Bool.and_eq_false_iff, decide_eq_false_iff_not]
    omega
  induction h with
  | nil => nofun
  | @ascii b r cps _ _ _ hlt _ ih =>
    rw [UInt8.lt_iff_toNat_lt] at hlt
    have hb : b.toNat < 0x80 := hlt
    exact List.forall_mem_cons.mpr ⟨hscalar (by omega) (hplain (by omega) (by omega)), ih⟩
  | utf8 _ hmax hnot _ ih => exact List.forall_mem_cons.mpr ⟨hscalar hmax (hplain hmax hnot), ih⟩
  | @escape e c r cps he _ ih =>
    have hc := (unescape_lt he).1
    rw [UInt8.lt_iff_toNat_lt] at hc
    have hb : c.toNat < 0x80 := hc
    exact List.forall_mem_cons.mpr ⟨hscalar (by omega) (hplain (by omega) (by omega)), ih⟩
  | unit hh hhigh _ ih =>
    have hlt := hex4_lt hh
    exact List.forall_mem_cons.mpr ⟨hscalar (by omega) hhigh, ih⟩
  | @pair hex hex' r hi lo cps hh hhigh hl hlow _ ih =>
    simp only [isHigh, isLow, Bool.and_eq_true, decide_eq_true_iff] at hhigh hlow
    exact List.forall_mem_cons.mpr ⟨hscalar (by omega) (hplain (by omega) (by omega)), ih⟩
  | loneHigh _ _ _ _ ih => exact List.forall_mem_cons.mpr ⟨hscalar (by decide) (by decide), ih⟩

/-- **When the text has as many scalar values as the body is long**: when no low surrogate is without its
partner. -/
theorem scalarCount_decodeString_iff {raw : Bytes} {cps : List Nat} (h : Decodes raw cps) :
    ScalarCount (decodeString raw) (countChars raw) ↔ ∀ cp ∈ cps, isLow cp = false := by
  have htext : decodeString raw = cps.flatMap pushCp := (scan_of_decodes h _ (le_refl _)).2
  have hcount := countChars_of_decodes h
  have hall := h.scalar_or_low
  rw [htext, hcount]
  constructor
  · rintro ⟨cqs, ⟨hscalar, hbytes⟩, -⟩
    have hsame : cps = cqs :=
      flatMap_pushCp_inj (fun cp hcp => (hall cp hcp).1) (fun cp hcp => (hscalar cp hcp).1) hbytes
    intro cp hcp
    exact (hall cp hcp).2.mp (hscalar cp (hsame ▸ hcp))
  · intro hlow
    exact ⟨cps, ⟨fun cp hcp => (hall cp hcp).2.mpr (hlow cp hcp), rfl⟩, rfl⟩

/-- An `é`, the escape of a letter and a pair of surrogates: three scalar values. -/
theorem threeScalars_scalarCount :
    ScalarCount (decodeString (pushCp 0xE9 ++ [92, 117, 48, 48, 52, 49] ++
      [92, 117, 68, 56, 51, 68, 92, 117, 68, 69, 48, 48])) 3 := by
  have hpair : Decodes (backslash :: 117 :: ([68, 56, 51, 68] ++ backslash :: 117 ::
      ([68, 69, 48, 48] ++ []))) [0x1F600] :=
    .pair (h := 0xD83D) (l := 0xDE00) (by decide) (by decide) (by decide) (by decide) .nil
  have hall : Decodes (pushCp 0xE9 ++ backslash :: 117 :: ([48, 48, 52, 49] ++ backslash :: 117 ::
      ([68, 56, 51, 68] ++ backslash :: 117 :: ([68, 69, 48, 48] ++ [])))) [0xE9, 0x41, 0x1F600] :=
    .utf8 (by decide) (by decide) (by decide) (.unit (by decide) (by decide) hpair)
  exact (scalarCount_decodeString_iff hall).mpr (by decide)

/-- The escape of a low surrogate, `\uDC00`: one character long, and its text is no UTF-8. -/
theorem loneLow_not_scalarCount :
    countChars [92, 117, 68, 67, 48, 48] = 1 ∧
    decodeString [92, 117, 68, 67, 48, 48] = [0xED, 0xB0, 0x80] ∧
    ¬ ∃ n, ScalarCount (decodeString [92, 117, 68, 67, 48, 48]) n := by
  have htext : decodeString [92, 117, 68, 67, 48, 48] = [0xDC00].flatMap pushCp := by decide
  refine ⟨by decide, by decide, ?_⟩
  rintro ⟨n, cps, ⟨hscalar, hbytes⟩, -⟩
  have hsame : [0xDC00] = cps :=
    flatMap_pushCp_inj (by decide) (fun cp hcp => (hscalar cp hcp).1) (htext.symm.trans hbytes)
  have hlow := hscalar 0xDC00 (hsame ▸ List.mem_singleton_self _)
  exact hlow.2 ⟨by decide, by decide⟩

end Castrum
