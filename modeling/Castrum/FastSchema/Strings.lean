import Castrum.FastSchema.Cursor

/-!
# Castrum — raw string bodies (`count_chars`, `decode_string` of `cursor.rs`)

The walk measures and decodes string bodies without a parser. Both functions scan from the left,
one character a step; the index loops of the source are recursions on what is left of the body,
with the body's length as fuel.

`Decodes` is the RFC 8259 reading of a body as a list of code points. Unpaired surrogates are
legal there; they are read as `decode_string` renders them.

* `countChars_of_decodes` — `count_chars` is the number of code points;
* `textOf_of_decodes` — the decoded text is their UTF-8.
-/

namespace Castrum

open Ascii

/-! ## The source functions -/

def hexDigits (v : Nat) : Bytes → Option Nat
  | [] => some v
  | c :: cs =>
    match hexVal c with
    | some d => hexDigits (v * 16 + d.toNat) cs
    | none => none

/-- Four hex digits (`hex4`); `none` also for a slice out of range. -/
def hex4 (hex : Bytes) : Option Nat := if hex.length ≠ 4 then none else hexDigits 0 hex

def isHigh (u : Nat) : Bool := 0xD800 ≤ u && u ≤ 0xDBFF

def isLow (u : Nat) : Bool := 0xDC00 ≤ u && u ≤ 0xDFFF

/-- UTF-8 bytes of a code point (`push_cp`). The `|`s of the source join disjoint bits. -/
def pushCp (cp : Nat) : Bytes :=
  if cp < 0x80 then [UInt8.ofNat cp]
  else if cp < 0x800 then [UInt8.ofNat (0xC0 + cp / 0x40), UInt8.ofNat (0x80 + cp % 0x40)]
  else if cp < 0x10000 then
    [UInt8.ofNat (0xE0 + cp / 0x1000), UInt8.ofNat (0x80 + cp / 0x40 % 0x40),
      UInt8.ofNat (0x80 + cp % 0x40)]
  else
    [UInt8.ofNat (0xF0 + cp / 0x40000), UInt8.ofNat (0x80 + cp / 0x1000 % 0x40),
      UInt8.ofNat (0x80 + cp / 0x40 % 0x40), UInt8.ofNat (0x80 + cp % 0x40)]

/-- The low surrogate of an escape at the front of `s`, if one is there. -/
def lowEscape (s : Bytes) : Option Nat :=
  if s.take 2 = [backslash, 117] then (hex4 ((s.drop 2).take 4)).filter isLow else none

/-- Bytes of the character with first byte `b ≥ 0x80`, as `count_chars` steps. -/
def charLen (b : UInt8) : Nat :=
  if 0xC0 ≤ b ∧ b ≤ 0xDF then 2
  else if 0xE0 ≤ b ∧ b ≤ 0xEF then 3
  else if 0xF0 ≤ b ∧ b ≤ 0xF7 then 4
  else 1

def countFrom : Nat → Bytes → Nat
  | 0, _ => 0
  | _ + 1, [] => 0
  | n + 1, b :: r =>
    if b = backslash then
      match r with
      | [] => 0
      | e :: r' =>
        if e = 117 then
          -- a high surrogate followed by a low one is one character
          if (hex4 (r'.take 4)).any isHigh ∧ (lowEscape (r'.drop 4)).isSome then
            1 + countFrom n (r'.drop 10)
          else 1 + countFrom n (r'.drop 4)
        else 1 + countFrom n r'
    else if b < 0x80 then 1 + countFrom n r
    else 1 + countFrom n ((b :: r).drop (charLen b))

/-- String length in characters (`count_chars`). -/
def countChars (inner : Bytes) : Nat :=
  if backslash ∉ inner ∧ (∀ b ∈ inner, b < 0x80) then inner.length
  else countFrom inner.length inner

/-- What a one-letter escape stands for. -/
def unescape (e : UInt8) : Option UInt8 :=
  if e = 34 then some 34
  else if e = 92 then some 92
  else if e = 47 then some 47
  else if e = 98 then some 8
  else if e = 102 then some 12
  else if e = 110 then some 10
  else if e = 114 then some 13
  else if e = 116 then some 9
  else none

def decodeFrom : Nat → Bytes → Bytes
  | 0, _ => []
  | _ + 1, [] => []
  | n + 1, b :: r =>
    match b == backslash, r with
    | true, e :: r' =>
      match unescape e with
      | some c => c :: decodeFrom n r'
      | none =>
        if e = 117 then
          match hex4 (r'.take 4) with
          | some h =>
            if isHigh h then
              match lowEscape (r'.drop 4) with
              | some l =>
                pushCp (0x10000 + (h - 0xD800) * 0x400 + (l - 0xDC00)) ++ decodeFrom n (r'.drop 10)
              | none => pushCp 0xFFFD ++ decodeFrom n (r'.drop 4)
            else pushCp h ++ decodeFrom n (r'.drop 4)
          | none => 117 :: decodeFrom n r'
        else b :: decodeFrom n r'
    | _, _ => b :: decodeFrom n r

/-- Decode a raw string body (`decode_string`). -/
def decodeString (inner : Bytes) : Bytes := decodeFrom inner.length inner

/-- The text of a body: decoded only when it has an escape. -/
def textOf (inner : Bytes) : Bytes := if backslash ∈ inner then decodeString inner else inner

/-! ## The RFC 8259 reading -/

/-- A body and its code points. A pair of surrogate escapes is one code point; an unpaired high
surrogate reads as U+FFFD, an unpaired low one as itself. -/
inductive Decodes : Bytes → List Nat → Prop where
  | nil : Decodes [] []
  | ascii {b : UInt8} {r : Bytes} {cps : List Nat} : b ≠ quote → b ≠ backslash → 32 ≤ b →
      b < 0x80 → Decodes r cps → Decodes (b :: r) (b.toNat :: cps)
  | utf8 {cp : Nat} {r : Bytes} {cps : List Nat} : 0x80 ≤ cp → cp ≤ 0x10FFFF →
      ¬ (0xD800 ≤ cp ∧ cp ≤ 0xDFFF) → Decodes r cps → Decodes (pushCp cp ++ r) (cp :: cps)
  | escape {e c : UInt8} {r : Bytes} {cps : List Nat} : unescape e = some c → Decodes r cps →
      Decodes (backslash :: e :: r) (c.toNat :: cps)
  | unit {hex r : Bytes} {h : Nat} {cps : List Nat} : hex4 hex = some h → isHigh h = false →
      Decodes r cps → Decodes (backslash :: 117 :: (hex ++ r)) (h :: cps)
  | pair {hex hex' r : Bytes} {h l : Nat} {cps : List Nat} : hex4 hex = some h → isHigh h = true →
      hex4 hex' = some l → isLow l = true → Decodes r cps →
      Decodes (backslash :: 117 :: (hex ++ backslash :: 117 :: (hex' ++ r)))
        ((0x10000 + (h - 0xD800) * 0x400 + (l - 0xDC00)) :: cps)
  | loneHigh {hex r : Bytes} {h : Nat} {cps : List Nat} : hex4 hex = some h → isHigh h = true →
      lowEscape r = none → Decodes r cps →
      Decodes (backslash :: 117 :: (hex ++ r)) (0xFFFD :: cps)

/-! ## The scans follow it -/

theorem hex4_length {hex : Bytes} {h : Nat} (hh : hex4 hex = some h) : hex.length = 4 := by
  unfold hex4 at hh
  split at hh
  · exact absurd hh (by simp)
  · next hlen => simpa using hlen

theorem hex4_take {hex r : Bytes} {h : Nat} (hh : hex4 hex = some h) :
    (hex ++ r).take 4 = hex ∧ (hex ++ r).drop 4 = r := by
  have hlen := hex4_length hh
  exact ⟨by rw [← hlen, List.take_left], by rw [← hlen, List.drop_left]⟩

theorem ofNat_toNat_of_lt {n : Nat} (h : n < 256) : (UInt8.ofNat n).toNat = n := by
  rw [UInt8.toNat_ofNat', Nat.mod_eq_of_lt h]

theorem not_ascii_of_le {n : Nat} (h₁ : 0x80 ≤ n) (h₂ : n < 256) :
    UInt8.ofNat n ≠ backslash ∧ ¬ UInt8.ofNat n < 0x80 := by
  have hn := ofNat_toNat_of_lt h₂
  refine ⟨fun heq => ?_, fun hlt => ?_⟩
  · have := congrArg UInt8.toNat heq
    rw [hn, show backslash.toNat = 92 from rfl] at this
    omega
  · rw [UInt8.lt_iff_toNat_lt, hn, show (0x80 : UInt8).toNat = 128 from rfl] at hlt
    omega

/-- `charLen` by the value of the first byte. -/
theorem charLen_ofNat {n : Nat} (h : n < 256) :
    charLen (UInt8.ofNat n) =
      if 0xC0 ≤ n ∧ n ≤ 0xDF then 2
      else if 0xE0 ≤ n ∧ n ≤ 0xEF then 3
      else if 0xF0 ≤ n ∧ n ≤ 0xF7 then 4 else 1 := by
  have hn := ofNat_toNat_of_lt h
  simp only [charLen, UInt8.le_iff_toNat_le, hn]
  rfl

/-- The bytes of a character beyond ASCII: the first one gives the length, none is a backslash. -/
theorem pushCp_spec {cp : Nat} (h₁ : 0x80 ≤ cp) (h₂ : cp ≤ 0x10FFFF) :
    ∃ b t, pushCp cp = b :: t ∧ charLen b = t.length + 1 ∧
      ∀ x ∈ pushCp cp, x ≠ backslash ∧ ¬ x < 0x80 := by
  rw [pushCp, if_neg (by omega)]
  split
  · refine ⟨_, _, rfl, ?_, ?_⟩
    · rw [charLen_ofNat (by omega), if_pos (by omega)]
      rfl
    · intro x hx
      simp only [List.mem_cons, List.not_mem_nil, or_false] at hx
      rcases hx with rfl | rfl <;> exact not_ascii_of_le (by omega) (by omega)
  · split
    · refine ⟨_, _, rfl, ?_, ?_⟩
      · rw [charLen_ofNat (by omega), if_neg (by omega), if_pos (by omega)]
        rfl
      · intro x hx
        simp only [List.mem_cons, List.not_mem_nil, or_false] at hx
        rcases hx with rfl | rfl | rfl <;> exact not_ascii_of_le (by omega) (by omega)
    · refine ⟨_, _, rfl, ?_, ?_⟩
      · rw [charLen_ofNat (by omega), if_neg (by omega), if_neg (by omega), if_pos (by omega)]
        rfl
      · intro x hx
        simp only [List.mem_cons, List.not_mem_nil, or_false] at hx
        rcases hx with rfl | rfl | rfl | rfl <;> exact not_ascii_of_le (by omega) (by omega)

theorem decodeFrom_plain {n : Nat} {b : UInt8} {r : Bytes} (hb : b ≠ backslash) :
    decodeFrom (n + 1) (b :: r) = b :: decodeFrom n r := by
  rw [decodeFrom.eq_def]
  simp only [show (b == backslash) = false by simpa using hb]

/-- Bytes that are no backslash are copied, one step each. -/
theorem decodeFrom_append {s r : Bytes} {n : Nat} (hs : ∀ b ∈ s, b ≠ backslash) :
    decodeFrom (n + s.length) (s ++ r) = s ++ decodeFrom n r := by
  induction s with
  | nil => rfl
  | cons b s ih =>
    rw [List.length_cons, ← Nat.add_assoc, List.cons_append,
      decodeFrom_plain (hs b (by simp)), ih fun x hx => hs x (List.mem_cons_of_mem _ hx),
      List.cons_append]

theorem pushCp_toNat {b : UInt8} (h : b < 0x80) : pushCp b.toNat = [b] := by
  rw [UInt8.lt_iff_toNat_lt, show (0x80 : UInt8).toNat = 128 from rfl] at h
  rw [pushCp, if_pos (by omega), UInt8.ofNat_toNat]

theorem unescape_lt {e c : UInt8} (h : unescape e = some c) : c < 0x80 ∧ e ≠ 117 := by
  unfold unescape at h
  refine ⟨?_, ?_⟩
  · repeat' split at h
    all_goals first | (cases h; decide) | exact absurd h (by simp)
  · rintro rfl
    exact absurd h (by simp)

/-! One step of each scan, by what stands at the front. -/

theorem countFrom_plain {n : Nat} {b : UInt8} {r : Bytes} (hb : b ≠ backslash) :
    countFrom (n + 1) (b :: r) =
      1 + countFrom n (if b < 0x80 then r else (b :: r).drop (charLen b)) := by
  rw [countFrom.eq_def]
  simp only [if_neg hb]
  split
  · rfl
  · rfl

theorem countFrom_escape {n : Nat} {e : UInt8} {r : Bytes} (he : e ≠ 117) :
    countFrom (n + 1) (backslash :: e :: r) = 1 + countFrom n r := by
  rw [countFrom.eq_def]
  simp only [if_true, if_neg he]

theorem countFrom_unit {n : Nat} {r : Bytes} :
    countFrom (n + 1) (backslash :: 117 :: r) =
      1 + countFrom n (if (hex4 (r.take 4)).any isHigh ∧ (lowEscape (r.drop 4)).isSome
        then r.drop 10 else r.drop 4) := by
  rw [countFrom.eq_def]
  simp only [if_true]
  split
  · rfl
  · rfl

theorem decodeFrom_escape {n : Nat} {e c : UInt8} {r : Bytes} (he : unescape e = some c) :
    decodeFrom (n + 1) (backslash :: e :: r) = c :: decodeFrom n r := by
  rw [decodeFrom.eq_def]
  simp only [beq_self_eq_true, he]

theorem decodeFrom_unit {n : Nat} {r : Bytes} {h : Nat} (hh : hex4 (r.take 4) = some h) :
    decodeFrom (n + 1) (backslash :: 117 :: r) =
      if isHigh h then
        match lowEscape (r.drop 4) with
        | some l =>
          pushCp (0x10000 + (h - 0xD800) * 0x400 + (l - 0xDC00)) ++ decodeFrom n (r.drop 10)
        | none => pushCp 0xFFFD ++ decodeFrom n (r.drop 4)
      else pushCp h ++ decodeFrom n (r.drop 4) := by
  rw [decodeFrom.eq_def]
  simp only [beq_self_eq_true, show unescape 117 = none by decide, if_true, hh]

theorem lowEscape_of_pair {hex r : Bytes} {l : Nat} (hh : hex4 hex = some l)
    (hl : isLow l = true) : lowEscape (backslash :: 117 :: (hex ++ r)) = some l := by
  have htake : (backslash :: 117 :: (hex ++ r)).take 2 = [backslash, 117] := rfl
  rw [lowEscape, if_pos htake]
  show (hex4 ((hex ++ r).take 4)).filter isLow = some l
  rw [(hex4_take hh).1, hh, Option.filter_some, if_pos hl]

/-- **Both scans follow the reading**, one character a step. Induction on the derivation; the fuel
only has to reach the end of the body. -/
theorem scan_of_decodes {raw : Bytes} {cps : List Nat} (h : Decodes raw cps) (n : Nat)
    (hn : raw.length ≤ n) :
    countFrom n raw = cps.length ∧ decodeFrom n raw = cps.flatMap pushCp := by
  induction h generalizing n with
  | nil => cases n <;> exact ⟨rfl, rfl⟩
  | @ascii b r cps hq hb h32 hlt _ ih =>
    obtain ⟨n, rfl⟩ : ∃ k, n = k + 1 := ⟨n - 1, by rw [List.length_cons] at hn; omega⟩
    obtain ⟨hcount, hdec⟩ := ih n (by rw [List.length_cons] at hn; omega)
    refine ⟨?_, ?_⟩
    · rw [countFrom_plain hb, if_pos hlt, hcount, List.length_cons, Nat.add_comm]
    · rw [decodeFrom_plain hb, hdec, List.flatMap_cons, pushCp_toNat hlt]
      rfl
  | @utf8 cp r cps h₁ h₂ _ _ ih =>
    obtain ⟨b, t, hbt, hlen, hall⟩ := pushCp_spec h₁ h₂
    rw [List.length_append] at hn
    have hpos : (pushCp cp).length = t.length + 1 := by rw [hbt, List.length_cons]
    refine ⟨?_, ?_⟩
    · -- the count takes the whole character by its first byte
      obtain ⟨k, rfl⟩ : ∃ k, n = k + 1 := ⟨n - 1, by omega⟩
      obtain ⟨hb, hb80⟩ := hall b (by rw [hbt]; simp)
      have hdrop : (b :: (t ++ r)).drop (charLen b) = r := by
        rw [hlen, List.drop_succ_cons, List.drop_left]
      rw [hbt, List.cons_append, countFrom_plain hb, if_neg hb80, hdrop, (ih k (by omega)).1,
        List.length_cons, Nat.add_comm]
    · -- the decoder takes it byte by byte
      obtain ⟨k, rfl⟩ : ∃ k, n = k + (pushCp cp).length := ⟨n - (pushCp cp).length, by omega⟩
      rw [decodeFrom_append fun x hx => (hall x hx).1, (ih k (by omega)).2, List.flatMap_cons]
  | @escape e c r cps he _ ih =>
    obtain ⟨k, rfl⟩ : ∃ k, n = k + 1 := ⟨n - 1, by simp only [List.length_cons] at hn; omega⟩
    obtain ⟨hcount, hdec⟩ := ih k (by simp only [List.length_cons] at hn; omega)
    obtain ⟨hc, he117⟩ := unescape_lt he
    refine ⟨?_, ?_⟩
    · rw [countFrom_escape he117, hcount, List.length_cons, Nat.add_comm]
    · rw [decodeFrom_escape he, hdec, List.flatMap_cons, pushCp_toNat hc]
      rfl
  | @unit hex r h cps hh hhigh _ ih =>
    obtain ⟨htake, hdrop⟩ := hex4_take (r := r) hh
    have hlen := hex4_length hh
    simp only [List.length_cons, List.length_append] at hn
    obtain ⟨k, rfl⟩ : ∃ k, n = k + 1 := ⟨n - 1, by omega⟩
    obtain ⟨hcount, hdec⟩ := ih k (by omega)
    refine ⟨?_, ?_⟩
    · rw [countFrom_unit, if_neg (by rw [htake, hh]; simp [hhigh]), hdrop, hcount,
        List.length_cons, Nat.add_comm]
    · rw [decodeFrom_unit (by rw [htake]; exact hh), if_neg (by rw [hhigh]; simp), hdrop, hdec,
        List.flatMap_cons]
  | @pair hex hex' r h l cps hh hhigh hl hlow _ ih =>
    obtain ⟨htake, hdrop⟩ := hex4_take (r := backslash :: 117 :: (hex' ++ r)) hh
    have hlen := hex4_length hh
    have hlen' := hex4_length hl
    simp only [List.length_cons, List.length_append] at hn
    obtain ⟨k, rfl⟩ : ∃ k, n = k + 1 := ⟨n - 1, by omega⟩
    obtain ⟨hcount, hdec⟩ := ih k (by omega)
    -- the second escape is a low surrogate, and both scans skip it with the first
    have hlowEsc := lowEscape_of_pair (r := r) hl hlow
    have hdrop10 : (hex ++ backslash :: 117 :: (hex' ++ r)).drop 10 = r := by
      rw [show 10 = 4 + 6 from rfl, ← List.drop_drop, hdrop]
      show (hex' ++ r).drop 4 = r
      exact (hex4_take hl).2
    refine ⟨?_, ?_⟩
    · rw [countFrom_unit, if_pos (by rw [htake, hh, hdrop, hlowEsc]; simp [hhigh]), hdrop10, hcount,
        List.length_cons, Nat.add_comm]
    · rw [decodeFrom_unit (by rw [htake]; exact hh), if_pos hhigh, hdrop, hlowEsc]
      simp only [hdrop10, hdec, List.flatMap_cons]
  | @loneHigh hex r h cps hh hhigh hlone _ ih =>
    obtain ⟨htake, hdrop⟩ := hex4_take (r := r) hh
    have hlen := hex4_length hh
    simp only [List.length_cons, List.length_append] at hn
    obtain ⟨k, rfl⟩ : ∃ k, n = k + 1 := ⟨n - 1, by omega⟩
    obtain ⟨hcount, hdec⟩ := ih k (by omega)
    refine ⟨?_, ?_⟩
    · rw [countFrom_unit, if_neg (by rw [hdrop, hlone]; simp), hdrop, hcount, List.length_cons,
        Nat.add_comm]
    · rw [decodeFrom_unit (by rw [htake]; exact hh), if_pos hhigh, hdrop, hlone]
      simp only [hdec, List.flatMap_cons]

/-- A body without escapes and beyond-ASCII bytes decodes to itself, one code point a byte. -/
theorem decodes_ascii_length {raw : Bytes} {cps : List Nat} (h : Decodes raw cps)
    (hb : backslash ∉ raw) (hlt : ∀ b ∈ raw, b < 0x80) : raw.length = cps.length := by
  induction h with
  | nil => rfl
  | ascii _ _ _ _ _ ih =>
    rw [List.length_cons, List.length_cons, ih (fun hm => hb (List.mem_cons_of_mem _ hm))
      fun b hm => hlt b (List.mem_cons_of_mem _ hm)]
  | @utf8 cp r cps h₁ h₂ _ _ ih =>
    obtain ⟨b, t, hbt, -, hall⟩ := pushCp_spec h₁ h₂
    exact absurd (hlt b (by rw [hbt]; simp)) (hall b (by rw [hbt]; simp)).2
  | escape => exact absurd (by simp) hb
  | unit => exact absurd (by simp) hb
  | pair => exact absurd (by simp) hb
  | loneHigh => exact absurd (by simp) hb

theorem decodeFrom_of_not_mem {raw : Bytes} (hb : backslash ∉ raw) :
    decodeFrom raw.length raw = raw := by
  have := decodeFrom_append (r := []) (n := 0) fun b hm heq => hb (heq ▸ hm : backslash ∈ raw)
  simpa [decodeFrom] using this

/-- **`count_chars` counts code points** … -/
theorem countChars_of_decodes {raw : Bytes} {cps : List Nat} (h : Decodes raw cps) :
    countChars raw = cps.length := by
  unfold countChars
  split
  · next hfast => exact decodes_ascii_length h hfast.1 hfast.2
  · exact (scan_of_decodes h _ (le_refl _)).1

/-- … **and the text of a body is their UTF-8.** -/
theorem textOf_of_decodes {raw : Bytes} {cps : List Nat} (h : Decodes raw cps) :
    textOf raw = cps.flatMap pushCp := by
  rw [← (scan_of_decodes h _ (le_refl _)).2]
  unfold textOf
  split
  · rfl
  · next hb => rw [decodeFrom_of_not_mem hb]

end Castrum
