import Castrum.Lib.Scan
import Mathlib.Tactic
import Mathlib.Data.List.Basic
import Mathlib.Data.List.DropRight

/-!
# Castrum — byte slices and the hex tables (`rust/util/bytes.rs`)

Every slice of the Rust core is a `List UInt8` here. This module holds the pieces of
`rust/util/bytes.rs` the signed-cookie path rests on: the hex digit table, the 64-digit
decoder, and the `rposition` scan that splits `value.signature`.

* `hexVal_eq_some_iff` — the table accepts exactly the sixteen digits, in either case, and
  reads a digit as the lowercase letter does;
* `hexPairs_eq_some_iff` / `hexDecode32_eq_some_iff` — decoding inverts `hexEncode` up to the
  case of the digits;
* `rposition_eq_some_iff` — the scan returns the split point at the **last** hit.
-/

namespace Castrum

/-- A byte slice (`&[u8]`, `Uint8Array`). -/
abbrev Bytes := List UInt8

/-- The bytes of a text. -/
def utf8 (s : String) : Bytes := s.toUTF8.data.toList

/-- `u8::is_ascii_whitespace`. -/
def isAsciiWhitespace (b : UInt8) : Bool := b = 32 || b = 9 || b = 10 || b = 12 || b = 13

def trimAsciiWhitespace (bytes : Bytes) : Bytes :=
  ((bytes.dropWhile isAsciiWhitespace).reverse.dropWhile isAsciiWhitespace).reverse

/-! ## The hex table -/

/-- Lowercase digits, `HEX_LOWER`. -/
def hexLower : Bytes :=
  [48, 49, 50, 51, 52, 53, 54, 55, 56, 57, 97, 98, 99, 100, 101, 102]

/-- Value of a single hex digit, or `none` if `b` is not one (`HEX_VAL_LUT`). -/
def hexVal (b : UInt8) : Option UInt8 :=
  if 48 ≤ b ∧ b ≤ 57 then some (b - 48)
  else if 97 ≤ b ∧ b ≤ 102 then some (b - 97 + 10)
  else if 65 ≤ b ∧ b ≤ 70 then some (b - 65 + 10)
  else none

/-- ASCII lowercasing of one byte. -/
def asciiLower (b : UInt8) : UInt8 := if 65 ≤ b ∧ b ≤ 90 then b + 32 else b

/-- The lowercase digit of a nibble. -/
def hexDigit (n : UInt8) : UInt8 := hexLower.getD n.toNat 0

/-- Lowercase hex of a byte string (`hex_encode`). -/
def hexEncode : Bytes → Bytes
  | [] => []
  | b :: bs => hexDigit (b >>> 4) :: hexDigit (b &&& 0x0f) :: hexEncode bs

/-- The digit loop of `hex_decode_32`: two digits a byte, `none` at the first non-digit. -/
def hexPairs : Bytes → Option Bytes
  | [] => some []
  | [_] => none
  | a :: b :: rest =>
    match hexVal a, hexVal b, hexPairs rest with
    | some hi, some lo, some out => some ((hi <<< 4 ||| lo) :: out)
    | _, _, _ => none

/-- Decode exactly 64 hex characters into 32 bytes (`hex_decode_32`). -/
def hexDecode32 (hex : Bytes) : Option Bytes :=
  if hex.length ≠ 64 then none else hexPairs hex

/-- A byte reads as the digit `n` exactly when it spells `n`'s lowercase digit up to case. The
table has 256 entries, so the statement is settled by evaluation. -/
theorem hexVal_eq_some_iff (a n : UInt8) (hn : n < 16) :
    hexVal a = some n ↔ asciiLower a = hexDigit n := by
  have key : ∀ (a : Fin 256) (n : Fin 16),
      (hexVal (UInt8.ofNat a.val) = some (UInt8.ofNat n.val) ↔
        asciiLower (UInt8.ofNat a.val) = hexDigit (UInt8.ofNat n.val)) := by
    decide +kernel
  have h := key ⟨a.toNat, a.toNat_lt⟩ ⟨n.toNat, by simpa [UInt8.lt_iff_toNat_lt] using hn⟩
  simpa using h

/-- The table never returns more than a nibble. -/
theorem hexVal_lt {a n : UInt8} (h : hexVal a = some n) : n < 16 := by
  have key : ∀ a, ∀ n ∈ hexVal a, n < 16 := forall_byte (by decide +kernel)
  exact key a n h

/-- A byte is its two nibbles. -/
theorem nibbles_eq (x : UInt8) : (x >>> 4) <<< 4 ||| (x &&& 0x0f) = x := by
  have key : ∀ x : UInt8, (x >>> 4) <<< 4 ||| (x &&& 0x0f) = x := forall_byte (by decide +kernel)
  exact key x

/-- Splitting a byte packed from two nibbles gives the nibbles back. -/
theorem nibbles_pack (hi lo : UInt8) (h1 : hi < 16) (h2 : lo < 16) :
    (hi <<< 4 ||| lo) >>> 4 = hi ∧ (hi <<< 4 ||| lo) &&& 0x0f = lo := by
  have key : ∀ hi lo : Fin 16,
      (UInt8.ofNat hi.val <<< 4 ||| UInt8.ofNat lo.val) >>> 4 = UInt8.ofNat hi.val ∧
        (UInt8.ofNat hi.val <<< 4 ||| UInt8.ofNat lo.val) &&& 0x0f = UInt8.ofNat lo.val := by
    decide +kernel
  have := key ⟨hi.toNat, by simpa [UInt8.lt_iff_toNat_lt] using h1⟩
    ⟨lo.toNat, by simpa [UInt8.lt_iff_toNat_lt] using h2⟩
  simpa using this

/-- Both nibbles of a byte are below 16. -/
theorem nibbles_lt (x : UInt8) : x >>> 4 < 16 ∧ x &&& 0x0f < 16 := by
  have key : ∀ x : UInt8, x >>> 4 < 16 ∧ x &&& 0x0f < 16 := forall_byte (by decide +kernel)
  exact key x

/-- Decoding accepts exactly the hex spellings of `out`, in any case. Induction on the output,
two digits at a time. -/
theorem hexPairs_eq_some_iff (hex out : Bytes) :
    hexPairs hex = some out ↔ hex.map asciiLower = hexEncode out := by
  induction out generalizing hex with
  | nil =>
    match hex with
    | [] => simp [hexPairs, hexEncode]
    | [_] => simp [hexPairs, hexEncode]
    | a :: b :: rest =>
      simp only [hexPairs, hexEncode, List.map_cons]
      split <;> simp
  | cons x out ih =>
    -- Both sides are empty together, and a single digit spells nothing.
    match hex with
    | [] => simp [hexPairs, hexEncode]
    | [_] => simp [hexPairs, hexEncode]
    | a :: b :: rest =>
      simp only [hexPairs, hexEncode, List.map_cons, List.cons.injEq]
      rw [← hexVal_eq_some_iff a _ (nibbles_lt x).1, ← hexVal_eq_some_iff b _ (nibbles_lt x).2,
        ← ih]
      constructor
      · intro h
        split at h
        · next hi lo out' ha hb hr =>
          obtain ⟨rfl, rfl⟩ := List.cons.inj (Option.some.inj h)
          obtain ⟨h1, h2⟩ := nibbles_pack hi lo (hexVal_lt ha) (hexVal_lt hb)
          rw [h1, h2]
          exact ⟨ha, hb, hr⟩
        · exact absurd h (by simp)
      · rintro ⟨ha, hb, hr⟩
        rw [ha, hb, hr]
        simp [nibbles_eq]

theorem hexEncode_length (bs : Bytes) : (hexEncode bs).length = 2 * bs.length := by
  induction bs with
  | nil => rfl
  | cons b bs ih => simp only [hexEncode, List.length_cons, ih]; omega

/-- **`hex_decode_32` is exact.** It yields `out` exactly on the 64 digits that spell `out`'s 32
bytes, in either case. -/
theorem hexDecode32_eq_some_iff (hex out : Bytes) :
    hexDecode32 hex = some out ↔ out.length = 32 ∧ hex.map asciiLower = hexEncode out := by
  unfold hexDecode32
  have hlen : hex.map asciiLower = hexEncode out → hex.length = 2 * out.length := by
    intro h
    rw [← hexEncode_length, ← h, List.length_map]
  split
  · next hne =>
    simp only [reduceCtorEq, false_iff, not_and]
    intro h32 h
    exact hne (by rw [hlen h, h32])
  · next hne =>
    rw [hexPairs_eq_some_iff]
    constructor
    · intro h
      refine ⟨?_, h⟩
      have := hlen h
      omega
    · exact And.right

/-! ## Trimming -/

section

variable {s : Bytes} {b : UInt8}

theorem trimAsciiWhitespace_cons (hb : isAsciiWhitespace b = true) (s : Bytes) :
    trimAsciiWhitespace (b :: s) = trimAsciiWhitespace s := by
  rw [trimAsciiWhitespace, List.dropWhile_cons_of_pos hb]
  rfl

theorem trimAsciiWhitespace_concat (hb : isAsciiWhitespace b = true) (s : Bytes) :
    trimAsciiWhitespace (s ++ [b]) = trimAsciiWhitespace s := by
  rw [trimAsciiWhitespace, trimAsciiWhitespace, List.dropWhile_append]
  split
  · next hempty =>
    rw [List.isEmpty_iff.mp hempty, List.dropWhile_cons_of_pos hb]
    rfl
  · rw [List.reverse_append, List.reverse_singleton, List.singleton_append,
      List.dropWhile_cons_of_pos hb]

/-- Nothing is trimmed where nothing is to be trimmed at either end. -/
theorem trimAsciiWhitespace_eq_self (hhead : ∀ b ∈ s.head?, isAsciiWhitespace b = false)
    (hlast : ∀ b ∈ s.getLast?, isAsciiWhitespace b = false) : trimAsciiWhitespace s = s := by
  have hdrop : ∀ l : Bytes, (∀ b ∈ l.head?, isAsciiWhitespace b = false) →
      l.dropWhile isAsciiWhitespace = l := by
    intro l hl
    cases l with
    | nil => rfl
    | cons b l => exact List.dropWhile_cons_of_neg (by rw [hl b rfl]; decide)
  rw [trimAsciiWhitespace, hdrop s hhead, hdrop s.reverse (by rwa [List.head?_reverse]),
    List.reverse_reverse]

/-- Where there is no white space, there is nothing to trim. -/
theorem trimAsciiWhitespace_of_forall (h : ∀ b ∈ s, isAsciiWhitespace b = false) :
    trimAsciiWhitespace s = s :=
  trimAsciiWhitespace_eq_self (fun b hb => h b (List.mem_of_head? hb))
    (fun b hb => h b (List.mem_of_getLast? hb))

theorem trimAsciiWhitespace_sublist (bytes : Bytes) : (trimAsciiWhitespace bytes).Sublist bytes :=
  (List.rdropWhile_prefix isAsciiWhitespace (bytes.dropWhile isAsciiWhitespace)).sublist.trans
    (bytes.dropWhile_sublist isAsciiWhitespace)

theorem length_trimAsciiWhitespace_le (bytes : Bytes) :
    (trimAsciiWhitespace bytes).length ≤ bytes.length :=
  (trimAsciiWhitespace_sublist bytes).length_le

theorem trimAsciiWhitespace_trim (bytes : Bytes) :
    trimAsciiWhitespace (trimAsciiWhitespace bytes) = trimAsciiWhitespace bytes := by
  have htrim : ∀ l, trimAsciiWhitespace l =
      (l.dropWhile isAsciiWhitespace).rdropWhile isAsciiWhitespace := fun _ => rfl
  have hfront : (trimAsciiWhitespace bytes).dropWhile isAsciiWhitespace =
      trimAsciiWhitespace bytes := by
    rw [List.dropWhile_eq_self_iff]
    intro hpos hspace
    -- its first byte is the first byte that is left of the front
    have hprefix : trimAsciiWhitespace bytes <+: bytes.dropWhile isAsciiWhitespace := by
      rw [htrim]
      exact List.rdropWhile_prefix _ _
    have hlt : 0 < (bytes.dropWhile isAsciiWhitespace).length :=
      Nat.lt_of_lt_of_le hpos hprefix.length_le
    apply List.dropWhile_get_zero_not isAsciiWhitespace bytes hlt
    rw [List.get_eq_getElem, ← hprefix.getElem hpos]
    exact hspace
  rw [htrim (trimAsciiWhitespace bytes), hfront, htrim bytes, List.rdropWhile_idempotent]

/-- In front of what is trimmed stays what ends as it begins, in no white space. -/
theorem trimAsciiWhitespace_append {p : Bytes} (hne : p ≠ [])
    (hhead : ∀ b ∈ p.head?, isAsciiWhitespace b = false)
    (hlast : ∀ b ∈ p.getLast?, isAsciiWhitespace b = false) (q : Bytes) :
    ∃ q', q' <+: q ∧ trimAsciiWhitespace (p ++ q) = p ++ q' := by
  have hfront : ∀ q, (p ++ q).head? = p.head? := by
    intro q
    cases p with
    | nil => exact absurd rfl hne
    | cons b p => rfl
  induction q using List.reverseRecOn with
  | nil => exact ⟨[], List.prefix_rfl, by rw [List.append_nil, trimAsciiWhitespace_eq_self hhead hlast]⟩
  | append_singleton q b ih =>
    cases hb : isAsciiWhitespace b with
    | true =>
      obtain ⟨q', hpre, htrim⟩ := ih
      refine ⟨q', hpre.trans (List.prefix_append q [b]), ?_⟩
      rw [← List.append_assoc, trimAsciiWhitespace_concat hb, htrim]
    | false =>
      refine ⟨q ++ [b], List.prefix_rfl, trimAsciiWhitespace_eq_self ?_ ?_⟩
      · rwa [hfront]
      · rw [← List.append_assoc, List.getLast?_concat]
        intro c hc
        rwa [← Option.some.inj hc]

end

/-! ## `rposition` -/

/-- Index of the last byte satisfying `p` (`iter().rposition(..)`). -/
def rposition (p : UInt8 → Bool) : Bytes → Option Nat
  | [] => none
  | b :: rest =>
    match rposition p rest with
    | some i => some (i + 1)
    | none => if p b then some 0 else none

/-- The scan finds nothing exactly when no byte satisfies `p`. -/
theorem rposition_eq_none_iff (p : UInt8 → Bool) (l : Bytes) :
    rposition p l = none ↔ ∀ b ∈ l, p b = false := by
  induction l with
  | nil => simp [rposition]
  | cons b rest ih =>
    simp only [rposition, List.mem_cons, forall_eq_or_imp]
    cases h : rposition p rest with
    | some i =>
      rw [h] at ih
      simp only [reduceCtorEq, false_iff] at ih ⊢
      exact fun hb => ih hb.2
    | none =>
      have hrest := ih.mp h
      cases hb : p b with
      | true => simp
      | false => simpa using hrest

/-- **The scan splits at the last hit**: everything after the returned index misses `p`. -/
theorem rposition_eq_some_iff (p : UInt8 → Bool) (l : Bytes) (i : Nat) :
    rposition p l = some i ↔
      ∃ pre b post, l = pre ++ b :: post ∧ pre.length = i ∧ p b = true ∧
        ∀ x ∈ post, p x = false := by
  induction l generalizing i with
  | nil => simp [rposition]
  | cons b rest ih =>
    simp only [rposition]
    cases h : rposition p rest with
    | some j =>
      obtain ⟨pre, d, post, hl, hlen, hd, hpost⟩ := (ih j).mp h
      simp only [Option.some.injEq]
      constructor
      · rintro rfl
        exact ⟨b :: pre, d, post, by simp [hl], by simp [hlen], hd, hpost⟩
      · rintro ⟨pre', d', post', hl', rfl, hd', hpost'⟩
        -- the hit of the tail cannot lie in `post'`, so the two splits coincide
        cases pre' with
        | nil =>
          obtain ⟨rfl, rfl⟩ := List.cons.inj (by simpa using hl')
          have : d ∈ rest := by rw [hl]; simp
          rw [hpost' d this] at hd
          exact absurd hd (by simp)
        | cons b' pre' =>
          obtain ⟨rfl, hrest⟩ := List.cons.inj (by simpa using hl')
          have := (ih pre'.length).mpr ⟨pre', d', post', hrest, rfl, hd', hpost'⟩
          rw [h] at this
          simpa using this
    | none =>
      have hnone := (rposition_eq_none_iff p rest).mp h
      simp only
      constructor
      · intro hi
        by_cases hb : p b = true
        · rw [if_pos hb] at hi
          cases hi
          exact ⟨[], b, rest, rfl, rfl, hb, hnone⟩
        · rw [if_neg hb] at hi
          exact absurd hi (by simp)
      · rintro ⟨pre', d', post', hl', rfl, hd', hpost'⟩
        cases pre' with
        | nil =>
          obtain ⟨rfl, rfl⟩ := List.cons.inj (by simpa using hl')
          simp [hd']
        | cons b' pre' =>
          obtain ⟨rfl, hrest⟩ := List.cons.inj (by simpa using hl')
          have : d' ∈ rest := by rw [hrest]; simp
          rw [hnone d' this] at hd'
          exact absurd hd' (by simp)

end Castrum
