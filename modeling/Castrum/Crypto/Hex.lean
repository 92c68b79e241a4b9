import Castrum.Util.Bytes

/-!
# Castrum — hex decoding (`rust/crypto/base64.rs`)

`hex_decode` has two tiers: the `faster-hex` engine, and on x86-64 with AVX2 a kernel of its own
that takes 64 digits a step and leaves the rest to the engine. The kernel classifies bytes after
folding case with `| 0x20`, for digits as well as for letters.

* `laneMask_eq` — the bytes the kernel takes for digits, by evaluation over all of them;
* `decodeChunk_eq` — the shuffles put the 32 bytes of a chunk in order;
* `hexFast_eq` — the kernel reads each byte of a full chunk as the digit it folds to;
* `hexDecode_exact_iff` — the inputs on which both entry points agree with the table decoder.
-/

namespace Castrum

/-- The `faster-hex` crate. -/
structure HexEngine where
  encode : Bytes → Bytes
  decode : Bytes → Option Bytes

/-- `faster-hex` writes lowercase digits, and reads the digits of `HEX_VAL_LUT` and nothing else. -/
structure HexEngine.Lawful (E : HexEngine) : Prop where
  encode_eq : ∀ bs, E.encode bs = hexEncode bs
  decode_eq : ∀ s, s.length % 2 = 0 → E.decode s = hexPairs s

/-! ## One byte lane -/

/-- A byte as the instructions with `epi8` compare it. -/
def signed (b : UInt8) : Int := if b < 0x80 then b.toNat else b.toNat - 256

/-- `_mm256_cmpgt_epi8` on one lane. -/
def cmpgt (a b : UInt8) : UInt8 := if signed b < signed a then 0xff else 0

/-- The validity mask of one lane. -/
def laneMask (b : UInt8) : UInt8 :=
  let o := b ||| 0x20
  (cmpgt o (48 - 1) &&& cmpgt (57 + 1) o) ||| (cmpgt o (97 - 1) &&& cmpgt (102 + 1) o)

/-- The digit value of one lane. -/
def laneValue (b : UInt8) : UInt8 :=
  let o := b ||| 0x20
  o - 48 - (cmpgt o (97 - 1) &&& 39)

/-! ## Registers -/

/-- `_mm256_movemask_epi8(v) == -1`. -/
def movemaskFull (v : Bytes) : Bool := v.all fun m => m &&& 0x80 ≠ 0

/-- `_mm256_maddubs_epi16` with the pattern `[16, 1]`. -/
def maddubs : Bytes → List Nat
  | a :: b :: v => min (a.toNat * 16 + b.toNat * 1) 0x7fff :: maddubs v
  | _ => []

/-- `_mm256_packus_epi16`: per 128-bit lane, eight words of each operand. -/
def packus (p q : List Nat) : Bytes :=
  (p.take 8 ++ q.take 8 ++ p.drop 8 ++ q.drop 8).map fun n => UInt8.ofNat (min n 0xff)

/-- `_mm256_permute4x64_epi64`. -/
def permute4x64 (v : Bytes) (imm : Nat) : Bytes :=
  [imm % 4, imm / 4 % 4, imm / 16 % 4, imm / 64 % 4].flatMap fun i => (v.drop (8 * i)).take 8

/-! ## The kernel -/

/-- Decode 64 digits, or `none` when a lane is not valid (`decode_chunk`). -/
def decodeChunk (chars : Bytes) : Option Bytes :=
  let lo := chars.take 32
  let hi := chars.drop 32
  if movemaskFull (lo.map laneMask) && movemaskFull (hi.map laneMask) then
    some (permute4x64 (packus (maddubs (lo.map laneValue)) (maddubs (hi.map laneValue))) 0b11011000)
  else none

/-- `hex_fast::decode`: full chunks by the kernel, the tail by the engine. -/
def hexFast (E : HexEngine) (input : Bytes) : Option Bytes :=
  if 64 ≤ input.length then do
    let chunk ← decodeChunk (input.take 64)
    let rest ← hexFast E (input.drop 64)
    some (chunk ++ rest)
  else if input = [] then some []
  else E.decode input
termination_by input.length
decreasing_by
  rw [List.length_drop]
  omega

/-- The decoder of this machine. -/
def hexTier (E : HexEngine) (avx2 : Bool) (input : Bytes) : Except String Bytes :=
  match if avx2 then hexFast E input else E.decode input with
  | some out => .ok out
  | none => .error "invalid hex digit"

def hexDecodeBytes (E : HexEngine) (avx2 : Bool) (input : Bytes) : Except String Bytes :=
  if input.length % 2 ≠ 0 then .error "odd hex length" else hexTier E avx2 input

/-- The bytes written and the buffer after it (`hex_decode_into_slice`). -/
def hexDecodeIntoSlice (E : HexEngine) (avx2 : Bool) (input out : Bytes) :
    Except String (Nat × Bytes) :=
  if input.length % 2 ≠ 0 then .error "odd hex length"
  else
    let needed := input.length / 2
    if out.length < needed then .error "hex decode: output buffer too small"
    else
      match hexTier E avx2 input with
      | .ok decoded => .ok (decoded.length, decoded ++ out.drop needed)
      | .error e => .error e

def hexEncodeBytes (E : HexEngine) (input : Bytes) : Bytes := E.encode input

/-! ## Lanes -/

/-- The control bytes that `| 0x20` folds onto the digits. -/
def FoldsToDigit (b : UInt8) : Prop := 0x10 ≤ b ∧ b ≤ 0x19

instance (b : UInt8) : Decidable (FoldsToDigit b) := inferInstanceAs (Decidable (_ ∧ _))

/-- The byte is one the kernel reads as a digit. -/
def Loose (b : UInt8) : Prop := (hexVal b).isSome ∨ FoldsToDigit b

instance (b : UInt8) : Decidable (Loose b) := inferInstanceAs (Decidable (_ ∨ _))

/-- **The kernel takes the control bytes `0x10`..`0x19` for digits.** -/
theorem laneMask_eq (b : UInt8) : laneMask b = if Loose b then 0xff else 0 := by
  have key : ∀ b, laneMask b = if Loose b then 0xff else 0 := forall_byte (by decide +kernel)
  exact key b

theorem laneValue_eq {b n : UInt8} (h : hexVal b = some n) : laneValue b = n := by
  have key : ∀ b, ∀ n ∈ hexVal b, laneValue b = n := forall_byte (by decide +kernel)
  exact key b n h

theorem laneValue_lt {b : UInt8} (h : laneMask b ≠ 0) : laneValue b < 16 := by
  have key : ∀ b, laneMask b ≠ 0 → laneValue b < 16 := forall_byte (by decide +kernel)
  exact key b h

/-! ## Registers put the bytes in order -/

/-- Pairs of digit values as bytes. -/
def packPairs : Bytes → Bytes
  | a :: b :: v => (a <<< 4 ||| b) :: packPairs v
  | _ => []

theorem packPairs_append {v w : Bytes} (hv : v.length % 2 = 0) :
    packPairs (v ++ w) = packPairs v ++ packPairs w := by
  match v with
  | [] => rfl
  | [_] => simp at hv
  | a :: b :: v =>
    simp only [List.length_cons] at hv
    simp only [List.cons_append, packPairs, packPairs_append (v := v) (w := w) (by omega)]

theorem maddubs_length (v : Bytes) : (maddubs v).length = v.length / 2 := by
  match v with
  | [] => rfl
  | [_] => simp [maddubs]
  | a :: b :: v =>
    simp only [maddubs, List.length_cons, maddubs_length v]
    omega

theorem sat_pair {a b : UInt8} (ha : a < 16) (hb : b < 16) :
    UInt8.ofNat (min (min (a.toNat * 16 + b.toNat * 1) 0x7fff) 0xff) = a <<< 4 ||| b := by
  have key : ∀ a b : Fin 16, UInt8.ofNat (min (min ((UInt8.ofNat a.val).toNat * 16 +
      (UInt8.ofNat b.val).toNat * 1) 0x7fff) 0xff) =
        UInt8.ofNat a.val <<< 4 ||| UInt8.ofNat b.val := by decide +kernel
  have := key ⟨a.toNat, by simpa [UInt8.lt_iff_toNat_lt] using ha⟩
    ⟨b.toNat, by simpa [UInt8.lt_iff_toNat_lt] using hb⟩
  simpa using this

theorem maddubs_sat {v : Bytes} (h : ∀ b ∈ v, b < 16) :
    (maddubs v).map (fun n => UInt8.ofNat (min n 0xff)) = packPairs v := by
  match v with
  | [] => rfl
  | [_] => rfl
  | a :: b :: v =>
    rw [maddubs, packPairs, List.map_cons, sat_pair (h a (by simp)) (h b (by simp)),
      maddubs_sat fun x hx => h x (by simp [hx])]

/-- `0b11_01_10_00` swaps the two middle quarters of a register. -/
theorem permute4x64_blocks {a b c d : Bytes} (ha : a.length = 8) (hb : b.length = 8)
    (hc : c.length = 8) (hd : d.length = 8) :
    permute4x64 (a ++ b ++ c ++ d) 0b11011000 = a ++ c ++ b ++ d := by
  simp [permute4x64, List.drop_append, List.take_append, ha, hb, hc, hd, List.take_of_length_le,
    List.drop_of_length_le]

/-- The permutation undoes the interleaving of the pack. -/
theorem permute_packus {p q : List Nat} (hp : p.length = 16) (hq : q.length = 16) :
    permute4x64 (packus p q) 0b11011000 =
      p.map (fun n => UInt8.ofNat (min n 0xff)) ++ q.map fun n => UInt8.ofNat (min n 0xff) := by
  rw [packus, List.map_append, List.map_append, List.map_append,
    permute4x64_blocks (by simp [hp]) (by simp [hq]) (by simp [hp]) (by simp [hq]),
    ← List.map_append, List.take_append_drop, List.append_assoc, ← List.map_append,
    List.take_append_drop]

theorem movemaskFull_eq (v : Bytes) : movemaskFull (v.map laneMask) = v.all (fun b => decide (Loose b)) := by
  rw [movemaskFull, List.all_map]
  congr 1
  funext b
  rw [Function.comp, laneMask_eq]
  by_cases h : Loose b
  · rw [if_pos h, decide_eq_true h]
    decide
  · rw [if_neg h, decide_eq_false h]
    decide

/-- **One chunk**: the digits it folds to, packed in order. -/
theorem decodeChunk_eq {chars : Bytes} (h : chars.length = 64) :
    decodeChunk chars =
      if ∀ b ∈ chars, Loose b then some (packPairs (chars.map laneValue)) else none := by
  have hall : (movemaskFull ((chars.take 32).map laneMask) &&
      movemaskFull ((chars.drop 32).map laneMask)) = decide (∀ b ∈ chars, Loose b) := by
    rw [movemaskFull_eq, movemaskFull_eq, ← List.all_append, List.take_append_drop,
      Bool.eq_iff_iff]
    simp
  unfold decodeChunk
  simp only [hall, decide_eq_true_eq]
  split
  · next hloose =>
    have hlt : ∀ v : Bytes, (∀ b ∈ v, b ∈ chars) → ∀ x ∈ v.map laneValue, x < 16 := by
      intro v hv x hx
      obtain ⟨b, hb, rfl⟩ := List.mem_map.mp hx
      refine laneValue_lt ?_
      rw [laneMask_eq, if_pos (hloose b (hv b hb))]
      decide
    rw [permute_packus (by simp [maddubs_length, h]) (by simp [maddubs_length, h]),
      maddubs_sat (hlt _ fun b hb => List.mem_of_mem_take hb),
      maddubs_sat (hlt _ fun b hb => List.mem_of_mem_drop hb),
      ← packPairs_append (by simp [h]), ← List.map_append, List.take_append_drop]
  · rfl

/-! ## Whole inputs -/

/-- The table decoder, in the same terms. -/
theorem hexPairs_eq {s : Bytes} (h : s.length % 2 = 0) :
    hexPairs s = if ∀ b ∈ s, (hexVal b).isSome then some (packPairs (s.map laneValue)) else none := by
  match s with
  | [] => rfl
  | [_] => simp at h
  | a :: b :: s =>
    simp only [List.length_cons] at h
    rw [hexPairs, hexPairs_eq (s := s) (by omega)]
    cases ha : hexVal a with
    | none => simp [ha]
    | some x =>
      cases hb : hexVal b with
      | none => simp [hb]
      | some y =>
        by_cases hs : ∀ c ∈ s, (hexVal c).isSome
        · rw [if_pos hs, if_pos (by simpa [ha, hb] using hs)]
          simp [packPairs, laneValue_eq ha, laneValue_eq hb]
        · rw [if_neg hs, if_neg (by simpa [ha, hb] using hs)]

/-- How many bytes the kernel takes. -/
def fullChunks (input : Bytes) : Nat := 64 * (input.length / 64)

/-- The kernel and its tail accept the input. -/
def KernelAccepts (input : Bytes) : Prop :=
  (∀ b ∈ input.take (fullChunks input), Loose b) ∧
    ∀ b ∈ input.drop (fullChunks input), (hexVal b).isSome

instance (input : Bytes) : Decidable (KernelAccepts input) := inferInstanceAs (Decidable (_ ∧ _))

variable {E : HexEngine} {input : Bytes}

/-- Without a full chunk, the table checks every digit. -/
theorem kernelAccepts_short (h : input.length < 64) :
    KernelAccepts input ↔ ∀ b ∈ input, (hexVal b).isSome := by
  have hfull : fullChunks input = 0 := by
    rw [fullChunks]
    omega
  simp [KernelAccepts, hfull]

/-- The first chunk is read by the kernel, the rest as before. -/
theorem kernelAccepts_chunk (h : 64 ≤ input.length) :
    KernelAccepts input ↔ (∀ b ∈ input.take 64, Loose b) ∧ KernelAccepts (input.drop 64) := by
  have hfull : fullChunks input = 64 + fullChunks (input.drop 64) := by
    rw [fullChunks, fullChunks, List.length_drop]
    omega
  rw [KernelAccepts, KernelAccepts, hfull, List.take_add, ← List.drop_drop, ← and_assoc]
  refine and_congr_left fun _ => ?_
  simp only [List.mem_append, or_imp, forall_and]

theorem packPairs_chunk (h : 64 ≤ input.length) : packPairs (input.map laneValue) =
    packPairs ((input.take 64).map laneValue) ++ packPairs ((input.drop 64).map laneValue) := by
  rw [← packPairs_append (by simp [h]), ← List.map_append, List.take_append_drop]

/-- **The kernel reads each byte of a full chunk as the digit it folds to**, the tail by the table.
Induction on the number of chunks. -/
theorem hexFast_eq (hE : E.Lawful) {input : Bytes} (h : input.length % 2 = 0) :
    hexFast E input =
      if KernelAccepts input then some (packPairs (input.map laneValue)) else none := by
  induction hk : input.length / 64 generalizing input with
  | zero =>
    have hlt : ¬ 64 ≤ input.length := by omega
    rw [hexFast, if_neg hlt]
    split
    · next hnil =>
      subst hnil
      rfl
    · rw [hE.decode_eq input h, hexPairs_eq h]
      simp only [kernelAccepts_short (Nat.lt_of_not_le hlt)]
  | succ k ih =>
    have hle : 64 ≤ input.length := by omega
    have hdrop : (input.drop 64).length = input.length - 64 := List.length_drop
    have hrest := @ih (input.drop 64) (by omega) (by omega)
    have haccepts := kernelAccepts_chunk hle
    rw [hexFast, if_pos hle, decodeChunk_eq (by simp [hle]), hrest]
    by_cases h₁ : ∀ b ∈ input.take 64, Loose b
    · by_cases h₂ : KernelAccepts (input.drop 64)
      · rw [if_pos h₁, if_pos h₂, if_pos (haccepts.mpr ⟨h₁, h₂⟩), packPairs_chunk hle]
        rfl
      · rw [if_pos h₁, if_neg h₂, if_neg fun h => h₂ (haccepts.mp h).2]
        rfl
    · rw [if_neg h₁, if_neg fun h => h₁ (haccepts.mp h).1]
      rfl

/-! ## Exactness -/

/-- The decoder succeeds exactly on hex digits, and then with what the table decoder gives. -/
def Exact (input : Bytes) (result : Except String Bytes) : Prop :=
  ((∃ out, result = .ok out) ↔ ∀ b ∈ input, (hexVal b).isSome) ∧
    ∀ out, result = .ok out → hexPairs input = some out

/-- No byte that folds to a digit is in a full chunk, or some byte is not even read as one. -/
def NoFolding (avx2 : Bool) (input : Bytes) : Prop :=
  avx2 = false ∨ (∀ b ∈ input.take (fullChunks input), ¬ FoldsToDigit b) ∨
    (∃ b ∈ input.take (fullChunks input), ¬ Loose b) ∨
    ∃ b ∈ input.drop (fullChunks input), hexVal b = none

theorem hexTier_ok_iff (hE : E.Lawful) {avx2 : Bool} {input : Bytes} (h : input.length % 2 = 0)
    (out : Bytes) : hexTier E avx2 input = .ok out ↔
      (if avx2 then KernelAccepts input else ∀ b ∈ input, (hexVal b).isSome) ∧
        out = packPairs (input.map laneValue) := by
  cases avx2 with
  | true =>
    simp only [hexTier, if_true, hexFast_eq hE h]
    by_cases hk : KernelAccepts input
    · rw [if_pos hk, Except.ok.injEq, and_iff_right hk, eq_comm]
    · simp [hk]
  | false =>
    simp only [hexTier, Bool.false_eq_true, if_false, hE.decode_eq input h, hexPairs_eq h]
    by_cases hk : ∀ b ∈ input, (hexVal b).isSome
    · rw [if_pos hk, Except.ok.injEq, and_iff_right hk, eq_comm]
    · rw [if_neg hk]
      simp [hk]

theorem hexVal_of_folds {b : UInt8} (h : FoldsToDigit b) : hexVal b = none := by
  have key : ∀ b, FoldsToDigit b → hexVal b = none := forall_byte (by decide +kernel)
  exact key b h

theorem kernelAccepts_of_digits {input : Bytes} (h : ∀ b ∈ input, (hexVal b).isSome) :
    KernelAccepts input :=
  ⟨fun b hb => .inl (h b (List.mem_of_mem_take hb)), fun b hb => h b (List.mem_of_mem_drop hb)⟩

/-- The kernel accepts too much exactly when a folding byte is in a full chunk and nothing else is
wrong. -/
theorem kernelAccepts_exact_iff {input : Bytes} :
    (KernelAccepts input → ∀ b ∈ input, (hexVal b).isSome) ↔ NoFolding true input := by
  simp only [NoFolding, Bool.true_eq_false, false_or]
  constructor
  · intro h
    by_cases hk : KernelAccepts input
    · refine .inl fun b hb hfold => ?_
      have := h hk b (List.mem_of_mem_take hb)
      rw [hexVal_of_folds hfold] at this
      cases this
    · rw [KernelAccepts, not_and_or] at hk
      push Not at hk
      exact .inr (by simpa using hk)
  · rintro (hnone | ⟨b, hb, hloose⟩ | ⟨b, hb, hval⟩) hk c hc
    · rw [← List.take_append_drop (fullChunks input) input, List.mem_append] at hc
      rcases hc with hc | hc
      · exact (hk.1 c hc).resolve_right (hnone c hc)
      · exact hk.2 c hc
    · exact absurd (hk.1 b hb) hloose
    · have := hk.2 b hb
      rw [hval] at this
      cases this

theorem hexTier_exact_iff (hE : E.Lawful) {avx2 : Bool} {input : Bytes}
    (h : input.length % 2 = 0) : Exact input (hexTier E avx2 input) ↔ NoFolding avx2 input := by
  have haccept : (∃ out, hexTier E avx2 input = .ok out) ↔
      if avx2 then KernelAccepts input else ∀ b ∈ input, (hexVal b).isSome := by
    simp [hexTier_ok_iff hE h]
  have hexact : Exact input (hexTier E avx2 input) ↔
      ((if avx2 then KernelAccepts input else ∀ b ∈ input, (hexVal b).isSome) ↔
        ∀ b ∈ input, (hexVal b).isSome) := by
    rw [Exact, haccept, and_iff_left_iff_imp]
    intro hiff out hout
    obtain ⟨hacc, rfl⟩ := (hexTier_ok_iff hE h out).mp hout
    rw [hexPairs_eq h, if_pos (hiff.mp hacc)]
  rw [hexact]
  cases avx2 with
  | false => simp [NoFolding]
  | true =>
    rw [← kernelAccepts_exact_iff]
    exact ⟨fun hiff => hiff.mp, fun himp => ⟨himp, kernelAccepts_of_digits⟩⟩

theorem hexPairs_hexEncode (bs : Bytes) : hexPairs (hexEncode bs) = some bs := by
  rw [hexPairs_eq_some_iff]
  have hdigit : ∀ n : UInt8, n < 16 → asciiLower (hexDigit n) = hexDigit n := by
    have key : ∀ n : Fin 16, asciiLower (hexDigit (UInt8.ofNat n.val)) =
        hexDigit (UInt8.ofNat n.val) := by decide +kernel
    intro n hn
    simpa using key ⟨n.toNat, by simpa [UInt8.lt_iff_toNat_lt] using hn⟩
  induction bs with
  | nil => rfl
  | cons b bs ih =>
    rw [hexEncode, List.map_cons, List.map_cons, hdigit _ (nibbles_lt b).1,
      hdigit _ (nibbles_lt b).2, ih]

/-- Decoding what was encoded. -/
theorem hexTier_hexEncode (hE : E.Lawful) (avx2 : Bool) (bs : Bytes) :
    hexTier E avx2 (hexEncode bs) = .ok bs := by
  have heven : (hexEncode bs).length % 2 = 0 := by rw [hexEncode_length]; omega
  have hpairs := hexPairs_hexEncode bs
  rw [hexPairs_eq heven] at hpairs
  split at hpairs
  · next hdigits =>
    rw [hexTier_ok_iff hE heven]
    refine ⟨?_, (Option.some.inj hpairs).symm⟩
    split
    · exact kernelAccepts_of_digits hdigits
    · exact hdigits
  · cases hpairs

/-- **Where hex decoding is exact.** On an input of even length both entry points succeed exactly
when every byte is a hex digit, and with what the table decoder gives, if and only if no control
byte `0x10`..`0x19` passes for a digit in a full chunk of the kernel. Decoding what was encoded
gives it back in any case. -/
theorem hexDecode_exact_iff (hE : E.Lawful) (avx2 : Bool) :
    (∀ input : Bytes, input.length % 2 = 0 →
      ((Exact input (hexDecodeBytes E avx2 input) ∧
          ∀ out : Bytes, input.length / 2 ≤ out.length →
            Exact input ((hexDecodeIntoSlice E avx2 input out).map fun r => r.2.take r.1)) ↔
        NoFolding avx2 input)) ∧
    (∀ bs : Bytes, hexDecodeBytes E avx2 (hexEncodeBytes E bs) = .ok bs) ∧
    ∀ bs out : Bytes, bs.length ≤ out.length →
      hexDecodeIntoSlice E avx2 (hexEncodeBytes E bs) out =
        .ok (bs.length, bs ++ out.drop bs.length) := by
  have hbytes : ∀ input : Bytes, input.length % 2 = 0 →
      hexDecodeBytes E avx2 input = hexTier E avx2 input := by
    intro input h
    rw [hexDecodeBytes, if_neg (by simpa using h)]
  have hslice : ∀ input out : Bytes, input.length % 2 = 0 → input.length / 2 ≤ out.length →
      hexDecodeIntoSlice E avx2 input out = (hexTier E avx2 input).map fun decoded =>
        (decoded.length, decoded ++ out.drop (input.length / 2)) := by
    intro input out h hle
    rw [hexDecodeIntoSlice, if_neg (by simpa using h)]
    simp only [if_neg (Nat.not_lt.mpr hle)]
    cases hexTier E avx2 input <;> rfl
  -- both entries hand the input to the same tier, and differ in where the bytes go
  refine ⟨fun input h => ?_, fun bs => ?_, fun bs out hle => ?_⟩
  · rw [hbytes input h, hexTier_exact_iff hE h, and_iff_left_iff_imp]
    intro hno out hle
    rw [hslice input out h hle]
    have hmap : ((hexTier E avx2 input).map fun decoded =>
        (decoded.length, decoded ++ out.drop (input.length / 2))).map (fun r => r.2.take r.1) =
          hexTier E avx2 input := by
      cases hexTier E avx2 input <;> simp [Except.map]
    rw [hmap]
    exact (hexTier_exact_iff hE h).mpr hno
  · rw [hexEncodeBytes, hE.encode_eq, hbytes _ (by rw [hexEncode_length]; omega),
      hexTier_hexEncode hE]
  · have hlen := hexEncode_length bs
    rw [hexEncodeBytes, hE.encode_eq, hslice _ _ (by omega) (by omega), hexTier_hexEncode hE,
      show (hexEncode bs).length / 2 = bs.length by omega]
    rfl

/-- `faster-hex` by the tables. -/
def tableEngine : HexEngine := ⟨hexEncode, hexPairs⟩

theorem tableEngine_lawful : tableEngine.Lawful := ⟨fun _ => rfl, fun _ _ => rfl⟩

/-- A full chunk of the kernel, and two digits behind it. -/
theorem hexDecode_exact_digits :
    hexDecodeBytes tableEngine true (List.replicate 64 70 ++ [48, 70]) =
        .ok (List.replicate 32 255 ++ [15]) ∧
      NoFolding true (List.replicate 64 70 ++ [48, 70]) ∧
        Exact (List.replicate 64 70 ++ [48, 70])
          (hexDecodeBytes tableEngine true (List.replicate 64 70 ++ [48, 70])) := by
  have hno : NoFolding true (List.replicate 64 70 ++ [48, 70]) := .inr (.inl (by decide +kernel))
  exact ⟨by decide +kernel, hno,
    (((hexDecode_exact_iff tableEngine_lawful true).1 _ (by decide +kernel)).mpr hno).1⟩

/-- **64 control bytes decode to zeros.** -/
theorem hexDecode_accepts_control_bytes :
    ¬ ∀ (E : HexEngine) (avx2 : Bool) (input : Bytes), E.Lawful → input.length % 2 = 0 →
      Exact input (hexDecodeBytes E avx2 input) := by
  intro h
  have hexact := h tableEngine true (List.replicate 64 0x10) tableEngine_lawful (by simp)
  rw [hexDecodeBytes, if_neg (by simp), hexTier_exact_iff tableEngine_lawful (by simp)] at hexact
  revert hexact
  have hfull : fullChunks (List.replicate 64 0x10) = 64 := by simp [fullChunks]
  simp only [NoFolding, hfull]
  decide

end Castrum
