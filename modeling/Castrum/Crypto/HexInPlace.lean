import Castrum.Crypto.Hex

/-!
# Castrum — hex decoding into a buffer (`rust/crypto/base64.rs`)

`hex_decode_into_slice` writes into a buffer of its caller. The engine scans the digits before it
writes any byte; the kernel looks at one chunk of 64 digits at a time and writes its 32 bytes before
it looks at the next one.

* `fastInto_eq` — what the kernel leaves in the buffer, up to the first chunk that is not valid;
* `hexDecodeInPlace_atomic_iff` — when an error leaves the buffer as it was.
-/

namespace Castrum

/-! ## The source functions -/

/-- `faster_hex::hex_decode`: whether the digits were valid, and the buffer. -/
structure HexWriter where
  decode : Bytes → Bytes → Bool × Bytes

/-- A scan of the digits, and only then the decoding pass. -/
structure HexWriter.Lawful (W : HexWriter) : Prop where
  decode_valid : ∀ s dst decoded, s.length = 2 * dst.length → hexPairs s = some decoded →
    W.decode s dst = (true, decoded)
  decode_invalid : ∀ s dst, s.length = 2 * dst.length → hexPairs s = none →
    W.decode s dst = (false, dst)

/-- `hex_fast::decode`, with the buffer from where the digits are read to. -/
def fastInto (W : HexWriter) (input out : Bytes) : Bool × Bytes :=
  if 64 ≤ input.length then
    match decodeChunk (input.take 64) with
    | none => (false, out)
    | some chunk =>
      -- the chunk is in the buffer before the next one is looked at
      let (valid, rest) := fastInto W (input.drop 64) (out.drop 32)
      (valid, chunk ++ rest)
  else if input = [] then (true, out)
  else W.decode input out
termination_by input.length
decreasing_by
  rw [List.length_drop]
  omega

/-- `hex_decode_into_slice`: the result, and the buffer after it. -/
def hexDecodeInPlace (W : HexWriter) (avx2 : Bool) (input out : Bytes) :
    Except String Nat × Bytes :=
  if input.length % 2 ≠ 0 then (.error "odd hex length", out)
  else
    let needed := input.length / 2
    if out.length < needed then (.error "hex decode: output buffer too small", out)
    else
      let (valid, dst) :=
        if avx2 then fastInto W input (out.take needed) else W.decode input (out.take needed)
      (if valid then .ok needed else .error "invalid hex digit", dst ++ out.drop needed)

/-! ## Chunks -/

/-- The full chunks in front of the first one with a byte that the kernel does not take. -/
def goodChunks (input : Bytes) : Nat :=
  if 64 ≤ input.length ∧ ∀ b ∈ input.take 64, Loose b then goodChunks (input.drop 64) + 1 else 0
termination_by input.length
decreasing_by
  rw [List.length_drop]
  omega

/-- What they are decoded to. -/
def writtenAhead (input : Bytes) : Bytes :=
  packPairs ((input.take (64 * goodChunks input)).map laneValue)

section

variable {input : Bytes}

theorem goodChunks_good (h : 64 ≤ input.length) (hloose : ∀ b ∈ input.take 64, Loose b) :
    goodChunks input = goodChunks (input.drop 64) + 1 := by
  rw [goodChunks, if_pos ⟨h, hloose⟩]

theorem goodChunks_bad (h : ¬ (64 ≤ input.length ∧ ∀ b ∈ input.take 64, Loose b)) :
    goodChunks input = 0 := by
  rw [goodChunks, if_neg h]

theorem writtenAhead_good (h : 64 ≤ input.length) (hloose : ∀ b ∈ input.take 64, Loose b) :
    writtenAhead input =
      packPairs ((input.take 64).map laneValue) ++ writtenAhead (input.drop 64) := by
  rw [writtenAhead, goodChunks_good h hloose, Nat.mul_succ, Nat.add_comm, List.take_add,
    List.map_append, packPairs_append (by simp [h])]
  rfl

theorem writtenAhead_bad (h : goodChunks input = 0) : writtenAhead input = [] := by
  rw [writtenAhead, h]
  rfl

theorem goodChunks_le (input : Bytes) : 64 * goodChunks input ≤ input.length := by
  induction hk : input.length using Nat.strong_induction_on generalizing input with
  | _ k ih =>
    by_cases h : 64 ≤ input.length ∧ ∀ b ∈ input.take 64, Loose b
    · have hdrop : (input.drop 64).length = input.length - 64 := List.length_drop
      have hrest := ih _ (by omega) (input.drop 64) rfl
      rw [goodChunks_good h.1 h.2]
      omega
    · rw [goodChunks_bad h]
      omega

end

/-! ## What is in the buffer -/

section

variable {W : HexWriter} {E : HexEngine} {input out : Bytes}

theorem HexWriter.Lawful.decode_eq (hW : W.Lawful) (h : input.length = 2 * out.length) :
    W.decode input out = if ∀ b ∈ input, (hexVal b).isSome
      then (true, packPairs (input.map laneValue)) else (false, out) := by
  have hpairs := hexPairs_eq (s := input) (by omega)
  split
  · next hdigits =>
    rw [if_pos hdigits] at hpairs
    exact hW.decode_valid input out _ h hpairs
  · next hdigits =>
    rw [if_neg hdigits] at hpairs
    exact hW.decode_invalid input out h hpairs

/-- **The kernel writes chunk by chunk**: when it stops, the chunks in front are in the buffer.
Induction on the number of chunks. -/
theorem fastInto_eq (hW : W.Lawful) (h : input.length = 2 * out.length) :
    fastInto W input out = if KernelAccepts input then (true, packPairs (input.map laneValue))
      else (false, writtenAhead input ++ out.drop (32 * goodChunks input)) := by
  induction hk : input.length / 64 generalizing input out with
  | zero =>
    have hlt : ¬ 64 ≤ input.length := by omega
    have hgood : goodChunks input = 0 := goodChunks_bad fun hg => hlt hg.1
    rw [fastInto, if_neg hlt, writtenAhead_bad hgood, hgood, Nat.mul_zero, List.drop_zero,
      List.nil_append]
    simp only [kernelAccepts_short (Nat.lt_of_not_le hlt)]
    split
    · next hnil =>
      subst hnil
      obtain rfl : out = [] := List.eq_nil_of_length_eq_zero (by simpa using h.symm)
      rfl
    · exact hW.decode_eq h
  | succ k ih =>
    have hle : 64 ≤ input.length := by omega
    have hin : (input.drop 64).length = input.length - 64 := List.length_drop
    have hout : (out.drop 32).length = out.length - 32 := List.length_drop
    have hrest := @ih (input.drop 64) (out.drop 32) (by omega) (by omega)
    have haccepts := kernelAccepts_chunk hle
    rw [fastInto, if_pos hle, decodeChunk_eq (by simp [hle])]
    by_cases hloose : ∀ b ∈ input.take 64, Loose b
    · -- the chunk is written, whatever becomes of the rest
      simp only [if_pos hloose, hrest]
      by_cases hmore : KernelAccepts (input.drop 64)
      · rw [if_pos hmore, if_pos (haccepts.mpr ⟨hloose, hmore⟩), packPairs_chunk hle]
      · rw [if_neg hmore, if_neg fun hacc => hmore (haccepts.mp hacc).2,
          writtenAhead_good hle hloose, goodChunks_good hle hloose, List.drop_drop, List.append_assoc,
          Nat.mul_succ, Nat.add_comm 32]
    · have hgood : goodChunks input = 0 := goodChunks_bad fun hg => hloose hg.2
      rw [if_neg hloose, if_neg fun hacc => hloose (haccepts.mp hacc).1, writtenAhead_bad hgood,
        hgood, Nat.mul_zero, List.drop_zero, List.nil_append]

/-- The bytes that are valid on this machine. -/
def Accepts (avx2 : Bool) (input : Bytes) : Prop :=
  if avx2 then KernelAccepts input else ∀ b ∈ input, (hexVal b).isSome

theorem length_packPairs (v : Bytes) : (packPairs v).length = v.length / 2 := by
  match v with
  | [] => rfl
  | [_] => simp [packPairs]
  | a :: b :: v =>
    simp only [packPairs, List.length_cons, length_packPairs v]
    omega

/-- How much of the buffer is written before an error. -/
def writtenBefore (avx2 : Bool) (input : Bytes) : Bytes := if avx2 then writtenAhead input else []

theorem length_writtenAhead (input : Bytes) : (writtenAhead input).length = 32 * goodChunks input := by
  have hle := goodChunks_le input
  rw [writtenAhead, length_packPairs, List.length_map, List.length_take]
  omega

theorem hexDecodeInPlace_odd (avx2 : Bool) (h : input.length % 2 ≠ 0) :
    hexDecodeInPlace W avx2 input out = (.error "odd hex length", out) := by
  rw [hexDecodeInPlace, if_pos h]

theorem hexDecodeInPlace_small (avx2 : Bool) (heven : input.length % 2 = 0)
    (h : out.length < input.length / 2) : hexDecodeInPlace W avx2 input out =
      (.error "hex decode: output buffer too small", out) := by
  rw [hexDecodeInPlace, if_neg (not_not.mpr heven)]
  exact if_pos h

/-- **What an input of even length leaves in a buffer that is large enough.** -/
theorem hexDecodeInPlace_eq (hW : W.Lawful) (avx2 : Bool) (heven : input.length % 2 = 0)
    (hfits : input.length / 2 ≤ out.length) :
    (Accepts avx2 input → hexDecodeInPlace W avx2 input out =
      (.ok (input.length / 2), packPairs (input.map laneValue) ++ out.drop (input.length / 2))) ∧
    (¬ Accepts avx2 input → hexDecodeInPlace W avx2 input out =
      (.error "invalid hex digit",
        writtenBefore avx2 input ++ out.drop (writtenBefore avx2 input).length)) := by
  have htake : input.length = 2 * (out.take (input.length / 2)).length := by
    rw [List.length_take]
    omega
  have hunfold : hexDecodeInPlace W avx2 input out =
      let r := if avx2 then fastInto W input (out.take (input.length / 2))
        else W.decode input (out.take (input.length / 2))
      (if r.1 then .ok (input.length / 2) else .error "invalid hex digit",
        r.2 ++ out.drop (input.length / 2)) := by
    rw [hexDecodeInPlace, if_neg (by omega)]
    exact if_neg (Nat.not_lt.mpr hfits)
  rw [hunfold]
  cases avx2 with
  | true =>
    simp only [if_true, fastInto_eq hW htake, Accepts, writtenBefore]
    refine ⟨fun hacc => by rw [if_pos hacc]; rfl, fun hacc => ?_⟩
    have hle := goodChunks_le input
    -- what is behind the digits stays where it is
    have hbehind : (out.take (input.length / 2)).drop (32 * goodChunks input) ++
        out.drop (input.length / 2) = out.drop (32 * goodChunks input) := by
      have hsplit : input.length / 2 =
          32 * goodChunks input + (input.length / 2 - 32 * goodChunks input) := by omega
      rw [List.drop_take, hsplit, ← List.drop_drop, Nat.add_sub_cancel_left, List.take_append_drop]
    rw [if_neg hacc, length_writtenAhead, List.append_assoc, hbehind]
    rfl
  | false =>
    simp only [Bool.false_eq_true, if_false, hW.decode_eq htake, Accepts, writtenBefore]
    refine ⟨fun hacc => by rw [if_pos hacc]; rfl, fun hacc => ?_⟩
    rw [if_neg hacc, List.take_append_drop]
    rfl

/-- **An error leaves the buffer as it was** unless the kernel had written chunks in front of it,
and those are not what the buffer held. -/
theorem hexDecodeInPlace_atomic_iff (hW : W.Lawful) (avx2 : Bool) (input out : Bytes) :
    (∀ e, (hexDecodeInPlace W avx2 input out).1 = .error e →
      (hexDecodeInPlace W avx2 input out).2 = out) ↔
        input.length % 2 ≠ 0 ∨ out.length < input.length / 2 ∨ Accepts avx2 input ∨
          writtenBefore avx2 input <+: out := by
  by_cases hodd : input.length % 2 = 0
  · by_cases hfits : out.length < input.length / 2
    · refine iff_of_true (fun e _ => ?_) (.inr (.inl hfits))
      rw [hexDecodeInPlace_small avx2 hodd hfits]
    · obtain ⟨hgood, hbad⟩ := hexDecodeInPlace_eq hW avx2 hodd (Nat.le_of_not_lt hfits)
      by_cases hacc : Accepts avx2 input
      · refine iff_of_true (fun e he => ?_) (.inr (.inr (.inl hacc)))
        rw [hgood hacc] at he
        cases he
      · rw [hbad hacc, or_iff_right (by omega), or_iff_right hfits, or_iff_right hacc,
          List.prefix_iff_eq_append]
        exact ⟨fun h => h _ rfl, fun h _ _ => h⟩
  · refine iff_of_true (fun e _ => ?_) (.inl hodd)
    rw [hexDecodeInPlace_odd avx2 hodd]

end

/-- `faster-hex` by the tables. -/
def tableWriter : HexWriter where
  decode s dst :=
    match hexPairs s with
    | some decoded => (true, decoded)
    | none => (false, dst)

theorem tableWriter_lawful : tableWriter.Lawful where
  decode_valid s dst decoded _ h := by
    rw [tableWriter]
    simp only [h]
  decode_invalid s dst _ h := by
    rw [tableWriter]
    simp only [h]

/-- Two digits that are none, in a buffer of one byte. -/
theorem hexDecodeInPlace_atomic_short : tableWriter.Lawful ∧
    (∀ e, (hexDecodeInPlace tableWriter true [122, 122] [7]).1 = .error e →
      (hexDecodeInPlace tableWriter true [122, 122] [7]).2 = [7]) := by
  refine ⟨tableWriter_lawful, (hexDecodeInPlace_atomic_iff tableWriter_lawful true [122, 122] [7]).mpr ?_⟩
  have hgood : goodChunks [122, 122] = 0 := goodChunks_bad fun h => absurd h.1 (by decide)
  refine .inr (.inr (.inr ?_))
  rw [writtenBefore, if_pos rfl, writtenAhead_bad hgood]
  exact List.nil_prefix

/-- 64 zeros and `zz`: the zeros are in the buffer when the error is returned. -/
theorem hexDecodeInPlace_writes :
    hexDecodeInPlace tableWriter true (List.replicate 64 48 ++ [122, 122]) (List.replicate 33 255) =
      (.error "invalid hex digit", List.replicate 32 0 ++ [255]) := by
  have hshort : ¬ KernelAccepts [122, 122] := by
    rw [kernelAccepts_short (by decide)]
    decide
  have hloose : ∀ b ∈ (List.replicate 64 48 ++ [122, 122] : Bytes).take 64, Loose b := by decide
  have hbad : ¬ Accepts true (List.replicate 64 48 ++ [122, 122]) := fun h =>
    hshort ((kernelAccepts_chunk (by decide)).mp h).2
  have hahead : writtenAhead (List.replicate 64 48 ++ [122, 122]) = List.replicate 32 0 := by
    rw [writtenAhead_good (by decide) hloose,
      writtenAhead_bad (goodChunks_bad fun h => absurd h.1 (by decide))]
    decide
  rw [(hexDecodeInPlace_eq tableWriter_lawful true (by decide) (by decide)).2 hbad, writtenBefore,
    if_pos rfl, hahead]
  rfl

end Castrum
