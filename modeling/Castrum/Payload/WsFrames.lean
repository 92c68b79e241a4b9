import Castrum.Http.FormIndexed
import Castrum.Util.Wire

/-!
# Castrum — the WebSocket frame codec (`rust/payload/ws_frames.rs`)

A frame is two bytes, a length field of zero, two or eight bytes, the key if the payload is masked,
and the payload. The encoder works out the size of the header before it writes one, and the masked
copy takes the payload in words of eight bytes, then of four, then byte by byte.

* `maskedCopy_eq` — the words are in phase: the copy is the exclusive or with the key, byte by byte;
* `encodeFrameInto_eq` — what is written, and when the buffer is too small;
* `ws_frame_round_trip` — a frame is decoded to what it was made of.
-/

namespace Castrum.WsFrames

open Indexed (copyFromSlice copyFromSlice_of_le)

/-! ## The source functions -/

/-- A key, `[u8; 4]`. -/
abbrev Mask : Type := Fin 4 → UInt8

/-- A slice holds at most `isize::MAX` bytes. -/
abbrev Slice : Type := { bytes : Bytes // bytes.length < 2 ^ 63 }

/-- The key of the RFC's example. -/
def defaultMask : Mask := ![0x37, 0xfa, 0x21, 0x3d]

/-- `while i + n <= src.len()`: the next `n` bytes, through `f`, go to the same place in `dst`. -/
def maskLoop (n : Nat) (hn : 0 < n) (f : Nat → Bytes → Bytes) (src : Bytes) (i : Nat) (dst : Bytes) :
    Except (Failure Unit) (Nat × Bytes) :=
  if i + n ≤ src.length then do
    let w ← sliceOf src i (i + n)
    let dst ← copyFromSlice dst i (i + n) (f i w)
    maskLoop n hn f src (i + n) dst
  else .ok (i, dst)
termination_by src.length - i

/-- The key in both halves of a `u64`. -/
def mask64 (mask : Mask) : UInt64 :=
  let m := UInt64.ofNat (wordOf (List.ofFn mask))
  m ||| (m <<< 32)

/-- Eight bytes, as a `u64`. -/
def maskEight (mask : Mask) (_ : Nat) (w : Bytes) : Bytes :=
  le64 (UInt64.ofNat (wordOf w) ^^^ mask64 mask).toNat

/-- Four bytes, as a `u32`. -/
def maskFour (mask : Mask) (_ : Nat) (w : Bytes) : Bytes :=
  le32 (UInt32.ofNat (wordOf w) ^^^ (mask64 mask).toUInt32).toNat

/-- The byte at `i`. -/
def maskByte (mask : Mask) (i : Nat) (w : Bytes) : Bytes := w.map (· ^^^ mask (Fin.ofNat 4 (i &&& 3)))

/-- `masked_copy`: the loops over eight bytes, over four, and over one. -/
def maskedCopy (dst src : Bytes) (mask : Mask) : Except (Failure Unit) Bytes := do
  let (i, dst) ← maskLoop 8 (by decide) (maskEight mask) src 0 dst
  let (i, dst) ← maskLoop 4 (by decide) (maskFour mask) src i dst
  let (_, dst) ← maskLoop 1 (by decide) (maskByte mask) src i dst
  return dst

def headerLen (len : Nat) (mask : Bool) : Nat :=
  2 + (if 125 < len then (if 65535 < len then 8 else 2) else 0) + (if mask then 4 else 0)

/-- The flag in the top bit of a header byte. -/
def flagBit (flag : Bool) : UInt8 := if flag then 0x80 else 0

/-- The second byte and the length field behind it, and the position behind them. -/
def putLength (len : Nat) (mask : Bool) (out : Bytes) : Except (Failure Unit) (Nat × Bytes) :=
  if len ≤ 125 then do
    let out ← copyFromSlice out 1 2 [flagBit mask ||| UInt8.ofNat len]
    return (2, out)
  else if len ≤ 65535 then do
    let out ← copyFromSlice out 1 2 [flagBit mask ||| 126]
    let out ← copyFromSlice out 2 4 (be16 len)
    return (4, out)
  else do
    let out ← copyFromSlice out 1 2 [flagBit mask ||| 127]
    let out ← copyFromSlice out 2 10 (be64 len)
    return (10, out)

/-- The key and the masked payload, or the payload as it is, and the position behind it. -/
def putPayload (payload : Bytes) (mask : Bool) (pos : Nat) (out : Bytes) :
    Except (Failure Unit) (Nat × Bytes) :=
  if mask then do
    let out ← copyFromSlice out pos (pos + 4) (List.ofFn defaultMask)
    let dst ← sliceOf out (pos + 4) (pos + 4 + payload.length)
    let masked ← maskedCopy dst payload defaultMask
    let out ← copyFromSlice out (pos + 4) (pos + 4 + payload.length) masked
    return (pos + 4 + payload.length, out)
  else do
    let out ← copyFromSlice out pos (pos + payload.length) payload
    return (pos + payload.length, out)

/-- `encode_frame_into`: the number of bytes written, and the buffer; `fail` is its `None`. -/
def encodeFrameInto (opcode : UInt8) (payload : Slice) (mask fin : Bool) (out : Bytes) :
    Except (Failure Unit) (Nat × Bytes) := do
  let need ← usize (headerLen payload.1.length mask + payload.1.length)
  if out.length < need then .error (.fail ())
  else do
    let out ← copyFromSlice out 0 1 [flagBit fin ||| (opcode &&& 0x0f)]
    let (pos, out) ← putLength payload.1.length mask out
    putPayload payload.1 mask pos out

/-- `encode_frame`, which expects its own buffer to be large enough. Running out of memory is not
modelled. -/
def encodeFrame (opcode : UInt8) (payload : Slice) (mask fin : Bool) : Except (Failure Unit) Bytes := do
  let need ← usize (headerLen payload.1.length mask + payload.1.length)
  match encodeFrameInto opcode payload mask fin (List.replicate need 0) with
  | .ok (_, out) => .ok out
  | .error _ => .error .panic

structure Frame where
  fin : Bool
  opcode : UInt8
  payload : Bytes
  deriving DecidableEq

/-- The length that the second byte announces, or the field behind it, and the position behind that. -/
def takeLength (data : Bytes) (short : UInt8) : Except (Failure Unit) (Nat × Nat) :=
  if short = 126 then
    if data.length < 2 + 2 then .error (.fail ())
    else do
      let field ← sliceOf data 2 (2 + 2)
      return (wordOf field.reverse, 2 + 2)
  else if short = 127 then
    if data.length < 2 + 8 then .error (.fail ())
    else do
      let field ← sliceOf data 2 (2 + 8)
      return (wordOf field.reverse, 2 + 8)
  else .ok (short.toNat, 2)

/-- The key, if the payload is masked, and the position behind it. -/
def takeMask (data : Bytes) (masked : Bool) (pos : Nat) : Except (Failure Unit) (Mask × Nat) :=
  if masked then
    if data.length < pos + 4 then .error (.fail ())
    else do
      let field ← sliceOf data pos (pos + 4)
      return (fun i => field.getD i 0, pos + 4)
  else .ok (fun _ => 0, pos)

/-- `data.get(i..j)`. -/
def rangeOf (data : Bytes) (i j : Nat) : Option Bytes :=
  if i ≤ j ∧ j ≤ data.length then some ((data.take j).drop i) else none

/-- `decode_frame`; `fail` is its `None`. -/
def decodeFrame (data : Bytes) : Except (Failure Unit) Frame :=
  match data with
  | b0 :: b1 :: _ => do
    let fin := b0 &&& 0x80 != 0
    let opcode := b0 &&& 0x0f
    let masked := b1 &&& 0x80 != 0
    let (len, pos) ← takeLength data (b1 &&& 0x7f)
    let (mask, pos) ← takeMask data masked pos
    let stop ← usize (pos + len)
    let payload ← orFail (.fail ()) (rangeOf data pos stop)
    let payload ←
      if masked then maskedCopy (List.replicate payload.length 0) payload mask else .ok payload
    return ⟨fin, opcode, payload⟩
  | _ => .error (.fail ())

/-- A copy right behind what was copied. -/
theorem copy_behind {out a w : Bytes} {i j : Nat} (hi : a.length = i) (hj : i + w.length = j)
    (hfit : j ≤ out.length) :
    (copyFromSlice (placed out 0 a) i j w : Except (Failure Unit) Bytes) = .ok (placed out 0 (a ++ w)) := by
  have hroom : j ≤ (placed out 0 a).length := by
    rw [length_placed (by omega)]
    exact hfit
  have hbehind := placed_placed (Nat.zero_le out.length) a w
  rw [Nat.zero_add, hi] at hbehind
  rw [copyFromSlice, if_pos ⟨by omega, hroom, by omega⟩, hbehind]

/-- A copy over the whole of a buffer. -/
theorem placed_all {out w : Bytes} (h : out.length = w.length) : placed out 0 w = w := by
  rw [placed, List.take_zero, List.nil_append, Nat.zero_add, ← h, List.drop_length, List.append_nil]

/-! ## The masked copy -/

/-- The exclusive or with the key, byte by byte. -/
def xorMask (mask : Mask) (src : Bytes) : Bytes := src.mapIdx fun i b => b ^^^ mask (Fin.ofNat 4 i)

@[simp] theorem length_xorMask (mask : Mask) (src : Bytes) : (xorMask mask src).length = src.length :=
  List.length_mapIdx

/-- Masking twice. -/
theorem xorMask_xorMask (mask : Mask) (src : Bytes) : xorMask mask (xorMask mask src) = src := by
  apply List.ext_getElem
  · rw [length_xorMask, length_xorMask]
  · intro i hi hi'
    simp only [xorMask, List.getElem_mapIdx, UInt8.xor_assoc, UInt8.xor_self, UInt8.xor_zero]

section

variable {mask : Mask} {src dst : Bytes} {n : Nat}

/-- A word of the source, with the key that stands in phase over it. -/
theorem zipWith_word {i : Nat} {key : Bytes} (hkey : key.length = n) (hfit : i + n ≤ src.length)
    (hphase : ∀ j (hj : j < key.length), key[j] = mask (Fin.ofNat 4 (i + j))) :
    List.zipWith (· ^^^ ·) ((src.drop i).take n) key = ((xorMask mask src).drop i).take n := by
  have hword : ((src.drop i).take n).length = n := by
    rw [List.length_take, List.length_drop]
    omega
  apply List.ext_getElem
  · rw [List.length_zipWith, hword, hkey, List.length_take, List.length_drop, length_xorMask]
    omega
  · intro j hj hj'
    rw [List.getElem_zipWith, hphase, List.getElem_take, List.getElem_take, List.getElem_drop,
      List.getElem_drop]
    simp only [xorMask, List.getElem_mapIdx]

/-- The loop over words of `n` bytes: where it starts in phase, it stops in phase, with less than a
word left, and what it has passed is masked. -/
theorem maskLoop_eq {P : Nat → Prop} {f : Nat → Bytes → Bytes} {i : Nat} (hn : 0 < n)
    (hnext : ∀ i, P i → P (i + n))
    (hf : ∀ i, P i → i + n ≤ src.length →
      f i ((src.drop i).take n) = ((xorMask mask src).drop i).take n)
    (hlen : dst.length = src.length) (hi : P i) (hle : i ≤ src.length) :
    ∃ j, maskLoop n hn f src i (placed dst 0 ((xorMask mask src).take i)) =
        .ok (j, placed dst 0 ((xorMask mask src).take j)) ∧
      P j ∧ j ≤ src.length ∧ src.length < j + n := by
  by_cases hfit : i + n ≤ src.length
  · rw [maskLoop, if_pos hfit]
    have hslice : (sliceOf src i (i + n) : Except (Failure Unit) Bytes) = .ok ((src.drop i).take n) := by
      rw [sliceOf, if_pos ⟨Nat.le_add_right i n, hfit⟩, List.take_drop, Nat.add_comm]
    -- what is copied goes behind what was copied
    have hdone : ((xorMask mask src).take i).length = i := by
      rw [List.length_take, length_xorMask]
      omega
    have hword : (((xorMask mask src).drop i).take n).length = n := by
      rw [List.length_take, List.length_drop, length_xorMask]
      omega
    rw [hslice, ok_bind, hf i hi hfit, copy_behind hdone (by omega) (by omega), ok_bind, ← List.take_add]
    exact maskLoop_eq hn hnext hf hlen (hnext i hi) hfit
  · refine ⟨i, ?_, hi, hle, by omega⟩
    rw [maskLoop, if_neg hfit]
termination_by src.length - i

theorem mask64_toNat (mask : Mask) :
    (mask64 mask).toNat = wordOf (List.ofFn mask ++ List.ofFn mask) := by
  have hlt : wordOf (List.ofFn mask) < 2 ^ 32 := by
    have h := wordOf_lt (List.ofFn mask)
    rw [List.length_ofFn] at h
    exact h
  have hlow : (UInt64.ofNat (wordOf (List.ofFn mask))).toNat = wordOf (List.ofFn mask) :=
    UInt64.toNat_ofNat_of_lt' (show _ < 2 ^ 64 by omega)
  rw [mask64, UInt64.toNat_or, UInt64.toNat_shiftLeft, hlow, wordOf_append, List.length_ofFn,
    Nat.or_comm]
  show wordOf (List.ofFn mask) <<< 32 % 2 ^ 64 ||| wordOf (List.ofFn mask) = _
  rw [Nat.shiftLeft_eq, Nat.mod_eq_of_lt (by omega), ← Nat.shiftLeft_eq,
    ← Nat.shiftLeft_add_eq_or_of_lt hlt, Nat.shiftLeft_eq]
  omega

theorem maskEight_eq (i : Nat) {w : Bytes} (h : w.length = 8) :
    maskEight mask i w = List.zipWith (· ^^^ ·) w (List.ofFn mask ++ List.ofFn mask) := by
  have hlt := wordOf_lt w
  rw [h] at hlt
  rw [maskEight, UInt64.toNat_xor, UInt64.toNat_ofNat_of_lt' hlt, le64_xor, le64_wordOf h, mask64_toNat,
    le64_wordOf (by rw [List.length_append, List.length_ofFn])]

theorem maskFour_eq (i : Nat) {w : Bytes} (h : w.length = 4) :
    maskFour mask i w = List.zipWith (· ^^^ ·) w (List.ofFn mask) := by
  have hlt := wordOf_lt w
  have hkey := wordOf_lt (List.ofFn mask)
  rw [h] at hlt
  rw [List.length_ofFn] at hkey
  have hhalf : (mask64 mask).toUInt32.toNat = wordOf (List.ofFn mask) := by
    rw [UInt64.toNat_toUInt32, mask64_toNat, wordOf_append, List.length_ofFn]
    omega
  rw [maskFour, UInt32.toNat_xor, UInt32.toNat_ofNat_of_lt' hlt, hhalf, le32_xor, le32_wordOf h,
    le32_wordOf List.length_ofFn]

theorem length_word {i : Nat} (hfit : i + n ≤ src.length) : ((src.drop i).take n).length = n := by
  rw [List.length_take, List.length_drop]
  omega

/-- The key is read from its start where a word starts. -/
theorem ofNat_add_of_dvd {i : Nat} (hi : 4 ∣ i) (j : Nat) : Fin.ofNat 4 (i + j) = Fin.ofNat 4 j := by
  apply Fin.ext
  show (i + j) % 4 = j % 4
  omega

theorem maskEight_word {i : Nat} (hi : 4 ∣ i) (hfit : i + 8 ≤ src.length) :
    maskEight mask i ((src.drop i).take 8) = ((xorMask mask src).drop i).take 8 := by
  have hkey : (List.ofFn mask ++ List.ofFn mask).length = 8 := by
    rw [List.length_append, List.length_ofFn]
  rw [maskEight_eq i (length_word hfit)]
  apply zipWith_word hkey hfit
  intro j hj
  rw [hkey] at hj
  rw [ofNat_add_of_dvd hi]
  match j, hj with
  | 0, _ | 1, _ | 2, _ | 3, _ | 4, _ | 5, _ | 6, _ | 7, _ => rfl

theorem maskFour_word {i : Nat} (hi : 4 ∣ i) (hfit : i + 4 ≤ src.length) :
    maskFour mask i ((src.drop i).take 4) = ((xorMask mask src).drop i).take 4 := by
  rw [maskFour_eq i (length_word hfit)]
  apply zipWith_word List.length_ofFn hfit
  intro j hj
  rw [List.length_ofFn] at hj
  rw [ofNat_add_of_dvd hi]
  match j, hj with
  | 0, _ | 1, _ | 2, _ | 3, _ => rfl

theorem maskByte_word {i : Nat} (hfit : i + 1 ≤ src.length) :
    maskByte mask i ((src.drop i).take 1) = ((xorMask mask src).drop i).take 1 := by
  have hkey : Fin.ofNat 4 (i &&& 3) = Fin.ofNat 4 i := by
    apply Fin.ext
    show (i &&& 3) % 4 = i % 4
    rw [show i &&& 3 = i % 4 from Nat.and_two_pow_sub_one_eq_mod i 2, Nat.mod_mod]
  rw [maskByte, hkey, List.drop_eq_getElem_cons hfit,
    List.drop_eq_getElem_cons (show i < (xorMask mask src).length by rw [length_xorMask]; exact hfit)]
  simp only [xorMask, List.getElem_mapIdx, List.take_succ_cons, List.take_zero, List.map_cons, List.map_nil]

/-- **The masked copy** is the exclusive or with the key, byte by byte, at every length: words of
eight and of four bytes start where the key does, and the tail looks its byte of the key up. -/
theorem maskedCopy_eq (mask : Mask) (h : dst.length = src.length) :
    maskedCopy dst src mask = .ok (xorMask mask src) := by
  obtain ⟨i, hloop8, hi, hile, -⟩ := maskLoop_eq (P := (4 ∣ ·)) (f := maskEight mask) (i := 0)
    (by decide) (fun i hi => by omega) (fun _ => maskEight_word) h (Nat.dvd_zero 4) (Nat.zero_le _)
  obtain ⟨j, hloop4, hj, hjle, -⟩ := maskLoop_eq (P := (4 ∣ ·)) (f := maskFour mask) (n := 4)
    (by decide) (fun i hi => by omega) (fun _ => maskFour_word) h hi hile
  obtain ⟨k, hloop1, -, hkle, hend⟩ := maskLoop_eq (P := fun _ => True) (f := maskByte mask) (n := 1)
    (by decide) (fun _ _ => trivial) (fun _ _ => maskByte_word) h trivial hjle
  rw [List.take_zero, placed_nil] at hloop8
  -- the last loop leaves nothing
  have hlast : k = src.length := by omega
  rw [hlast] at hloop1
  simp only [maskedCopy, hloop8, ok_bind, hloop4, hloop1]
  have hall : placed dst 0 ((xorMask mask src).take src.length) = xorMask mask src := by
    rw [List.take_of_length_le (length_xorMask mask src).le, placed_all (by rw [length_xorMask, h])]
  rw [hall]
  rfl

end

/-! ## What is written -/

/-- The second byte of a frame without its flag, and the field behind it. -/
def lengthField (len : Nat) : UInt8 × Bytes :=
  if len ≤ 125 then (UInt8.ofNat len, [])
  else if len ≤ 65535 then (126, be16 len)
  else (127, be64 len)

def headerText (opcode : UInt8) (len : Nat) (mask fin : Bool) : Bytes :=
  (flagBit fin ||| (opcode &&& 0x0f)) :: (flagBit mask ||| (lengthField len).1) :: (lengthField len).2

def bodyText (payload : Bytes) (mask : Bool) : Bytes :=
  if mask then List.ofFn defaultMask ++ xorMask defaultMask payload else payload

/-- A frame. -/
def frameText (opcode : UInt8) (payload : Bytes) (mask fin : Bool) : Bytes :=
  headerText opcode payload.length mask fin ++ bodyText payload mask

/-- The three encodings of a length. -/
theorem lengthField_cases (len : Nat) :
    (len ≤ 125 ∧ lengthField len = (UInt8.ofNat len, [])) ∨
    (125 < len ∧ len ≤ 65535 ∧ lengthField len = (126, be16 len)) ∨
    (65535 < len ∧ lengthField len = (127, be64 len)) := by
  unfold lengthField
  by_cases hshort : len ≤ 125
  · exact .inl ⟨hshort, if_pos hshort⟩
  · rw [if_neg hshort]
    by_cases hmedium : len ≤ 65535
    · exact .inr (.inl ⟨by omega, hmedium, if_pos hmedium⟩)
    · exact .inr (.inr ⟨by omega, if_neg hmedium⟩)

theorem length_lengthField (len : Nat) :
    (lengthField len).2.length = if 125 < len then (if 65535 < len then 8 else 2) else 0 := by
  obtain ⟨hlen, heq⟩ | ⟨hlow, hhigh, heq⟩ | ⟨hlen, heq⟩ := lengthField_cases len
  · rw [heq, if_neg (by omega)]
    rfl
  · rw [heq, if_pos hlow, if_neg (by omega), length_be16]
  · rw [heq, if_pos (by omega), if_pos hlen, length_be64]

theorem length_headerText (opcode : UInt8) (len : Nat) (mask fin : Bool) :
    (headerText opcode len mask fin).length = 2 + (lengthField len).2.length := by
  rw [headerText, List.length_cons, List.length_cons]
  omega

theorem length_bodyText (payload : Bytes) (mask : Bool) :
    (bodyText payload mask).length = (if mask then 4 else 0) + payload.length := by
  cases mask with
  | false => exact (Nat.zero_add _).symm
  | true =>
    show (List.ofFn defaultMask ++ xorMask defaultMask payload).length = 4 + payload.length
    rw [List.length_append, List.length_ofFn, length_xorMask]

/-- The size of the header was worked out rightly. -/
theorem length_frameText (opcode : UInt8) (payload : Bytes) (mask fin : Bool) :
    (frameText opcode payload mask fin).length = headerLen payload.length mask + payload.length := by
  rw [frameText, headerLen, List.length_append, length_headerText, length_lengthField, length_bodyText,
    Nat.add_assoc, Nat.add_assoc, Nat.add_assoc]

theorem putLength_eq {out : Bytes} (b0 : UInt8) (len : Nat) (mask : Bool)
    (hfit : 2 + (lengthField len).2.length ≤ out.length) :
    putLength len mask (placed out 0 [b0]) =
      .ok (2 + (lengthField len).2.length,
        placed out 0 (b0 :: (flagBit mask ||| (lengthField len).1) :: (lengthField len).2)) := by
  -- the second byte, whatever it is
  have hsecond : ∀ b1, (copyFromSlice (placed out 0 [b0]) 1 2 [b1] : Except (Failure Unit) Bytes) =
      .ok (placed out 0 [b0, b1]) := fun b1 => copy_behind rfl rfl (by omega)
  unfold putLength
  obtain ⟨hlen, heq⟩ | ⟨hlow, hhigh, heq⟩ | ⟨hlen, heq⟩ := lengthField_cases len
  · rw [if_pos hlen, hsecond, heq]
    rfl
  · rw [heq, length_be16] at hfit
    have hfield : (copyFromSlice (placed out 0 [b0, flagBit mask ||| 126]) 2 4 (be16 len) :
        Except (Failure Unit) Bytes) = .ok (placed out 0 ([b0, flagBit mask ||| 126] ++ be16 len)) :=
      copy_behind rfl rfl hfit
    rw [if_neg (by omega), if_pos hhigh, hsecond, ok_bind, hfield, heq]
    rfl
  · rw [heq, length_be64] at hfit
    have hfield : (copyFromSlice (placed out 0 [b0, flagBit mask ||| 127]) 2 10 (be64 len) :
        Except (Failure Unit) Bytes) = .ok (placed out 0 ([b0, flagBit mask ||| 127] ++ be64 len)) :=
      copy_behind rfl rfl hfit
    rw [if_neg (by omega), if_neg (by omega), hsecond, ok_bind, hfield, heq]
    rfl

theorem putPayload_eq {out a : Bytes} {pos : Nat} (hpos : a.length = pos) (payload : Bytes) (mask : Bool)
    (hfit : pos + (bodyText payload mask).length ≤ out.length) :
    putPayload payload mask pos (placed out 0 a) =
      .ok (pos + (bodyText payload mask).length, placed out 0 (a ++ bodyText payload mask)) := by
  cases mask with
  | false =>
    change pos + payload.length ≤ out.length at hfit
    show (copyFromSlice (placed out 0 a) pos (pos + payload.length) payload >>= _) = _
    rw [copy_behind hpos rfl hfit]
    rfl
  | true =>
    have hkey : (List.ofFn defaultMask).length = 4 := List.length_ofFn
    rw [length_bodyText, if_pos rfl] at hfit ⊢
    have hbehind : (a ++ List.ofFn defaultMask).length = pos + 4 := by
      rw [List.length_append, hpos, hkey]
    -- the part of the buffer that the masked payload goes to
    obtain ⟨dst, hdst, hlen⟩ : ∃ dst, (sliceOf (placed out 0 (a ++ List.ofFn defaultMask)) (pos + 4)
        (pos + 4 + payload.length) : Except (Failure Unit) Bytes) = .ok dst ∧
          dst.length = payload.length := by
      have hroom : (placed out 0 (a ++ List.ofFn defaultMask)).length = out.length :=
        length_placed (by omega)
      refine ⟨_, if_pos ⟨Nat.le_add_right _ _, by omega⟩, ?_⟩
      rw [List.length_drop, List.length_take, hroom]
      omega
    simp only [putPayload, if_true]
    rw [copy_behind hpos (by rw [hkey]) (by omega), ok_bind, hdst, ok_bind, maskedCopy_eq _ hlen,
      ok_bind, copy_behind hbehind (by rw [length_xorMask]) (by omega), List.append_assoc, Nat.add_assoc]
    rfl

/-- A payload that a slice holds has room for a header above it. -/
theorem need_lt (payload : Slice) (mask : Bool) :
    headerLen payload.1.length mask + payload.1.length < 2 ^ 64 := by
  have hlt := payload.2
  have hheader : headerLen payload.1.length mask ≤ 2 + 8 + 4 := by
    unfold headerLen
    gcongr
    · split_ifs <;> decide
    · split_ifs <;> decide
  omega

/-- **`encode_frame_into`** writes the frame, or nothing if the buffer is too small for it. -/
theorem encodeFrameInto_eq (opcode : UInt8) (payload : Slice) (mask fin : Bool) (out : Bytes) :
    encodeFrameInto opcode payload mask fin out =
      if out.length < (frameText opcode payload.1 mask fin).length then .error (.fail ())
      else .ok ((frameText opcode payload.1 mask fin).length,
        placed out 0 (frameText opcode payload.1 mask fin)) := by
  rw [encodeFrameInto, usize_of_lt (need_lt payload mask), ok_bind, ← length_frameText opcode payload.1 mask fin]
  split
  · rfl
  · next hroom =>
    have hlen : (frameText opcode payload.1 mask fin).length =
        2 + (lengthField payload.1.length).2.length + (bodyText payload.1 mask).length := by
      rw [frameText, List.length_append, length_headerText]
    have hfirst : (copyFromSlice out 0 1 [flagBit fin ||| (opcode &&& 0x0f)] :
        Except (Failure Unit) Bytes) = .ok (placed out 0 [flagBit fin ||| (opcode &&& 0x0f)]) := by
      have hempty : placed out 0 [] = out := placed_nil out 0
      nth_rewrite 1 [← hempty]
      exact copy_behind rfl rfl (by omega)
    have hheader := putLength_eq (flagBit fin ||| (opcode &&& 0x0f)) payload.1.length mask
      (show 2 + (lengthField payload.1.length).2.length ≤ out.length by omega)
    have hlast := putPayload_eq (length_headerText opcode payload.1.length mask fin) payload.1 mask
      (show 2 + (lengthField payload.1.length).2.length + _ ≤ out.length by omega)
    simp only [hfirst, ok_bind, hheader]
    rw [hlen]
    exact hlast

/-- `encode_frame` returns the frame: its own buffer is of the right size. -/
theorem encodeFrame_eq (opcode : UInt8) (payload : Slice) (mask fin : Bool) :
    encodeFrame opcode payload mask fin = .ok (frameText opcode payload.1 mask fin) := by
  have hlen := length_frameText opcode payload.1 mask fin
  have hbuffer : (List.replicate (headerLen payload.1.length mask + payload.1.length) (0 : UInt8)).length =
      (frameText opcode payload.1 mask fin).length := by
    rw [List.length_replicate, hlen]
  rw [encodeFrame, usize_of_lt (need_lt payload mask), ok_bind, encodeFrameInto_eq,
    if_neg (Nat.not_lt.mpr hbuffer.ge), placed_all hbuffer]

/-! ## What is read back -/

/-- A flag, and the bits under it. -/
theorem flagBit_or (flag : Bool) {n : UInt8} (hn : n &&& 0x7f = n) :
    ((flagBit flag ||| n) &&& 0x80 != 0) = flag ∧ (flagBit flag ||| n) &&& 0x7f = n := by
  have hsplit : ∀ c, (flagBit flag ||| n) &&& c = flagBit flag &&& c ||| n &&& c := fun c =>
    UInt8.toBitVec_inj.mp BitVec.and_or_distrib_right
  have htop : n &&& 0x80 = 0 := by
    rw [← hn, UInt8.and_assoc]
    exact UInt8.and_zero
  rw [hsplit, hsplit, htop, hn]
  cases flag with
  | false => exact ⟨rfl, UInt8.zero_or⟩
  | true => exact ⟨rfl, UInt8.zero_or⟩

/-- The opcode, under the flag. -/
theorem flagBit_or_and (flag : Bool) (opcode : UInt8) :
    (flagBit flag ||| (opcode &&& 0x0f)) &&& 0x0f = opcode &&& 0x0f := by
  have hsplit : (flagBit flag ||| (opcode &&& 0x0f)) &&& 0x0f =
      flagBit flag &&& 0x0f ||| (opcode &&& 0x0f) &&& 0x0f :=
    UInt8.toBitVec_inj.mp BitVec.and_or_distrib_right
  rw [hsplit, UInt8.and_assoc, UInt8.and_self]
  cases flag with
  | false => exact UInt8.zero_or
  | true => exact UInt8.zero_or

theorem and_7f_of_lt {n : Nat} (h : n < 128) : UInt8.ofNat n &&& 0x7f = UInt8.ofNat n := by
  rw [← UInt8.toNat_inj, UInt8.toNat_and, UInt8.toNat_ofNat_of_lt' (show n < 2 ^ 8 by omega)]
  show n &&& 2 ^ 7 - 1 = n
  rw [Nat.and_two_pow_sub_one_eq_mod]
  omega

/-- The second byte leaves the top bit to the flag. -/
theorem lengthField_and (len : Nat) : (lengthField len).1 &&& 0x7f = (lengthField len).1 := by
  obtain ⟨hlen, heq⟩ | ⟨-, -, heq⟩ | ⟨-, heq⟩ := lengthField_cases len
  · rw [heq]
    exact and_7f_of_lt (by omega)
  · rw [heq]
    exact (by decide : (126 : UInt8) &&& 0x7f = 126)
  · rw [heq]
    exact (by decide : (127 : UInt8) &&& 0x7f = 127)

/-- The length is read back, whichever encoding it has. -/
theorem takeLength_eq (b0 b1 : UInt8) {len : Nat} (hlen : len < 2 ^ 63) (rest : Bytes) :
    takeLength (b0 :: b1 :: ((lengthField len).2 ++ rest)) (lengthField len).1 =
      .ok (len, 2 + (lengthField len).2.length) := by
  -- the field stands behind the two bytes
  have hslice : ∀ field : Bytes, (sliceOf (b0 :: b1 :: (field ++ rest)) 2 (2 + field.length) :
      Except (Failure Unit) Bytes) = .ok field := fun field =>
    sliceOf_of_drop (Nat.le_add_left 2 _) rfl
  have hroom : ∀ field : Bytes, ¬ (b0 :: b1 :: (field ++ rest)).length < 2 + field.length := by
    intro field
    rw [List.length_cons, List.length_cons, List.length_append]
    omega
  obtain ⟨hshort, heq⟩ | ⟨hlow, hhigh, heq⟩ | ⟨hlong, heq⟩ := lengthField_cases len
  · rw [heq]
    have hval : (UInt8.ofNat len).toNat = len := UInt8.toNat_ofNat_of_lt' (show len < 2 ^ 8 by omega)
    have hne : ∀ n : UInt8, 125 < n.toNat → UInt8.ofNat len ≠ n := by
      rintro n hn rfl
      omega
    show takeLength _ (UInt8.ofNat len) = _
    rw [takeLength, if_neg (hne 126 (by decide)), if_neg (hne 127 (by decide)), hval]
    rfl
  · rw [heq]
    have hfield := hslice (be16 len)
    have hfits := hroom (be16 len)
    rw [length_be16] at hfield hfits
    show takeLength (b0 :: b1 :: (be16 len ++ rest)) 126 = _
    rw [takeLength, if_pos rfl, if_neg hfits, hfield, ok_bind, wordOf_be16, Nat.mod_eq_of_lt (by omega)]
    rfl
  · rw [heq]
    have hfield := hslice (be64 len)
    have hfits := hroom (be64 len)
    rw [length_be64] at hfield hfits
    show takeLength (b0 :: b1 :: (be64 len ++ rest)) 127 = _
    rw [takeLength, if_neg (by decide), if_pos rfl, if_neg hfits, hfield, ok_bind,
      wordOf_be64 (by omega)]
    rfl

/-- The key is read back, and the payload stands behind it. -/
theorem takeMask_eq {a : Bytes} {pos : Nat} (hpos : a.length = pos) (payload : Bytes) (mask : Bool) :
    takeMask (a ++ bodyText payload mask) mask pos =
      .ok (if mask then defaultMask else fun _ => 0, pos + if mask then 4 else 0) := by
  cases mask with
  | false => rfl
  | true =>
    have hkey : (List.ofFn defaultMask).length = 4 := List.length_ofFn
    have hdrop : (a ++ bodyText payload true).drop pos =
        List.ofFn defaultMask ++ xorMask defaultMask payload := List.drop_left' hpos
    have hroom : pos + 4 ≤ (a ++ bodyText payload true).length := by
      rw [List.length_append, length_bodyText, if_pos rfl]
      omega
    have hfield : (sliceOf (a ++ bodyText payload true) pos (pos + 4) : Except (Failure Unit) Bytes) =
        .ok (List.ofFn defaultMask) := sliceOf_of_drop (by omega) hdrop
    have hread : (fun i : Fin 4 => (List.ofFn defaultMask).getD i 0) = defaultMask := by
      funext i
      rw [List.getD_eq_getElem?_getD, List.getElem?_ofFn, dif_pos i.isLt]
      rfl
    rw [takeMask, if_pos rfl, if_neg (Nat.not_lt.mpr hroom), hfield, ok_bind, hread]
    rfl

theorem rangeOf_append {a p : Bytes} {pos : Nat} (hpos : a.length = pos) :
    rangeOf (a ++ p) pos (pos + p.length) = some p := by
  rw [rangeOf, if_pos ⟨Nat.le_add_right _ _, by rw [List.length_append, hpos]⟩,
    drop_take_of_drop (t := []) (by rw [List.drop_left' hpos, List.append_nil])]

/-- **A frame is decoded** to its flag, its opcode and its payload. -/
theorem decodeFrame_frameText (opcode : UInt8) (payload : Slice) (mask fin : Bool) :
    decodeFrame (frameText opcode payload.1 mask fin) = .ok ⟨fin, opcode &&& 0x0f, payload.1⟩ := by
  have hfin := (flagBit_or fin (n := opcode &&& 0x0f) (by rw [UInt8.and_assoc]; rfl)).1
  have hopcode := flagBit_or_and fin opcode
  obtain ⟨hmask, hshort⟩ := flagBit_or mask (lengthField_and payload.1.length)
  have hlength := takeLength_eq (flagBit fin ||| (opcode &&& 0x0f))
    (flagBit mask ||| (lengthField payload.1.length).1) payload.2 (bodyText payload.1 mask)
  have hheader := length_headerText opcode payload.1.length mask fin
  have hkey := takeMask_eq hheader payload.1 mask
  have hbound := payload.2
  have hfield : (lengthField payload.1.length).2.length ≤ 8 := by
    rw [length_lengthField]
    split_ifs <;> decide
  -- what stands behind the key
  have hrange : rangeOf (headerText opcode payload.1.length mask fin ++ bodyText payload.1 mask)
      (2 + (lengthField payload.1.length).2.length + if mask then 4 else 0)
      (2 + (lengthField payload.1.length).2.length + (if mask then 4 else 0) + payload.1.length) =
        some (if mask then xorMask defaultMask payload.1 else payload.1) := by
    cases mask with
    | false => exact rangeOf_append hheader
    | true =>
      have hbehind : (headerText opcode payload.1.length true fin ++ List.ofFn defaultMask).length =
          2 + (lengthField payload.1.length).2.length + 4 := by
        rw [List.length_append, hheader, List.length_ofFn]
      have happend := rangeOf_append (p := xorMask defaultMask payload.1) hbehind
      rw [length_xorMask, List.append_assoc] at happend
      exact happend
  have hstop : (usize (2 + (lengthField payload.1.length).2.length + (if mask then 4 else 0) +
      payload.1.length) : Except (Failure Unit) Nat) = .ok _ := usize_of_lt (by split_ifs <;> omega)
  rw [frameText]
  simp only [headerText, List.cons_append] at hkey hrange ⊢
  simp only [decodeFrame, hfin, hopcode, hmask, hshort, hlength, ok_bind, hkey, hstop, hrange, orFail_some]
  cases mask with
  | false => rfl
  | true =>
    have hunmask : maskedCopy (List.replicate (xorMask defaultMask payload.1).length 0)
        (xorMask defaultMask payload.1) defaultMask = .ok payload.1 := by
      rw [maskedCopy_eq _ List.length_replicate, xorMask_xorMask]
    simp only [if_true, hunmask, ok_bind]
    rfl

/-- **The frame round trip**, for every opcode, payload, mask and flag. A frame is made, and decoded to
the low bits of the opcode, the flag and the payload; the encoder into a buffer writes the same bytes
to the front of any buffer that is large enough, and refuses exactly the others; and the masked copy
is the exclusive or with the key, byte by byte. -/
theorem ws_frame_round_trip (opcode : UInt8) (payload : Slice) (mask fin : Bool) :
    ∃ frame, encodeFrame opcode payload mask fin = .ok frame ∧
      decodeFrame frame = .ok ⟨fin, opcode &&& 0x0f, payload.1⟩ ∧
      (∀ out : Bytes,
        (encodeFrameInto opcode payload mask fin out = .error (.fail ()) ↔ out.length < frame.length) ∧
        (frame.length ≤ out.length →
          encodeFrameInto opcode payload mask fin out = .ok (frame.length, frame ++ out.drop frame.length))) ∧
      ∀ (key : Mask) (dst : Bytes), dst.length = payload.1.length →
        maskedCopy dst payload.1 key = .ok (payload.1.mapIdx fun i b => b ^^^ key (Fin.ofNat 4 i)) := by
  refine ⟨frameText opcode payload.1 mask fin, encodeFrame_eq opcode payload mask fin,
    decodeFrame_frameText opcode payload mask fin, fun out => ?_, fun key dst hlen => maskedCopy_eq key hlen⟩
  rw [encodeFrameInto_eq]
  refine ⟨?_, fun hroom => ?_⟩
  · split
    · next hsmall => exact iff_of_true rfl hsmall
    · next hsmall => exact iff_of_false nofun hsmall
  · rw [if_neg (Nat.not_lt.mpr hroom), placed, List.take_zero, List.nil_append, Nat.zero_add]

/-- The masked text frame of the RFC, into a buffer with room to spare. -/
theorem ws_frame_round_trip_hello :
    encodeFrameInto 1 ⟨utf8 "Hello", by decide⟩ true true (List.replicate 12 0) =
      .ok (11, [0x81, 0x85, 0x37, 0xfa, 0x21, 0x3d, 0x7f, 0x9f, 0x4d, 0x51, 0x58, 0]) := by
  obtain ⟨frame, hframe, -, hinto, -⟩ := ws_frame_round_trip 1 ⟨utf8 "Hello", by decide⟩ true true
  rw [encodeFrame_eq] at hframe
  obtain rfl := Except.ok.inj hframe
  rw [(hinto (List.replicate 12 0)).2 (by decide)]
  decide

end Castrum.WsFrames
