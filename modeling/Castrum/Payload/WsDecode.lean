import Castrum.Payload.WsFrames

/-!
# Castrum — WebSocket frames from a peer (`decode_frame` of `rust/payload/ws_frames.rs`)

The length of a frame is the peer's choice. Behind the second byte `127` it is a whole `u64`, which
is added to the position behind the header before it is compared with anything; a sum that does not
fit into `usize` traps.

* `takeLength_cases` / `takeMask_cases` — what the two parts of the header can come to;
* `Overflows` — the frames whose end is not a `usize`;
* `decodeFrame_total_iff` — on all others, and on those only, the decoder answers, and a frame that it
  returns lies inside the input.
-/

namespace Castrum.WsFrames

/-! ## What a frame is -/

/-- The frame lies inside the input: its payload is a range of it, as it is or unmasked. -/
def Within (data : Bytes) (f : Frame) : Prop :=
  ∃ a p b, data = a ++ (p ++ b) ∧ (f.payload = p ∨ ∃ key, f.payload = xorMask key p)

/-- The length in the eight bytes behind the first two. -/
def longLength (data : Bytes) : Nat := wordOf ((data.drop 2).take 8).reverse

/-- Where the payload starts behind a length of eight bytes. -/
def longHeader (data : Bytes) : Nat := if data.getD 1 0 &&& 0x80 != 0 then 14 else 10

/-- The header is complete, and the end that its length of eight bytes announces is not a `usize`. -/
def Overflows (data : Bytes) : Prop :=
  data.getD 1 0 &&& 0x7f = 127 ∧ longHeader data ≤ data.length ∧
    2 ^ 64 ≤ longHeader data + longLength data

instance (data : Bytes) : Decidable (Overflows data) := inferInstanceAs (Decidable (_ ∧ _))

/-! ## The header -/

section

variable {data : Bytes} {short : UInt8} {pos : Nat}

theorem sliceOf_of_le {n : Nat} (h : pos + n ≤ data.length) :
    (sliceOf data pos (pos + n) : Except (Failure Unit) Bytes) = .ok ((data.drop pos).take n) := by
  rw [sliceOf, if_pos ⟨Nat.le_add_right pos n, h⟩, List.take_drop, Nat.add_comm]

/-- The length is missing, or it is the eight-byte one, or it is less than `2 ^ 16`. -/
theorem takeLength_cases (data : Bytes) (short : UInt8) :
    (takeLength data short = .error (.fail ()) ∧ (short = 127 → data.length < 10)) ∨
    (short = 127 ∧ 10 ≤ data.length ∧ takeLength data short = .ok (longLength data, 10)) ∨
    (short ≠ 127 ∧ ∃ len pos, takeLength data short = .ok (len, pos) ∧ len < 2 ^ 16 ∧ pos ≤ 4) := by
  unfold takeLength
  by_cases hmedium : short = 126
  · rw [if_pos hmedium]
    by_cases hroom : data.length < 2 + 2
    · exact .inl ⟨if_pos hroom, fun _ => by omega⟩
    · rw [if_neg hroom, sliceOf_of_le (Nat.not_lt.mp hroom)]
      have hlt := wordOf_lt ((data.drop 2).take 2).reverse
      have hlen : ((data.drop 2).take 2).reverse.length = 2 := by
        rw [List.length_reverse, List.length_take, List.length_drop]
        omega
      rw [hlen] at hlt
      refine .inr (.inr ⟨?_, _, _, rfl, hlt, Nat.le_refl _⟩)
      rw [hmedium]
      decide
  · rw [if_neg hmedium]
    by_cases hlong : short = 127
    · rw [if_pos hlong]
      by_cases hroom : data.length < 2 + 8
      · exact .inl ⟨if_pos hroom, fun _ => hroom⟩
      · rw [if_neg hroom, sliceOf_of_le (Nat.not_lt.mp hroom)]
        exact .inr (.inl ⟨hlong, Nat.not_lt.mp hroom, rfl⟩)
    · rw [if_neg hlong]
      have hlt := short.toNat_lt
      exact .inr (.inr ⟨hlong, _, _, rfl, by omega, by decide⟩)

/-- The key is missing, or the payload starts behind it. -/
theorem takeMask_cases (data : Bytes) (masked : Bool) (pos : Nat) :
    (takeMask data masked pos = .error (.fail ()) ∧ data.length < pos + if masked then 4 else 0) ∨
    ∃ key, takeMask data masked pos = .ok (key, pos + if masked then 4 else 0) ∧
      (masked = true → pos + 4 ≤ data.length) := by
  unfold takeMask
  cases masked with
  | false => exact .inr ⟨_, rfl, nofun⟩
  | true =>
    rw [if_pos rfl]
    by_cases hroom : data.length < pos + 4
    · exact .inl ⟨if_pos hroom, hroom⟩
    · rw [if_neg hroom, sliceOf_of_le (Nat.not_lt.mp hroom)]
      exact .inr ⟨_, rfl, fun _ => Nat.not_lt.mp hroom⟩

/-! ## The payload -/

/-- Behind the header, once the end of the payload is known. -/
def finish (data : Bytes) (fin : Bool) (opcode : UInt8) (masked : Bool) (mask : Mask) (pos stop : Nat) :
    Except (Failure Unit) Frame := do
  let payload ← orFail (.fail ()) (rangeOf data pos stop)
  let payload ←
    if masked then maskedCopy (List.replicate payload.length 0) payload mask else .ok payload
  return ⟨fin, opcode, payload⟩

/-- A range of the input is a frame, or there is no such range. -/
theorem finish_cases (data : Bytes) (fin : Bool) (opcode : UInt8) (masked : Bool) (mask : Mask)
    (pos stop : Nat) :
    (∃ f, finish data fin opcode masked mask pos stop = .ok f ∧ Within data f) ∨
      finish data fin opcode masked mask pos stop = .error (.fail ()) := by
  unfold finish rangeOf
  by_cases hin : pos ≤ stop ∧ stop ≤ data.length
  · left
    rw [if_pos hin, orFail_some, ok_bind]
    have hsplit : data = data.take pos ++ ((data.take stop).drop pos ++ data.drop stop) := by
      have hfront : data.take stop = data.take pos ++ (data.take stop).drop pos := by
        conv_lhs => rw [← List.take_append_drop pos (data.take stop)]
        rw [List.take_take, Nat.min_eq_left hin.1]
      rw [← List.append_assoc, ← hfront, List.take_append_drop]
    cases masked with
    | false => exact ⟨_, rfl, _, _, _, hsplit, .inl rfl⟩
    | true =>
      rw [if_pos rfl, maskedCopy_eq mask List.length_replicate, ok_bind]
      exact ⟨_, rfl, _, _, _, hsplit, .inr ⟨mask, rfl⟩⟩
  · right
    rw [if_neg hin]
    rfl

end

/-! ## The decoder -/

/-- The decoder answers: a frame that lies inside the input, or `None`. -/
def Answers (data : Bytes) : Prop :=
  (∃ f, decodeFrame data = .ok f ∧ Within data f) ∨ decodeFrame data = .error (.fail ())

/-- The steps behind a header that is complete. -/
theorem decodeFrame_header {b0 b1 : UInt8} {rest : Bytes} {len pos pos' : Nat} {key : Mask}
    (hlength : takeLength (b0 :: b1 :: rest) (b1 &&& 0x7f) = .ok (len, pos))
    (hmask : takeMask (b0 :: b1 :: rest) (b1 &&& 0x80 != 0) pos = .ok (key, pos')) :
    decodeFrame (b0 :: b1 :: rest) = usize (pos' + len) >>= fun stop =>
      finish (b0 :: b1 :: rest) (b0 &&& 0x80 != 0) (b0 &&& 0x0f) (b1 &&& 0x80 != 0) key pos' stop := by
  simp only [decodeFrame, hlength, ok_bind, hmask]
  rfl

theorem answers_of_lt {b0 b1 : UInt8} {rest : Bytes} {len pos pos' : Nat} {key : Mask}
    (hlength : takeLength (b0 :: b1 :: rest) (b1 &&& 0x7f) = .ok (len, pos))
    (hmask : takeMask (b0 :: b1 :: rest) (b1 &&& 0x80 != 0) pos = .ok (key, pos'))
    (hlt : pos' + len < 2 ^ 64) : Answers (b0 :: b1 :: rest) := by
  unfold Answers
  rw [decodeFrame_header hlength hmask, usize_of_lt hlt, ok_bind]
  exact finish_cases _ _ _ _ _ _ _

/-- An end that is no `usize` traps. -/
theorem decodeFrame_panics {b0 b1 : UInt8} {rest : Bytes} {len pos pos' : Nat} {key : Mask}
    (hlength : takeLength (b0 :: b1 :: rest) (b1 &&& 0x7f) = .ok (len, pos))
    (hmask : takeMask (b0 :: b1 :: rest) (b1 &&& 0x80 != 0) pos = .ok (key, pos'))
    (hle : 2 ^ 64 ≤ pos' + len) : decodeFrame (b0 :: b1 :: rest) = .error .panic := by
  rw [decodeFrame_header hlength hmask, usize, if_neg (Nat.not_lt.mpr hle)]
  rfl

/-- A header that is not complete. -/
theorem answers_of_fail {b0 b1 : UInt8} {rest : Bytes}
    (h : takeLength (b0 :: b1 :: rest) (b1 &&& 0x7f) = .error (.fail ()) ∨
      ∃ len pos, takeLength (b0 :: b1 :: rest) (b1 &&& 0x7f) = .ok (len, pos) ∧
        takeMask (b0 :: b1 :: rest) (b1 &&& 0x80 != 0) pos = .error (.fail ())) :
    Answers (b0 :: b1 :: rest) := by
  right
  rcases h with hlength | ⟨len, pos, hlength, hmask⟩
  · simp only [decodeFrame, hlength]
    rfl
  · simp only [decodeFrame, hlength, ok_bind, hmask]
    rfl

theorem longHeader_eq (b0 b1 : UInt8) (rest : Bytes) :
    longHeader (b0 :: b1 :: rest) = 10 + if b1 &&& 0x80 != 0 then 4 else 0 := by
  show (if b1 &&& 0x80 != 0 then 14 else 10) = _
  split <;> rfl

/-- A length of eight bytes. -/
theorem answers_long_iff {b0 b1 : UInt8} {rest : Bytes} (hlong : b1 &&& 0x7f = 127)
    (hroom : 10 ≤ (b0 :: b1 :: rest).length)
    (hlength : takeLength (b0 :: b1 :: rest) (b1 &&& 0x7f) = .ok (longLength (b0 :: b1 :: rest), 10)) :
    Answers (b0 :: b1 :: rest) ↔ ¬ Overflows (b0 :: b1 :: rest) := by
  have hheader := longHeader_eq b0 b1 rest
  rcases takeMask_cases (b0 :: b1 :: rest) (b1 &&& 0x80 != 0) 10 with
    ⟨hmask, hlt⟩ | ⟨key, hmask, hfits⟩
  · refine iff_of_true (answers_of_fail (.inr ⟨_, _, hlength, hmask⟩)) fun h => ?_
    have hle := h.2.1
    omega
  · rw [← hheader] at hmask
    have hle : longHeader (b0 :: b1 :: rest) ≤ (b0 :: b1 :: rest).length := by
      rw [hheader]
      split
      · next hmasked => exact hfits hmasked
      · exact hroom
    -- the header is there, so that its length and the announced one are added
    by_cases hlt : longHeader (b0 :: b1 :: rest) + longLength (b0 :: b1 :: rest) < 2 ^ 64
    · refine iff_of_true (answers_of_lt hlength hmask hlt) fun h => ?_
      have hge := h.2.2
      omega
    · have hpanic := decodeFrame_panics hlength hmask (Nat.not_lt.mp hlt)
      refine iff_of_false ?_ fun h => h ⟨hlong, hle, Nat.not_lt.mp hlt⟩
      unfold Answers
      rw [hpanic]
      rintro (⟨f, hf, -⟩ | hf) <;> cases hf

/-- A shorter length, with which the sum is far from the bound. -/
theorem answers_short {b0 b1 : UInt8} {rest : Bytes} {len pos : Nat}
    (hlength : takeLength (b0 :: b1 :: rest) (b1 &&& 0x7f) = .ok (len, pos))
    (hlen : len < 2 ^ 16) (hpos : pos ≤ 4) : Answers (b0 :: b1 :: rest) := by
  rcases takeMask_cases (b0 :: b1 :: rest) (b1 &&& 0x80 != 0) pos with
    ⟨hmask, -⟩ | ⟨key, hmask, -⟩
  · exact answers_of_fail (.inr ⟨_, _, hlength, hmask⟩)
  · apply answers_of_lt hlength hmask
    split <;> omega

/-- **Decoding is total exactly where the announced end is a `usize`.** There the decoder returns a
frame that lies inside the input, or `None`; elsewhere it traps. -/
theorem decodeFrame_total_iff (data : Slice) : Answers data.1 ↔ ¬ Overflows data.1 := by
  obtain ⟨data, hbound⟩ := data
  show Answers data ↔ ¬ Overflows data
  match data with
  | [] => exact iff_of_true (.inr rfl) fun h => absurd h.2.1 (by decide)
  | [b0] =>
    refine iff_of_true (.inr rfl) fun h => ?_
    -- the second byte is missing, and an absent byte does not read as `127`
    exact absurd (show (0 : UInt8) &&& 0x7f = 127 from h.1) (by decide)
  | b0 :: b1 :: rest =>
    rcases takeLength_cases (b0 :: b1 :: rest) (b1 &&& 0x7f) with
      ⟨hlength, hshort⟩ | ⟨hlong, hroom, hlength⟩ | ⟨hnot, len, pos, hlength, hlen, hpos⟩
    · refine iff_of_true (answers_of_fail (.inl hlength)) fun h => ?_
      have hlt := hshort h.1
      have hheader := longHeader_eq b0 b1 rest
      have hle := h.2.1
      omega
    · exact answers_long_iff hlong hroom hlength
    · exact iff_of_true (answers_short hlength hlen hpos) fun h => hnot h.1

/-- Ten bytes that announce `2 ^ 64 - 1` more. -/
def hostileFrame : Bytes := [0x82, 0x7f, 255, 255, 255, 255, 255, 255, 255, 255]

/-- The decoder traps on them. -/
theorem decodeFrame_hostile : decodeFrame hostileFrame = .error .panic ∧ ¬ Answers hostileFrame := by
  have hpanic : decodeFrame hostileFrame = .error .panic := by decide
  refine ⟨hpanic, ?_⟩
  unfold Answers
  rw [hpanic]
  rintro (⟨f, hf, -⟩ | hf) <;> cases hf

end Castrum.WsFrames
