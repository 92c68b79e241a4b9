import Castrum.Util.BatchParallel

/-!
# Castrum — packed batches on both sides (`src/shared/packed/wire.ts`)

The TypeScript half of the wire format, and the round trip over the language boundary. A length or a
count is written into four bytes, so both packers keep it modulo `2 ^ 32`.

* `packBatch_eq` — the TypeScript packer writes a `packedFrame`;
* `unpackFrom_eq_ok_iff` — the TypeScript unpacker accepts what `collect_vec` accepts;
* `packed_roundTrip` — what either side writes the other reads, and what Rust reads of other bytes.
-/

namespace Castrum

namespace PackedWire

/-! ## The source -/

def readU32 (bytes : Bytes) (offset : Nat) : Except String Nat :=
  orFail "packed buffer: truncated u32" (Castrum.readU32 bytes offset)

def readSlice (bytes : Bytes) (offset len : Nat) : Except String Bytes :=
  orFail "packed buffer: truncated bytes" (readBytes bytes offset len)

def unpackFrom (bytes : Bytes) : Nat → Nat → Except String (List Bytes)
  | 0, _ => .ok []
  | n + 1, offset => do
    let len ← readU32 bytes offset
    let slice ← readSlice bytes (offset + 4) len
    let out ← unpackFrom bytes n (offset + 4 + len)
    .ok (slice :: out)

def unpackByteResults (bytes : Bytes) : Except String (List Bytes) :=
  if bytes.length < 4 then .ok []
  else do
    let count ← readU32 bytes 0
    unpackFrom bytes count 4

def packedTotal (items : List Bytes) : Nat :=
  items.foldl (fun total item => total + (4 + item.length)) 4

/-- `setUint32` and `target.set` for one item, and the position behind it. -/
def writeItem (state : Bytes × Nat) (item : Bytes) : Bytes × Nat :=
  (placed (placed state.1 state.2 (le32 item.length)) (state.2 + 4) item, state.2 + 4 + item.length)

def writePack (items : List Bytes) (target : Bytes) (offset : Nat) : Except String (Bytes × Nat) :=
  let stop := offset + packedTotal items
  if target.length < stop then
    .error ("packed buffer: target too small (" ++ toString target.length ++ " < " ++ toString stop ++
      ")")
  else .ok ((items.foldl writeItem (placed target offset (le32 items.length), offset + 4)).1, stop)

def packBatch (items : List Bytes) : Except String Bytes :=
  (writePack items (List.replicate (packedTotal items) 0) 0).map Prod.fst

/-! ## The packer -/

theorem packedTotal_eq (items : List Bytes) : packedTotal items = (packedFrame items).length := by
  have hloop : ∀ (items : List Bytes) (total : Nat),
      items.foldl (fun total item => total + (4 + item.length)) total =
        total + (items.flatMap packedComponent).length := by
    intro items
    induction items with
    | nil =>
      intro total
      rfl
    | cons item items ih =>
      intro total
      rw [List.foldl_cons, ih, List.flatMap_cons, List.length_append, length_packedComponent,
        Nat.add_assoc]
  rw [packedTotal, hloop, packedFrame, List.length_append, length_le32]

theorem foldl_writeItem {target : Bytes} {offset : Nat} (hoffset : offset ≤ target.length)
    (items : List Bytes) (text : Bytes) :
    (items.foldl writeItem (placed target offset text, offset + text.length)).1 =
      placed target offset (text ++ items.flatMap packedComponent) := by
  induction items generalizing text with
  | nil =>
    rw [List.flatMap_nil, List.append_nil]
    rfl
  | cons item items ih =>
    have hitem : writeItem (placed target offset text, offset + text.length) item =
        (placed target offset (text ++ packedComponent item),
          offset + (text ++ packedComponent item).length) := by
      have hlength := placed_placed hoffset text (le32 item.length)
      have hbytes := placed_placed hoffset (text ++ le32 item.length) item
      rw [List.length_append, length_le32, ← Nat.add_assoc] at hbytes
      rw [writeItem, hlength, hbytes, packedComponent, List.append_assoc, List.length_append,
        List.length_append, length_le32]
      simp only [Nat.add_assoc]
    rw [List.foldl_cons, hitem, ih, List.flatMap_cons, List.append_assoc]

theorem packBatch_eq (items : List Bytes) : packBatch items = .ok (packedFrame items) := by
  have hlength : (List.replicate (packedTotal items) (0 : UInt8)).length = packedTotal items :=
    List.length_replicate
  have hloop := foldl_writeItem (Nat.zero_le (List.replicate (packedTotal items) (0 : UInt8)).length)
    items (le32 items.length)
  rw [length_le32] at hloop
  rw [packBatch, writePack]
  rw [if_neg (by rw [hlength]; omega), hloop]
  show Except.ok (placed _ 0 (packedFrame items)) = _
  rw [placed, List.take_zero, List.nil_append, Nat.zero_add, ← packedTotal_eq,
    List.drop_eq_nil_of_le (Nat.le_of_eq hlength), List.append_nil]

/-! ## The unpacker -/

theorem readU32_of_le {bytes : Bytes} {offset : Nat} (h : ¬ bytes.length < offset + 4) :
    readU32 bytes offset = .ok (wordOf ((bytes.drop offset).take 4)) := by
  rw [readU32, Castrum.readU32, readWord, if_pos (Nat.le_of_not_lt h), orFail_some]

/-- Both languages make the same two tests for each frame. -/
theorem unpackFrom_eq_ok_iff (bytes : Bytes) (n offset : Nat) (xs : List Bytes) :
    unpackFrom bytes n offset = .ok xs ↔ PackedIter.collectFrom bytes n offset = .ok xs := by
  induction n generalizing offset xs with
  | zero =>
    show Except.ok [] = Except.ok xs ↔ Except.ok [] = Except.ok xs
    rw [Except.ok.injEq, Except.ok.injEq]
  | succ n ih =>
    rw [unpackFrom, PackedIter.collectFrom]
    by_cases hfour : bytes.length < offset + 4
    · rw [if_pos hfour, readU32, Castrum.readU32, readWord, if_neg (Nat.not_le_of_lt hfour)]
      exact iff_of_false (fun h => by cases h) (fun h => by cases h)
    · rw [if_neg hfour, readU32_of_le hfour, PackedIter.lengthAt_of_le hfour, ok_bind, ok_bind]
      by_cases hlen : bytes.length < offset + 4 + wordOf ((bytes.drop offset).take 4)
      · rw [if_pos hlen, readSlice, readBytes, if_neg (Nat.not_le_of_lt hlen)]
        exact iff_of_false (fun h => by cases h) (fun h => by cases h)
      · rw [if_neg hlen, readSlice, readBytes, if_pos (Nat.le_of_not_lt hlen), orFail_some, ok_bind,
          PackedIter.slice_of_le hlen, ok_bind, bind_eq_ok_iff, bind_eq_ok_iff]
        constructor
        · rintro ⟨out, hout, hcons⟩
          rw [Except.ok.injEq] at hcons
          exact ⟨out, (ih _ _).mp hout, congrArg _ hcons⟩
        · rintro ⟨out, hout, hcons⟩
          rw [Except.ok.injEq] at hcons
          exact ⟨out, (ih _ _).mpr hout, congrArg _ hcons⟩

open Packed

/-- **The unpacker** takes the batches that are well formed, and gives their items. -/
theorem unpackByteResults_of_wellFormed {data : Bytes} (h : WellFormed data) :
    unpackByteResults data = .ok (items data) := by
  have hcount : readU32 data 0 = .ok (declared data) := readU32_of_le (Nat.not_lt.mpr h.1)
  rw [unpackByteResults, if_neg (Nat.not_lt.mpr h.1), hcount, ok_bind, unpackFrom_eq_ok_iff]
  exact PackedIter.collectFrom_of_complete h.2

/-- A frame that fits its fields is read back. -/
theorem unpackByteResults_packedFrame {xs : List Bytes} (hpacks : Packs xs)
    (hcount : xs.length < 2 ^ 32) : unpackByteResults (packedFrame xs) = .ok xs := by
  rw [unpackByteResults_of_wellFormed (wellFormed_packedFrame hpacks hcount),
    items_packedFrame hpacks hcount]

/-! ## The round trip -/

/-- **The longest valid frame prefix** of a body, up to a count of frames. -/
structure LongestPrefix (count : Nat) (body : Bytes) (xs : List Bytes) : Prop where
  packs : Packs xs
  length_le : xs.length ≤ count
  starts : ∃ rest, body = xs.flatMap packedComponent ++ rest
  longest : ∀ ys rest, Packs ys → ys.length ≤ count → body = ys.flatMap packedComponent ++ rest →
    ys <+: xs

theorem longestPrefix_frames (count : Nat) (body : Bytes) : LongestPrefix count body (frames count body) := by
  obtain ⟨hlength, hpacks, hstarts⟩ := frames_spec count body
  refine ⟨hpacks, hlength, hstarts, ?_⟩
  rintro ys rest hys hcount rfl
  exact frames_longest hys hcount

/-- The validating reader fails where the items are fewer than announced, and panics nowhere. -/
theorem collectVec_fails_iff {data : Bytes} {it : PackedIter} (hnew : PackedIter.new data = .ok it) :
    ((∃ e, it.collectVec = .error e) ↔ (items data).length < declared data) ∧
      it.collectVec ≠ .error .panic := by
  by_cases h : WellFormed data
  · have hvec : it.collectVec = .ok (items data) := by
      have hunpack := unpack_of_wellFormed h
      rwa [unpack, hnew, ok_bind] at hunpack
    rw [hvec]
    refine ⟨iff_of_false (by simp) ?_, by simp⟩
    rw [h.2]
    exact Nat.lt_irrefl _
  · obtain ⟨e, he⟩ := collectVec_of_not_wellFormed hnew h
    rw [he]
    refine ⟨iff_of_true ⟨_, rfl⟩ ?_, by simp⟩
    apply Nat.lt_of_le_of_ne (items_length_le data)
    intro hall
    exact h ⟨(PackedIter.new_eq_ok_iff.mp hnew).1, hall⟩

/-- **Round trips over the language boundary.** What TypeScript packs Rust reads, by either reader;
what Rust packs, whatever its mapper gives, TypeScript reads. Of other bytes the iterator yields the
longest prefix of valid frames, and `collect_vec` fails exactly when that is shorter than announced;
no reader leaves the buffer. -/
theorem packed_roundTrip :
    (∀ xs, Packs xs → xs.length < 2 ^ 32 → ∃ data it, packBatch xs = .ok data ∧
      PackedIter.new data = .ok it ∧ it.collect = .ok xs ∧ it.collectVec = .ok xs) ∧
    (∀ xs, Packs xs → xs.length < 2 ^ 32 → ∀ f : Bytes → Bytes, Packs (xs.map f) →
      ∃ data out, packBatch xs = .ok data ∧ (∀ pool, runPackedBatch pool data f = .ok out) ∧
        bytesMapSerial data f = .ok out ∧ unpackByteResults out = .ok (xs.map f)) ∧
    (∀ data it, PackedIter.new data = .ok it →
      (∃ xs, it.collect = .ok xs ∧ LongestPrefix (declared data) (data.drop 4) xs ∧
        ((∃ e, it.collectVec = .error e) ↔ xs.length < declared data)) ∧
      it.collectVec ≠ .error .panic) ∧
    (∀ it : PackedIter, it.next ≠ .error .panic) := by
  -- All four parts rest on one fact: the packed frame is well formed and its items are the inputs.
  refine ⟨?_, ?_, ?_, PackedIter.next_ne_panic⟩
  · intro xs hpacks hcount
    have hwell := wellFormed_packedFrame hpacks hcount
    have hitems := items_packedFrame hpacks hcount
    refine ⟨_, _, packBatch_eq xs, new_of_wellFormed hwell, ?_, ?_⟩
    · rw [collect_of_new (new_of_wellFormed hwell), hitems]
    · have hunpack := unpack_of_wellFormed hwell
      rwa [unpack, new_of_wellFormed hwell, ok_bind, hitems] at hunpack
  · intro xs hpacks hcount f hresults
    have hwell := wellFormed_packedFrame hpacks hcount
    have hitems := items_packedFrame hpacks hcount
    refine ⟨_, packedFrame (xs.map f), packBatch_eq xs, ?_, ?_, ?_⟩
    · intro pool
      rw [runPackedBatch_of_wellFormed pool hwell, hitems]
    · rw [bytesMapSerial_of_wellFormed hwell, hitems]
    · exact unpackByteResults_packedFrame hresults (by rwa [List.length_map])
  · intro data it hnew
    obtain ⟨hfails, hpanic⟩ := collectVec_fails_iff hnew
    exact ⟨⟨_, collect_of_new hnew, longestPrefix_frames _ _, hfails⟩, hpanic⟩

/-- Two items, one of them empty, and a batch that is cut off in its second item. -/
theorem packed_roundTrip_small :
    (∃ data it, packBatch [[104, 105], []] = .ok data ∧ PackedIter.new data = .ok it ∧
      it.collect = .ok [[104, 105], []] ∧ it.collectVec = .ok [[104, 105], []]) ∧
    (∃ xs, PackedIter.collect ⟨[2, 0, 0, 0, 1, 0, 0, 0, 7, 9, 0, 0, 0], 4, 2⟩ = .ok xs ∧
      LongestPrefix 2 [1, 0, 0, 0, 7, 9, 0, 0, 0] xs) := by
  obtain ⟨hwrite, -, hread, -⟩ := packed_roundTrip
  refine ⟨hwrite _ (by decide) (by decide), ?_⟩
  obtain ⟨⟨xs, hxs, hlongest, -⟩, -⟩ :=
    hread [2, 0, 0, 0, 1, 0, 0, 0, 7, 9, 0, 0, 0] ⟨_, 4, 2⟩ rfl
  exact ⟨xs, hxs, hlongest⟩

/-- An item of `2 ^ 32` bytes is announced as empty. -/
theorem packed_roundTrip_fails_huge :
    ¬ ∃ data it, packBatch [List.replicate (2 ^ 32) 0] = .ok data ∧ PackedIter.new data = .ok it ∧
      it.collectVec = .ok [List.replicate (2 ^ 32) 0] := by
  rintro ⟨data, it, -, hnew, hvec⟩
  by_cases h : WellFormed data
  · have hunpack := unpack_of_wellFormed h
    rw [unpack, hnew, ok_bind, hvec, Except.ok.injEq] at hunpack
    -- what is read fits its length field
    have hpacks := (frames_spec (declared data) (data.drop 4)).2.1
    rw [show frames (declared data) (data.drop 4) = items data from rfl, ← hunpack] at hpacks
    have hlt := hpacks _ List.mem_cons_self
    rw [List.length_replicate] at hlt
    exact Nat.lt_irrefl _ hlt
  · obtain ⟨e, he⟩ := collectVec_of_not_wellFormed hnew h
    rw [he] at hvec
    cases hvec

end PackedWire

end Castrum
