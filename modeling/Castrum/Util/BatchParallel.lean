import Castrum.Util.Batch

/-!
# Castrum — the parallel drivers agree with the one-pass loops

Each slice of a buffer is filled from the items that belong to it. Over bits, a slice starts at an item
whose number is a multiple of eight, so that its bytes are whole; over numbers, at a multiple of their
size.

* `markRange` — the bits of a range of items, written into the bytes that hold them;
* `markChunks_eq` / `storeChunks_eq` — slices, in any order, against the one-pass loop;
* `batch_parallel_eq_serial` — bitsets, numbers and frames, with and without a stale buffer.
-/

namespace Castrum

open Packed

/-! ## Bits -/

section

variable {A B : Bytes} {j i : Nat} {passes : Bool}

theorem length_markBit (passes : Bool) (j i : Nat) (bits : Bytes) :
    (markBit passes j i bits).length = bits.length := by
  unfold markBit
  split
  · exact List.length_modify _ _ _
  · rfl

theorem markBit_append_left (h : j < A.length) :
    markBit passes j i (A ++ B) = markBit passes j i A ++ B := by
  unfold markBit
  split
  · rw [List.modify_eq_take_cons_drop (by rw [List.length_append]; omega),
      List.modify_eq_take_cons_drop h, List.take_append_of_le_length (Nat.le_of_lt h),
      List.drop_append_of_le_length h, List.getElem_append_left h, List.append_assoc,
      List.cons_append]
  · rfl

theorem markBit_append_right :
    markBit passes (A.length + j) i (A ++ B) = A ++ markBit passes j i B := by
  unfold markBit
  split
  · exact List.modifyTailIdx_add _ _ _ _
  · rfl

end

section

variable {p : Nat → Bool} {A B : Bytes}

theorem length_foldl_markBit (g : Nat → Nat) (l : List Nat) (bits : Bytes) :
    (l.foldl (fun bits i => markBit (p i) (g i) i bits) bits).length = bits.length := by
  induction l generalizing bits with
  | nil => rfl
  | cons i l ih => rw [List.foldl_cons, ih, length_markBit]

theorem foldl_markBit_left {g : Nat → Nat} {l : List Nat} (h : ∀ i ∈ l, g i < A.length) :
    l.foldl (fun bits i => markBit (p i) (g i) i bits) (A ++ B) =
      l.foldl (fun bits i => markBit (p i) (g i) i bits) A ++ B := by
  induction l generalizing A with
  | nil => rfl
  | cons i l ih =>
    obtain ⟨hi, hl⟩ := List.forall_mem_cons.mp h
    rw [List.foldl_cons, List.foldl_cons, markBit_append_left hi]
    apply ih
    rwa [length_markBit]

theorem foldl_markBit_right {g g' : Nat → Nat} {l : List Nat}
    (h : ∀ i ∈ l, g i = A.length + g' i) :
    l.foldl (fun bits i => markBit (p i) (g i) i bits) (A ++ B) =
      A ++ l.foldl (fun bits i => markBit (p i) (g' i) i bits) B := by
  induction l generalizing B with
  | nil => rfl
  | cons i l ih =>
    obtain ⟨hi, hl⟩ := List.forall_mem_cons.mp h
    rw [List.foldl_cons, List.foldl_cons, hi, markBit_append_right]
    exact ih hl

/-- The bits of the items `s` to `s + n`, in bytes that start with the bit of `s`. -/
def markRange (p : Nat → Bool) (s n : Nat) (bits : Bytes) : Bytes :=
  (List.range' s n).foldl (fun bits i => markBit (p i) (i / 8 - s / 8) i bits) bits

theorem length_markRange (p : Nat → Bool) (s n : Nat) (bits : Bytes) :
    (markRange p s n bits).length = bits.length :=
  length_foldl_markBit _ _ _

theorem markRange_nil {s n : Nat} : markRange p s n [] = [] :=
  List.eq_nil_of_length_eq_zero (length_markRange p s n [])

/-- **Cutting the bits.** The bytes in front hold eight items each. -/
theorem markRange_append {s n : Nat} (hs : s % 8 = 0) :
    markRange p s n (A ++ B) =
      markRange p s (min n (8 * A.length)) A ++
        markRange p (s + 8 * A.length) (n - 8 * A.length) B := by
  have hrange : List.range' s n = List.range' s (min n (8 * A.length)) ++
      List.range' (s + min n (8 * A.length)) (n - min n (8 * A.length)) := by
    rw [List.range'_append_1, Nat.add_sub_cancel' (Nat.min_le_left _ _)]
  have hleft : ∀ i ∈ List.range' s (min n (8 * A.length)), i / 8 - s / 8 < A.length := by
    intro i hi
    rw [List.mem_range'_1] at hi
    omega
  rw [markRange, hrange, List.foldl_append, foldl_markBit_left hleft]
  by_cases hn : n ≤ 8 * A.length
  · -- nothing is left for the bytes behind
    rw [Nat.min_eq_left hn, Nat.sub_self, Nat.sub_eq_zero_of_le hn]
    rfl
  · rw [Nat.min_eq_right (by omega)]
    apply foldl_markBit_right
    intro i hi
    rw [List.mem_range'_1] at hi
    rw [length_foldl_markBit]
    omega

end

/-- A loop over numbered items is a loop over their numbers. -/
theorem foldl_zipIdx {σ : Type} (g : σ → Bytes → Nat → σ) (items : List Bytes) (s : σ) :
    items.zipIdx.foldl (fun s entry => g s entry.1 entry.2) s =
      (List.range' 0 items.length).foldl (fun s i => g s (items.getD i []) i) s := by
  have hmap : items.zipIdx = (List.range' 0 items.length).map fun i => (items.getD i [], i) := by
    apply List.ext_getElem
    · simp
    · intro i hi hi'
      rw [List.length_zipIdx] at hi
      simp [List.getD, List.getElem?_eq_getElem hi]
  rw [hmap, List.foldl_map]

/-- The one-pass loop writes the bits of all items behind the header. -/
theorem markItems_eq (f : Bytes → Bool) (items : List Bytes) {pos : Nat} {header : Bytes}
    (hpos : header.length = pos) (bits : Bytes) :
    markItems f pos items (header ++ bits) =
      header ++ markRange (fun i => f (items.getD i [])) 0 items.length bits := by
  rw [markItems, foldl_zipIdx (fun out item i => markBit (f item) (pos + i >>> 3) i out)]
  apply foldl_markBit_right
  intro i _
  rw [hpos, Nat.shiftRight_eq_div_pow, Nat.zero_div, Nat.sub_zero]

/-- **The slices of a bitset**, filled in any order. -/
theorem markChunks_eq (schedule : List Nat) (f : Bytes → Bool) (items : List Bytes)
    {chunkBytes : Nat} (hchunk : 0 < chunkBytes) (count : Nat) (bits : Bytes) :
    markChunks schedule f items chunkBytes count bits =
      markRange (fun i => f (items.getD i [])) 0 count bits := by
  rw [markChunks, runTasks_eq, List.map_map, ← List.flatMap_def]
  have hslices := flatMap_chunksOf
    (fun k chunk => markRange (fun i => f (items.getD i [])) (k * chunkBytes * 8)
      (min (count - k * chunkBytes * 8) (8 * chunk.length)) chunk)
    (fun k bits => markRange (fun i => f (items.getD i [])) (k * chunkBytes * 8)
      (count - k * chunkBytes * 8) bits) (fun k => markRange_nil) ?_ hchunk 0 (Nat.le_refl bits.length)
  · rw [Nat.zero_mul, Nat.zero_mul, Nat.sub_zero] at hslices
    rw [← hslices, parChunksMut]
    apply List.flatMap_congr
    intro chunk _
    show List.foldl _ _ (List.map _ _) = _
    rw [List.foldl_map, markRange]
    have hwork : min (chunk.2 * chunkBytes * 8 + chunk.1.length * 8) count - chunk.2 * chunkBytes * 8 =
        min (count - chunk.2 * chunkBytes * 8) (8 * chunk.1.length) := by omega
    rw [hwork]
    rfl
  · intro k bits hbits
    have hnext : (k + 1) * chunkBytes * 8 = k * chunkBytes * 8 + 8 * chunkBytes := by ring
    have hcut := markRange_append (p := fun i => f (items.getD i [])) (A := bits.take chunkBytes)
      (B := bits.drop chunkBytes) (s := k * chunkBytes * 8) (n := count - k * chunkBytes * 8)
      (Nat.mul_mod_left _ _)
    rw [List.take_append_drop] at hcut
    show markRange _ _ _ bits = _
    rw [hcut]
    congr 1
    -- a slice that is shorter than the others is the last one
    by_cases hlen : chunkBytes ≤ bits.length
    · rw [List.length_take_of_le hlen, hnext, Nat.sub_sub]
    · rw [List.drop_eq_nil_of_le (by omega), markRange_nil, markRange_nil]

/-! ## Numbers -/

section

variable {T : Type} [ToLeBytes T]

/-- The numbers of the items, one behind the other. -/
def numbersText (f : Bytes → T) (items : List Bytes) : Bytes :=
  items.flatMap fun item => ToLeBytes.toLeBytes (f item)

theorem length_numbersText (f : Bytes → T) (items : List Bytes) :
    (numbersText f items).length = items.length * ToLeBytes.size T := by
  induction items with
  | nil => exact (Nat.zero_mul _).symm
  | cons item items ih =>
    rw [numbersText, List.flatMap_cons, List.length_append, ToLeBytes.length_toLeBytes]
    rw [show (items.flatMap fun item => ToLeBytes.toLeBytes (f item)).length = _ from ih,
      List.length_cons, Nat.add_mul, Nat.one_mul, Nat.add_comm]

/-- The one-pass loop writes the numbers over whatever was there. -/
theorem storeItems_eq (f : Bytes → T) {pos : Nat} (items : List Bytes) {out : Bytes}
    (hpos : pos ≤ out.length) : storeItems f pos items out = placed out pos (numbersText f items) := by
  -- after `k` items the first `k` numbers are there
  have hloop : ∀ (items : List Bytes) (k : Nat) (w : Bytes), w.length = k * ToLeBytes.size T →
      (items.zipIdx k).foldl (fun out entry => storeAt pos entry.2 (f entry.1) out)
        (placed out pos w) = placed out pos (w ++ numbersText f items) := by
    intro items
    induction items with
    | nil =>
      intro k w _
      rw [numbersText, List.flatMap_nil, List.append_nil]
      rfl
    | cons item items ih =>
      intro k w hw
      have hnext : (w ++ ToLeBytes.toLeBytes (f item)).length = (k + 1) * ToLeBytes.size T := by
        rw [List.length_append, hw, ToLeBytes.length_toLeBytes, Nat.add_mul, Nat.one_mul]
      rw [List.zipIdx_cons, List.foldl_cons, storeAt, ← hw, placed_placed hpos, ih _ _ hnext,
        List.append_assoc]
      rfl
  have hstart := hloop items 0 [] (Nat.zero_mul _).symm
  rwa [placed_nil, List.nil_append] at hstart

end

/-- A text written over a buffer, cut where the buffer is cut. -/
theorem placed_zero_append {A B a b : Bytes}
    (h : a.length = A.length ∨ (b = [] ∧ a.length ≤ A.length)) :
    placed (A ++ B) 0 (a ++ b) = placed A 0 a ++ placed B 0 b := by
  simp only [placed, List.take_zero, List.nil_append, Nat.zero_add]
  rcases h with hlen | ⟨rfl, hlen⟩
  · rw [List.length_append, hlen, ← List.drop_drop, List.drop_left, List.drop_length, List.append_nil,
      List.append_assoc]
  · rw [List.append_nil, List.drop_append_of_le_length hlen, List.nil_append, List.length_nil,
      List.drop_zero, List.append_assoc]

/-- `items[start..end]` for the end that the task computes. -/
theorem take_drop_slice (items : List Bytes) (start n : Nat) :
    (items.take (min (start + n) items.length)).drop start = (items.drop start).take n := by
  rw [List.drop_take, List.take_eq_take_iff, List.length_drop]
  omega

/-- **The slices of the sums**, filled in any order. -/
theorem storeChunks_eq (schedule : List Nat) (f : Bytes → Int64) (items : List Bytes) {out : Bytes}
    (hout : out.length = items.length * 8) :
    storeChunks schedule f items out = numbersText f items := by
  rw [storeChunks, runTasks_eq, List.map_map, ← List.flatMap_def]
  have hslices := flatMap_chunksOf
    (fun k chunk => placed chunk 0
      (numbersText f ((items.take (min (k * 256 + chunk.length / 8) items.length)).drop (k * 256))))
    (fun k out => placed out 0 (numbersText f ((items.drop (k * 256)).take (out.length / 8))))
    (fun k => rfl) ?_ (Nat.mul_pos (by decide) (by decide) : 0 < 256 * 8) 0 (Nat.le_refl out.length)
  · have hfill : placed out 0 (numbersText f items) = numbersText f items := by
      have hlength : (numbersText f items).length = out.length := by
        rw [length_numbersText, hout]
        rfl
      rw [placed, List.take_zero, List.nil_append, Nat.zero_add, hlength, List.drop_length,
        List.append_nil]
    rw [Nat.zero_mul, List.drop_zero, show out.length / 8 = items.length by omega, List.take_length,
      hfill] at hslices
    rw [← hslices, parChunksMut]
    apply List.flatMap_congr
    intro chunk _
    exact storeItems_eq f _ (Nat.zero_le _)
  · intro k out _
    show placed out 0 _ = placed _ 0 _ ++ placed _ 0 _
    rw [take_drop_slice, show (k + 1) * 256 = k * 256 + 256 by ring, ← List.drop_drop]
    generalize items.drop (k * 256) = rest
    by_cases hlen : 256 * 8 ≤ out.length
    · have hsplit : numbersText f (rest.take (out.length / 8)) = numbersText f (rest.take 256) ++
          numbersText f ((rest.drop 256).take ((out.length - 256 * 8) / 8)) := by
        rw [numbersText, numbersText, numbersText, ← List.flatMap_append, ← List.take_add]
        congr 2
        omega
      rw [List.length_take_of_le hlen, List.length_drop, Nat.mul_div_cancel _ (by decide), hsplit,
        ← placed_zero_append, List.take_append_drop]
      -- the numbers fill the slice, unless they are the last ones
      rw [length_numbersText, List.length_take, List.length_take_of_le hlen]
      by_cases hrest : 256 ≤ rest.length
      · exact .inl (by rw [Nat.min_eq_left hrest]; rfl)
      · rw [List.drop_eq_nil_of_le (Nat.le_of_not_le hrest), List.take_nil]
        exact .inr ⟨rfl, Nat.mul_le_mul_right 8 (Nat.min_le_left _ _)⟩
    · rw [List.take_of_length_le (Nat.le_of_not_le hlen), List.drop_eq_nil_of_le (Nat.le_of_not_le hlen)]
      exact (List.append_nil _).symm

/-! ## The drivers -/

/-- The bits of the items, eight to a byte. -/
def bitsText (f : Bytes → Bool) (items : List Bytes) : Bytes :=
  markRange (fun i => f (items.getD i [])) 0 items.length (List.replicate (bitsetLen items.length) 0)

theorem length_bitsText (f : Bytes → Bool) (items : List Bytes) :
    (bitsText f items).length = bitsetLen items.length := by
  rw [bitsText, length_markRange, List.length_replicate]

theorem bitsetLen_pos {count : Nat} (h : 0 < count) : 0 < bitsetLen count := by
  rw [bitsetLen]
  omega

theorem validationBitsetChunked_eq (pool : WorkerPool) (items : List Bytes) (f : Bytes → Bool)
    (chunkItems : Nat) :
    validationBitsetChunked pool items f chunkItems = le32 items.length ++ bitsText f items := by
  unfold validationBitsetChunked
  dsimp only
  split
  · rename_i hzero
    obtain rfl := List.eq_nil_of_length_eq_zero hzero
    rfl
  · split
    · rw [markChunks_eq _ _ _ (bitsetLen_pos (by omega))]
      rfl
    · exact markItems_eq f items (length_le32 _) _

theorem bitsetSerial_of_wellFormed {data : Bytes} (h : WellFormed data) (f : Bytes → Bool) :
    bitsetSerial data f = .ok (le32 (items data).length ++ bitsText f (items data)) := by
  rw [bitsetSerial, new_of_wellFormed h, ok_bind, forEachIdx_of_new (new_of_wellFormed h)]
  show Except.ok (markItems f 4 (items data) (le32 (declared data) ++ _)) = _
  rw [markItems_eq f _ (length_le32 _), ← h.2]
  rfl

theorem runBitsetBatch_of_wellFormed (pool : WorkerPool) {data : Bytes} (h : WellFormed data)
    (f : Bytes → Bool) (chunkItems : Nat) :
    runBitsetBatch pool data f chunkItems =
      .ok (le32 (items data).length ++ bitsText f (items data)) := by
  rw [runBitsetBatch, packedRouting_of_wellFormed pool h]
  split
  · exact congrArg Except.ok (validationBitsetChunked_eq pool _ f chunkItems)
  · exact bitsetSerial_of_wellFormed h f

theorem sumBatchDirect_eq (pool : WorkerPool) (items : List Bytes) (f : Bytes → Int64) :
    sumBatchDirect pool items f = le32 items.length ++ numbersText f items := by
  have hout : (List.replicate (items.length * 8) (0 : UInt8)).length = items.length * 8 :=
    List.length_replicate
  unfold sumBatchDirect
  dsimp only
  split
  · rw [storeChunks_eq _ _ _ hout]
  · rw [storeItems_eq f items (Nat.zero_le _), placed, List.take_zero, List.nil_append, Nat.zero_add,
      length_numbersText, List.drop_eq_nil_of_le (by rw [hout]; rfl), List.append_nil]

theorem sumBatchSerial_of_wellFormed {data : Bytes} (h : WellFormed data) (f : Bytes → Int64) :
    sumBatchSerial data f = .ok (le32 (items data).length ++ numbersText f (items data)) := by
  rw [sumBatchSerial, new_of_wellFormed h, ok_bind, forEachIdx_of_new (new_of_wellFormed h)]
  show Except.ok (storeItems f 4 (items data) (le32 (declared data) ++
    List.replicate (declared data * 8) 0)) = _
  have hpos : 4 ≤ (le32 (declared data) ++ List.replicate (declared data * 8) (0 : UInt8)).length := by
    rw [List.length_append, length_le32]
    omega
  rw [storeItems_eq f _ hpos, placed, ← length_le32 (declared data), List.take_left,
    length_numbersText, ← List.drop_drop, List.drop_left, h.2]
  rw [List.drop_eq_nil_of_le (by rw [List.length_replicate]; rfl), List.append_nil]

theorem runSumBatch_of_wellFormed (pool : WorkerPool) {data : Bytes} (h : WellFormed data)
    (f : Bytes → Int64) :
    runSumBatch pool data f = .ok (le32 (items data).length ++ numbersText f (items data)) := by
  rw [runSumBatch, packedRouting_of_wellFormed pool h]
  split
  · exact congrArg Except.ok (sumBatchDirect_eq pool _ f)
  · exact sumBatchSerial_of_wellFormed h f

/-- The results of the items, with their numbers. -/
def resultsIdx (f : Bytes → Nat → Bytes) (items : List Bytes) : List Bytes :=
  items.zipIdx.map fun entry => f entry.1 entry.2

theorem packedParallel_eq (schedule : List Nat) (f : Bytes → Nat → Bytes) (items : List Bytes)
    (out : Bytes) :
    packedParallel schedule f items out = out ++ (resultsIdx f items).flatMap packedComponent := by
  rw [packedParallel, parMap_eq, foldl_pushResult, resultsIdx]

theorem packedSerial_eq {data : Bytes} {iter : PackedIter} (hnew : PackedIter.new data = .ok iter)
    (f : Bytes → Nat → Bytes) (out : Bytes) :
    packedSerial f iter out = .ok (out ++ (resultsIdx f (items data)).flatMap packedComponent) := by
  rw [packedSerial, forEachIdx_of_new hnew, ← foldl_pushResult, resultsIdx, List.foldl_map]

theorem runPackedBatchIdx_of_wellFormed (pool : WorkerPool) {data : Bytes} (h : WellFormed data)
    (f : Bytes → Nat → Bytes) :
    runPackedBatchIdx pool data f = .ok (packedFrame (resultsIdx f (items data))) := by
  have hcount : (resultsIdx f (items data)).length = declared data := by
    rw [resultsIdx, List.length_map, List.length_zipIdx, h.2]
  rw [runPackedBatchIdx, packedRouting_of_wellFormed pool h, packedFrame, hcount]
  split
  · exact congrArg Except.ok (packedParallel_eq pool.schedule f (items data) _)
  · exact packedSerial_eq (new_of_wellFormed h) f _

theorem runPackedBatch_of_wellFormed (pool : WorkerPool) {data : Bytes} (h : WellFormed data)
    (f : Bytes → Bytes) : runPackedBatch pool data f = .ok (packedFrame ((items data).map f)) := by
  have hmap : resultsIdx (fun item _ => f item) (items data) = (items data).map f := by
    rw [resultsIdx, ← List.zipIdx_map_fst 0 (items data), List.map_map]
    simp [Function.comp_def]
  rw [runPackedBatch, runPackedBatchIdx_of_wellFormed pool h, hmap]

/-! ## Stale buffers -/

theorem ensureCapacity_eq_ok {out : Bytes} {pos n : Nat} {u : Unit}
    (h : ensureCapacity out pos n = .ok u) : pos + n ≤ out.length := by
  unfold ensureCapacity at h
  split at h
  · cases h
  · split at h
    · cases h
    · omega

/-- A text behind a count, in a buffer that has room for both. -/
def writeBatchInto (out : Bytes) (count size : Nat) (text : Bytes) :
    Except (Failure String) (Nat × Bytes) := do
  ensureCapacity out 0 4
  ensureCapacity (placed out 0 (le32 count)) (0 + 4) size
  .ok (0 + 4 + size, placed out 0 (le32 count ++ text))

/-- The parts that write into the caller's buffer, up to the loop: whatever the loop leaves, if there
is room, is what is compared. -/
theorem writeU32Le_bind_eq {out : Bytes} {count size : Nat} {text : Bytes}
    {k : Bytes × Nat → Except (Failure String) (Nat × Bytes)}
    (hk : 4 ≤ out.length → k (placed out 0 (le32 count), 0 + 4) = (do
      ensureCapacity (placed out 0 (le32 count)) (0 + 4) size
      .ok (0 + 4 + size, placed (placed out 0 (le32 count)) 4 text))) :
    (writeU32Le out 0 count >>= k) = writeBatchInto out count size text := by
  rw [writeU32Le, writeBatchInto]
  cases hcap : ensureCapacity out 0 4 with
  | error e => rfl
  | ok u =>
    have hfour := ensureCapacity_eq_ok hcap
    rw [Nat.zero_add] at hfour
    show k (placed out 0 (le32 count), 0 + 4) = _
    rw [hk hfour]
    have htext := placed_placed (Nat.zero_le out.length) (le32 count) text
    rw [length_le32, Nat.zero_add] at htext
    rw [htext]
    rfl

/-- The one-pass loop over bits that were zeroed in the middle of a buffer. -/
theorem markItems_zeroed (f : Bytes → Bool) (items : List Bytes) {out : Bytes} {pos : Nat}
    (hpos : pos ≤ out.length) :
    markItems f pos items (zeroed out pos (bitsetLen items.length)) =
      placed out pos (bitsText f items) := by
  have hall : min items.length (8 * bitsetLen items.length) = items.length := by
    rw [bitsetLen]
    omega
  have hnone : items.length - 8 * bitsetLen items.length = 0 := by
    rw [bitsetLen]
    omega
  rw [zeroed, placed, markItems_eq f items (List.length_take_of_le hpos),
    markRange_append (Nat.zero_mod 8), List.length_replicate, hall, hnone, placed, length_bitsText]
  rfl

theorem zeroed_slice {out : Bytes} {pos : Nat} (hpos : pos ≤ out.length) (len : Nat) :
    ((zeroed out pos len).drop pos).take len = List.replicate len 0 := by
  have hdrop := drop_placed hpos (List.replicate len 0) 0
  rw [Nat.add_zero, List.drop_zero] at hdrop
  rw [zeroed, hdrop, List.take_left' List.length_replicate]

theorem writeBitsetBatchInto_of_wellFormed (pool : WorkerPool) {data : Bytes} (h : WellFormed data)
    (out : Bytes) (f : Bytes → Bool) :
    writeBitsetBatchInto pool data out f =
      writeBatchInto out (declared data) (bitsetLen (declared data)) (bitsText f (items data)) := by
  rw [writeBitsetBatchInto, new_of_wellFormed h, ok_bind, countAndTotalBytes_of_wellFormed h, ok_bind]
  apply writeU32Le_bind_eq
  intro hfour
  have hpos : 4 ≤ (placed out 0 (le32 (declared data))).length := by
    rwa [length_placed (by rwa [length_le32, Nat.zero_add])]
  dsimp only
  congr 1
  funext _
  split
  · rw [unpack_of_wellFormed h, ok_bind, zeroed_slice hpos, markChunks_eq _ _ _ (by decide), bitsText,
      h.2]
  · rw [forEachIdx_of_new (new_of_wellFormed h), ok_bind, ← markItems_zeroed f _ hpos, h.2]
    rfl

theorem writeScalarBatchInto_of_wellFormed {T : Type} [ToLeBytes T] (pool : WorkerPool) {data : Bytes}
    (h : WellFormed data) (out : Bytes) (f : Bytes → T) :
    writeScalarBatchInto pool data out f =
      writeBatchInto out (declared data) (saturatingMulSize (declared data) (ToLeBytes.size T))
        (numbersText f (items data)) := by
  rw [writeScalarBatchInto, new_of_wellFormed h, ok_bind, countAndTotalBytes_of_wellFormed h, ok_bind]
  apply writeU32Le_bind_eq
  intro hfour
  have hpos : 4 ≤ (placed out 0 (le32 (declared data))).length := by
    rwa [length_placed (by rwa [length_le32, Nat.zero_add])]
  dsimp only
  congr 1
  funext _
  rw [← storeItems_eq f _ hpos]
  split
  · rw [unpack_of_wellFormed h, ok_bind, parMap_eq, List.zipIdx_map, List.foldl_map]
    rfl
  · rw [forEachIdx_of_new (new_of_wellFormed h), ok_bind]
    rfl

/-- The bytes that count are the count and the text. -/
theorem writeBatchInto_eq_ok {out out' text : Bytes} {count size n : Nat} (htext : text.length = size)
    (h : writeBatchInto out count size text = .ok (n, out')) : out'.take n = le32 count ++ text := by
  rw [writeBatchInto, bind_eq_ok_iff] at h
  obtain ⟨_, -, h⟩ := h
  rw [bind_eq_ok_iff] at h
  obtain ⟨_, -, h⟩ := h
  rw [Except.ok.injEq, Prod.mk.injEq] at h
  obtain ⟨rfl, rfl⟩ := h
  rw [placed, List.take_zero, List.nil_append, List.take_left']
  rw [List.length_append, length_le32, htext]

theorem declared_lt (data : Bytes) : declared data < 2 ^ 32 := by
  apply Nat.lt_of_lt_of_le (wordOf_lt _)
  exact Nat.pow_le_pow_right (by decide) (List.length_take_le _ _)

/-! ## The agreement -/

/-- **Parallel equals serial.** Every pool, that is every number of threads and every order in which
they move, gives what the one-pass loops give: the same bitset, the same numbers, the same frames; and
in a buffer with stale contents the same bytes, of which those that count are the ones of a new
buffer. -/
theorem batch_parallel_eq_serial (pool : WorkerPool) (data : Bytes) :
    (∀ f chunkItems, runBitsetBatch pool data f chunkItems =
      runBitsetBatch .serial data f chunkItems) ∧
    (∀ f, runSumBatch pool data f = runSumBatch .serial data f) ∧
    (∀ f, runPackedBatch pool data f = runPackedBatch .serial data f) ∧
    (∀ f, runPackedBatchIdx pool data f = runPackedBatchIdx .serial data f) ∧
    (∀ out f, writeBitsetBatchInto pool data out f = writeBitsetBatchInto .serial data out f) ∧
    (∀ (T : Type) [ToLeBytes T] out (f : Bytes → T),
      writeScalarBatchInto pool data out f = writeScalarBatchInto .serial data out f) ∧
    (∀ out f n out', writeBitsetBatchInto pool data out f = .ok (n, out') →
      ∀ chunkItems, runBitsetBatch .serial data f chunkItems = .ok (out'.take n)) ∧
    (∀ out f n out', writeSumBatchInto pool data out f = .ok (n, out') →
      runSumBatch .serial data f = .ok (out'.take n)) := by
  by_cases h : WellFormed data
  · have hpacked : ∀ f, runPackedBatchIdx pool data f = runPackedBatchIdx .serial data f := by
      intro f
      rw [runPackedBatchIdx_of_wellFormed pool h, runPackedBatchIdx_of_wellFormed _ h]
    refine ⟨?_, ?_, fun f => hpacked _, hpacked, ?_, ?_, ?_, ?_⟩
    · intro f chunkItems
      rw [runBitsetBatch_of_wellFormed pool h, runBitsetBatch_of_wellFormed _ h]
    · intro f
      rw [runSumBatch_of_wellFormed pool h, runSumBatch_of_wellFormed _ h]
    · intro out f
      rw [writeBitsetBatchInto_of_wellFormed pool h, writeBitsetBatchInto_of_wellFormed _ h]
    · intro T _ out f
      rw [writeScalarBatchInto_of_wellFormed pool h, writeScalarBatchInto_of_wellFormed _ h]
    · intro out f n out' hwrite chunkItems
      rw [writeBitsetBatchInto_of_wellFormed pool h] at hwrite
      rw [runBitsetBatch_of_wellFormed _ h, writeBatchInto_eq_ok (by rw [length_bitsText, h.2]) hwrite,
        h.2]
    · intro out f n out' hwrite
      rw [writeSumBatchInto, writeScalarBatchInto_of_wellFormed pool h] at hwrite
      have hsize : saturatingMulSize (declared data) 8 = declared data * 8 := by
        have hlt := declared_lt data
        rw [saturatingMulSize]
        omega
      rw [runSumBatch_of_wellFormed _ h,
        writeBatchInto_eq_ok (by rw [length_numbersText, h.2]; exact hsize.symm) hwrite, h.2]
  · -- a batch that is cut off is refused before the pool is asked
    obtain ⟨e, he⟩ := packedRouting_of_not_wellFormed h
    have hpacked : ∀ f, runPackedBatchIdx pool data f = runPackedBatchIdx .serial data f := by
      intro f
      rw [runPackedBatchIdx, runPackedBatchIdx, he, he]
      rfl
    obtain ⟨e', hinto⟩ := countAndTotalBytes_bind_of_not_wellFormed (α := Nat × Bytes) h
    refine ⟨?_, ?_, fun f => hpacked _, hpacked, ?_, ?_, ?_, ?_⟩
    · intro f chunkItems
      rw [runBitsetBatch, runBitsetBatch, he, he]
      rfl
    · intro f
      rw [runSumBatch, runSumBatch, he, he]
      rfl
    · intro out f
      exact (hinto _).trans (hinto _).symm
    · intro T _ out f
      exact (hinto _).trans (hinto _).symm
    · intro out f n out' hwrite
      rw [show writeBitsetBatchInto pool data out f = _ from hinto _] at hwrite
      cases hwrite
    · intro out f n out' hwrite
      rw [show writeSumBatchInto pool data out f = _ from hinto _] at hwrite
      cases hwrite

/-- Three items in a buffer of ones, by a pool that always goes parallel. -/
theorem batch_parallel_eq_serial_stale :
    runBitsetBatch .serial (packedFrame [[1], [2], [3]]) (fun item => item = [2]) 512 =
      .ok [3, 0, 0, 0, 2] := by
  obtain ⟨-, -, -, -, -, -, hbits, -⟩ :=
    batch_parallel_eq_serial ⟨fun _ _ => true, [0, 0]⟩ (packedFrame [[1], [2], [3]])
  exact hbits (List.replicate 8 255) (fun item => item = [2]) 5 [3, 0, 0, 0, 2, 255, 255, 255] rfl 512

end Castrum
