import Castrum.FastSchema.Compile
import Castrum.FastSchema.Validate
import Castrum.Util.BatchParallel

/-!
# Castrum — schema batches (`rust/json/json_schema.rs`)

The validator takes a packed batch of documents and answers with one bit for each. It reads the batch
with the iterator that stops where a frame is cut off. The one-pass loop goes as far as the iterator;
the parallel one collects the items first, and then asks for as many as the header announces.

* `bitAt_markRange` — what is read from a bitset that was filled;
* `validateChunks_eq` — the workers, on a list of items that may be too short;
* `validateBatchPackedBitset_cases` — the three outcomes of a batch;
* `validateBatchPackedBitset_iff` — exactly when it does not panic, and its bits are right.
-/

namespace Castrum

open Packed

/-! ## The validator -/

/-- The compiled schema, and the tree of the fast path if there is one. -/
structure SchemaValidator (S : Oracles) where
  schema : Value → Bool
  fast : Option (FastNode S.Regex)

def packedPayloadBytes (data : Bytes) (count : Nat) : Nat := data.length - 4 - count * 4

/-- `items[i]`. -/
def itemAt (items : List Bytes) (i : Nat) : Except (Failure String) Bytes := orFail .panic items[i]?

/-- `bits[j] |= 1 << (i & 7)`. -/
def setBit (bits : Bytes) (j i : Nat) : Except (Failure String) Bytes :=
  if j < bits.length then .ok (bits.modify j (· ||| bitOf i)) else .error .panic

namespace SchemaValidator

variable {S : Oracles} (v : SchemaValidator S)

def validateDoc (bytes : Bytes) : Bool :=
  match v.fast with
  | some fast => isValidBytes S fast bytes
  | none =>
    match S.fromSlice bytes with
    | some value => v.schema value
    | none => false

/-- The bit of an item, if it is valid. -/
def markDoc (bits : Bytes) (j i : Nat) (item : Bytes) : Except (Failure String) Bytes :=
  if v.validateDoc item then setBit bits j i else .ok bits

/-- One turn of a worker's loop: the byte that its slice starts at, and the item. -/
def validateSlot (items : List Bytes) (chunk : Bytes) (work : Nat × Nat) :
    Except (Failure String) Bytes := do
  let item ← itemAt items work.2
  v.markDoc chunk (work.2 / 8 - work.1) work.2 item

/-- The parallel loop over the slices of the bits. -/
def validateChunks (schedule : List Nat) (items : List Bytes) (chunkBytes count : Nat)
    (bits : Bytes) : Except (Failure String) Bytes :=
  (runFallible (v.validateSlot items) schedule ((parChunksMut chunkBytes bits).zipIdx.map fun chunk =>
    bitsetTask chunkBytes count chunk.1 chunk.2)).map List.flatten

def validateBatchPackedBitset (pool : WorkerPool) (packed : Bytes) :
    Except (Failure String) Bytes := do
  let iter ← PackedIter.new packed
  let count := iter.len
  let payload := packedPayloadBytes packed count
  let header := le32 count
  let bits := List.replicate (bitsetLen count) 0
  if count = 0 then .ok (header ++ bits)
  else if pool.parallelize count payload then do
    let iter ← PackedIter.new packed
    let items ← iter.collect
    let bits ← v.validateChunks pool.schedule items (bitsetLen 256) count bits
    .ok (header ++ bits)
  else do
    let iter ← PackedIter.new packed
    iter.forEachIdx (header ++ bits) fun out i item => v.markDoc out (4 + i >>> 3) i item

end SchemaValidator

/-! ## Reading a bitset -/

/-- The bit of an item. -/
def bitAt (bits : Bytes) (i : Nat) : Bool := (bits.getD (i / 8) 0).toNat.testBit (i % 8)

theorem toNat_bitOf (i : Nat) : (bitOf i).toNat = 2 ^ (i % 8) := by
  have hand : i &&& 7 = i % 8 := Nat.and_two_pow_sub_one_eq_mod i 3
  have hbits : ∀ k < 8, ((1 : UInt8) <<< UInt8.ofNat k).toNat = 2 ^ k := by decide
  rw [bitOf, hand]
  exact hbits _ (Nat.mod_lt _ (by decide))

theorem bitAt_replicate (n i : Nat) : bitAt (List.replicate n 0) i = false := by
  have hzero : (List.replicate n (0 : UInt8)).getD (i / 8) 0 = 0 := by
    rw [List.getD, List.getElem?_replicate]
    split
    · rfl
    · rfl
  rw [bitAt, hzero]
  exact Nat.zero_testBit _

/-- A marked bit is the only one that changes. -/
theorem bitAt_markBit {passes : Bool} {bits : Bytes} {i : Nat} (hi : i / 8 < bits.length) (k : Nat) :
    bitAt (markBit passes (i / 8) i bits) k = (bitAt bits k || (passes && decide (k = i))) := by
  cases passes with
  | false => exact (Bool.or_false _).symm
  | true =>
    rw [Bool.true_and]
    show bitAt (bits.modify (i / 8) (· ||| bitOf i)) k = _
    by_cases hbyte : k / 8 = i / 8
    · have hget : (bits.modify (i / 8) (· ||| bitOf i)).getD (i / 8) 0 =
          bits.getD (i / 8) 0 ||| bitOf i := by
        simp [List.getD, List.getElem?_eq_getElem hi]
      have hbit : k % 8 = i % 8 ↔ k = i := by omega
      rw [bitAt, bitAt, hbyte, hget, UInt8.toNat_or, Nat.testBit_or, toNat_bitOf,
        Nat.testBit_two_pow]
      simp only [← hbit, eq_comm]
    · have hne : k ≠ i := fun heq => hbyte (by rw [heq])
      have hget : (bits.modify (i / 8) (· ||| bitOf i)).getD (k / 8) 0 = bits.getD (k / 8) 0 := by
        simp [List.getD, Ne.symm hbyte]
      rw [bitAt, hget, decide_eq_false hne, Bool.or_false]
      rfl

/-- The next item of a range. -/
theorem markRange_succ (p : Nat → Bool) (s n : Nat) (bits : Bytes) :
    markRange p s (n + 1) bits =
      markBit (p (s + n)) ((s + n) / 8 - s / 8) (s + n) (markRange p s n bits) := by
  rw [markRange, List.range'_1_concat, List.foldl_append]
  rfl

/-- **What is read from a bitset that was filled.** -/
theorem bitAt_markRange {p : Nat → Bool} {n : Nat} {bits : Bytes} (hn : n ≤ 8 * bits.length)
    (k : Nat) : bitAt (markRange p 0 n bits) k = (bitAt bits k || (decide (k < n) && p k)) := by
  induction n with
  | zero =>
    rw [decide_eq_false (Nat.not_lt_zero k), Bool.false_and, Bool.or_false]
    rfl
  | succ n ih =>
    have hlength : n / 8 < (markRange p 0 n bits).length := by
      rw [length_markRange]
      omega
    rw [markRange_succ, Nat.zero_add, Nat.zero_div, Nat.sub_zero, bitAt_markBit hlength,
      ih (by omega), Bool.or_assoc]
    congr 1
    by_cases hk : k = n
    · simp [hk]
    · have hlt : k < n + 1 ↔ k < n := by omega
      simp [hk, hlt]

/-! ## The loops -/

section

variable {items : List Bytes} {i : Nat}

theorem itemAt_of_lt (h : i < items.length) : itemAt items i = .ok (items.getD i []) := by
  rw [itemAt, List.getElem?_eq_getElem h, orFail_some, List.getD, List.getElem?_eq_getElem h]
  rfl

theorem itemAt_of_le (h : items.length ≤ i) : itemAt items i = .error .panic := by
  rw [itemAt, List.getElem?_eq_none h]
  rfl

end

/-! ### Slices -/

/-- What becomes of a slice that starts at the item `s`, when `count` items are asked for. -/
def fillSlice (p : Nat → Bool) (there count s : Nat) (bits : Bytes) :
    Except (Failure String) Bytes :=
  if min (count - s) (8 * bits.length) ≤ there - s then
    .ok (markRange p s (min (count - s) (8 * bits.length)) bits)
  else .error .panic

section

variable {p : Nat → Bool} {there count s : Nat}

theorem fillSlice_nil : fillSlice p there count s [] = .ok [] := by
  rw [fillSlice, if_pos (by simp), markRange_nil]

theorem fillSlice_append (hs : s % 8 = 0) (A B : Bytes) :
    fillSlice p there count s (A ++ B) =
      fillSlice p there count s A >>= fun first =>
        (fillSlice p there count (s + 8 * A.length) B).map fun rest => first ++ rest := by
  have hleft : min (min (count - s) (8 * (A ++ B).length)) (8 * A.length) =
      min (count - s) (8 * A.length) := by
    rw [List.length_append]
    omega
  have hright : min (count - s) (8 * (A ++ B).length) - 8 * A.length =
      min (count - (s + 8 * A.length)) (8 * B.length) := by
    rw [List.length_append]
    omega
  unfold fillSlice
  rw [markRange_append hs, hleft, hright]
  by_cases hfirst : min (count - s) (8 * A.length) ≤ there - s
  · rw [if_pos hfirst, ok_bind]
    by_cases hsecond : min (count - (s + 8 * A.length)) (8 * B.length) ≤
        there - (s + 8 * A.length)
    · rw [if_pos hsecond, if_pos (by omega)]
      rfl
    · rw [if_neg hsecond, if_neg (by omega)]
      rfl
  · rw [if_neg hfirst, if_neg (by omega)]
    rfl

theorem fillSlice_cut {chunkBytes : Nat} (k : Nat) (bits : Bytes) :
    fillSlice p there count (k * chunkBytes * 8) bits =
      fillSlice p there count (k * chunkBytes * 8) (bits.take chunkBytes) >>= fun first =>
        (fillSlice p there count ((k + 1) * chunkBytes * 8) (bits.drop chunkBytes)).map
          fun rest => first ++ rest := by
  have hcut : fillSlice p there count (k * chunkBytes * 8)
      (bits.take chunkBytes ++ bits.drop chunkBytes) = _ :=
    fillSlice_append (Nat.mul_mod_left _ _) _ _
  rw [List.take_append_drop] at hcut
  rw [hcut, List.length_take]
  by_cases hlen : chunkBytes ≤ bits.length
  · have hnext : (k + 1) * chunkBytes * 8 = k * chunkBytes * 8 + 8 * chunkBytes := by ring
    rw [Nat.min_eq_left hlen, hnext]
  · -- a slice that is shorter than the others is the last one
    rw [List.drop_eq_nil_of_le (Nat.le_of_not_le hlen), fillSlice_nil, fillSlice_nil]

end

namespace SchemaValidator

variable {S : Oracles} (v : SchemaValidator S)

theorem markDoc_of_lt {bits : Bytes} {j : Nat} (h : j < bits.length) (i : Nat) (item : Bytes) :
    v.markDoc bits j i item = .ok (markBit (v.validateDoc item) j i bits) := by
  unfold markDoc markBit
  split
  · exact if_pos h
  · rfl

/-- **One worker.** Its loop is the loop over its items if they are all there, else it panics. -/
theorem validateSlot_run (items : List Bytes) {s : Nat} (hs : s % 8 = 0) {n : Nat} {chunk : Bytes}
    (hn : n ≤ 8 * chunk.length) :
    ((List.range' s n).map fun i => (s / 8, i)).foldlM (v.validateSlot items) chunk =
      if n ≤ items.length - s then
        .ok (markRange (fun i => v.validateDoc (items.getD i [])) s n chunk)
      else .error .panic := by
  induction n with
  | zero =>
    rw [if_pos (Nat.zero_le _)]
    rfl
  | succ n ih =>
    -- The last slot is run on what the ones before it left in the chunk.
    have hlast : ∀ bits, List.foldlM (v.validateSlot items) bits [(s / 8, s + n)] =
        v.validateSlot items bits (s / 8, s + n) := by
      intro bits
      rw [List.foldlM_cons]
      exact bind_pure _
    rw [List.range'_1_concat, List.map_append, List.foldlM_append, ih (by omega)]
    by_cases hthere : n ≤ items.length - s
    · rw [if_pos hthere, ok_bind]
      show List.foldlM _ _ [(s / 8, s + n)] = _
      rw [hlast, validateSlot]
      by_cases hitem : s + n < items.length
      · rw [itemAt_of_lt hitem, ok_bind, if_pos (by omega), markRange_succ]
        apply v.markDoc_of_lt
        rw [length_markRange]
        omega
      · rw [itemAt_of_le (by omega), if_neg (by omega)]
        rfl
    · rw [if_neg hthere, if_neg (by omega)]
      rfl

/-- **The workers.** They fill the bits as the one-pass loop does, if there are as many items as bits
are asked for; else one of them panics. -/
theorem validateChunks_eq (schedule : List Nat) (items : List Bytes) {chunkBytes : Nat}
    (hchunk : 0 < chunkBytes) {count : Nat} {bits : Bytes} (hbits : count ≤ 8 * bits.length) :
    v.validateChunks schedule items chunkBytes count bits =
      if count ≤ items.length then
        .ok (markRange (fun i => v.validateDoc (items.getD i [])) 0 count bits)
      else .error .panic := by
  have hslices := mapM_chunksOf
    (fun k => fillSlice (fun i => v.validateDoc (items.getD i [])) items.length count
      (k * chunkBytes * 8))
    (fun k => fillSlice (fun i => v.validateDoc (items.getD i [])) items.length count
      (k * chunkBytes * 8))
    (fun k => fillSlice_nil) (fun k bits _ => fillSlice_cut k bits) hchunk 0 (Nat.le_refl bits.length)
  simp only [Nat.zero_mul, fillSlice, Nat.sub_zero, Nat.min_eq_left hbits] at hslices
  rw [validateChunks, runFallible_eq, List.mapM_map, ← hslices, parChunksMut]
  congr 2
  funext chunk
  have hwork : min (chunk.2 * chunkBytes * 8 + chunk.1.length * 8) count -
      chunk.2 * chunkBytes * 8 =
        min (count - chunk.2 * chunkBytes * 8) (8 * chunk.1.length) := by omega
  show List.foldlM _ chunk.1 (List.map _ (List.range' _ (min _ count - _))) = _
  rw [hwork]
  exact v.validateSlot_run items (Nat.mul_mod_left _ _) (Nat.min_le_right _ _)

/-- The count, and the bits of the items. -/
def verdicts (packed : Bytes) : Bytes :=
  le32 (declared packed) ++ markRange (fun i => v.validateDoc ((items packed).getD i [])) 0
    (items packed).length (List.replicate (bitsetLen (declared packed)) 0)

/-- The one-pass loop. -/
theorem markDocs_eq {packed : Bytes} {it : PackedIter} (hnew : PackedIter.new packed = .ok it) :
    it.forEachIdx (le32 (declared packed) ++ List.replicate (bitsetLen (declared packed)) 0)
        (fun out i item => v.markDoc out (4 + i >>> 3) i item) = .ok (v.verdicts packed) := by
  have hcount : (items packed).length ≤ declared packed := items_length_le packed
  rw [verdicts, ← markItems_eq v.validateDoc _ (length_le32 _)]
  have hfits : ∀ (out : Bytes) (i : Nat) (item : Bytes), i < (items packed).length →
      out.length = 4 + bitsetLen (declared packed) →
      v.markDoc out (4 + i >>> 3) i item = .ok (markBit (v.validateDoc item) (4 + i >>> 3) i out) ∧
        (markBit (v.validateDoc item) (4 + i >>> 3) i out).length =
          4 + bitsetLen (declared packed) := by
    intro out i item hi hlength
    refine ⟨v.markDoc_of_lt ?_ i item, (length_markBit _ _ _ _).trans hlength⟩
    rw [hlength, bitsetLen, Nat.shiftRight_eq_div_pow]
    omega
  apply forEachIdx_of_fits hnew _ _ hfits
  rw [List.length_append, length_le32, List.length_replicate]

end SchemaValidator

/-! ## The batch -/

/-- What a caller is promised: the count that the batch announces, and in the bit of each item whether
it is there and valid. The bits behind the last one are zero. -/
structure BitsetOf (validate : Bytes → Bool) (packed out : Bytes) : Prop where
  length : out.length = 4 + bitsetLen (declared packed)
  count : out.take 4 = le32 (declared packed)
  bit : ∀ i, bitAt (out.drop 4) i = ((items packed)[i]?).any validate

/-- A batch that is taken for large, and has less items than it announces. -/
def CutOffInParallel (pool : WorkerPool) (packed : Bytes) : Prop :=
  PackedIter.new packed = .ok ⟨packed, 4, declared packed⟩ ∧
    pool.parallelize (declared packed) (packedPayloadBytes packed (declared packed)) = true ∧
      (items packed).length < declared packed

namespace SchemaValidator

variable {S : Oracles} (v : SchemaValidator S)

theorem bitsetOf_verdicts (packed : Bytes) :
    BitsetOf v.validateDoc packed (v.verdicts packed) := by
  have hcount : (items packed).length ≤ declared packed := items_length_le packed
  unfold verdicts
  refine ⟨?_, ?_, fun i => ?_⟩
  · rw [List.length_append, length_le32, length_markRange, List.length_replicate]
  · rw [← length_le32 (declared packed), List.take_left]
  · have hroom : (items packed).length ≤
        8 * (List.replicate (bitsetLen (declared packed)) (0 : UInt8)).length := by
      rw [List.length_replicate, bitsetLen]
      omega
    rw [← length_le32 (declared packed), List.drop_left, bitAt_markRange hroom, bitAt_replicate,
      Bool.false_or]
    by_cases hi : i < (items packed).length
    · rw [decide_eq_true hi, List.getElem?_eq_getElem hi, Bool.true_and, List.getD,
        List.getElem?_eq_getElem hi]
      rfl
    · rw [decide_eq_false hi, List.getElem?_eq_none (Nat.le_of_not_lt hi)]
      rfl

/-- Once the header is accepted, the two loops. -/
theorem validateBatchPackedBitset_of_new (pool : WorkerPool) {packed : Bytes}
    (hnew : PackedIter.new packed = .ok ⟨packed, 4, declared packed⟩) :
    v.validateBatchPackedBitset pool packed =
      if pool.parallelize (declared packed) (packedPayloadBytes packed (declared packed)) = true ∧
          (items packed).length < declared packed then .error .panic
      else .ok (v.verdicts packed) := by
  have hcount : (items packed).length ≤ declared packed := items_length_le packed
  rw [validateBatchPackedBitset, hnew, ok_bind]
  dsimp only [PackedIter.len]
  by_cases hzero : declared packed = 0
  · have hnone : (items packed).length = 0 := by omega
    rw [if_pos hzero, if_neg (by omega), verdicts, hnone]
    rfl
  · rw [if_neg hzero]
    by_cases hpar : pool.parallelize (declared packed)
        (packedPayloadBytes packed (declared packed)) = true
    · have hroom : declared packed ≤
          8 * (List.replicate (bitsetLen (declared packed)) (0 : UInt8)).length := by
        rw [List.length_replicate, bitsetLen]
        omega
      rw [if_pos hpar, ok_bind, collect_of_new hnew, ok_bind,
        v.validateChunks_eq _ _ (by decide) hroom]
      by_cases hall : declared packed ≤ (items packed).length
      · rw [if_pos hall, ok_bind, if_neg (by omega), verdicts,
          show (items packed).length = declared packed by omega]
      · rw [if_neg hall, if_pos ⟨hpar, by omega⟩]
        rfl
    · rw [if_neg hpar, ok_bind, if_neg fun h => hpar h.1]
      exact v.markDocs_eq hnew

/-- **The outcomes of a batch**: refused by the iterator, a panic, or the bits. -/
theorem validateBatchPackedBitset_cases (pool : WorkerPool) (packed : Bytes) :
    (∃ e, PackedIter.new packed = .error (.fail e) ∧
      v.validateBatchPackedBitset pool packed = .error (.fail e)) ∨
    (CutOffInParallel pool packed ∧ v.validateBatchPackedBitset pool packed = .error .panic) ∨
    (¬ CutOffInParallel pool packed ∧ ∃ out, v.validateBatchPackedBitset pool packed = .ok out ∧
      BitsetOf v.validateDoc packed out) := by
  have hcount : (items packed).length ≤ declared packed := items_length_le packed
  cases hnew : PackedIter.new packed with
  | error failure =>
    cases failure with
    | panic => exact absurd hnew (PackedIter.new_ne_panic packed)
    | fail e =>
      refine .inl ⟨e, rfl, ?_⟩
      rw [validateBatchPackedBitset, hnew]
      rfl
  | ok it =>
    obtain ⟨-, -, rfl⟩ := PackedIter.new_eq_ok_iff.mp hnew
    right
    rw [v.validateBatchPackedBitset_of_new pool hnew]
    by_cases hcut : pool.parallelize (declared packed)
        (packedPayloadBytes packed (declared packed)) = true ∧
          (items packed).length < declared packed
    · rw [if_pos hcut]
      exact .inl ⟨⟨hnew, hcut⟩, rfl⟩
    · rw [if_neg hcut]
      exact .inr ⟨fun h => hcut h.2, _, rfl, v.bitsetOf_verdicts packed⟩

/-- **When a schema batch does not panic**, and answers with an error or with the right bits: exactly
if it is not a large batch with less items than it announces. -/
theorem validateBatchPackedBitset_iff (pool : WorkerPool) (packed : Bytes) :
    (v.validateBatchPackedBitset pool packed ≠ .error .panic ∧
      ∀ out, v.validateBatchPackedBitset pool packed = .ok out →
        BitsetOf v.validateDoc packed out) ↔
      ¬ CutOffInParallel pool packed := by
  rcases v.validateBatchPackedBitset_cases pool packed with
    ⟨e, hnew, hrun⟩ | ⟨hcut, hrun⟩ | ⟨hcut, out, hrun, hout⟩
  · rw [hrun]
    refine iff_of_true ⟨by simp, by simp⟩ fun hcut => ?_
    have haccepted := hcut.1
    rw [hnew] at haccepted
    cases haccepted
  · rw [hrun]
    exact iff_of_false (fun h => h.1 rfl) (not_not_intro hcut)
  · rw [hrun]
    refine iff_of_true ⟨by simp, ?_⟩ hcut
    rintro out' ⟨⟩
    exact hout

end SchemaValidator

/-! ## A batch that is cut off -/

/-- The schema `{}`. -/
def emptySchema : SchemaValidator .nullOnly := ⟨fun _ => true, compile .nullOnly 1 (.object [])⟩

/-- 2048 documents are announced, and the first of them is said to be four gigabytes long. -/
def cutOffBatch (n : Nat) : Bytes := le32 2048 ++ List.replicate n 255

theorem declared_cutOffBatch (n : Nat) : declared (cutOffBatch n) = 2048 := by
  rw [declared, cutOffBatch, ← length_le32 2048, List.take_left, wordOf_le32,
    Nat.mod_eq_of_lt (by decide)]

theorem cutOffBatch_cutOff {n : Nat} (hn : n = 8192) :
    CutOffInParallel (.ofThreads 1 []) (cutOffBatch n) := by
  have hlength : (cutOffBatch n).length = 8196 := by
    rw [cutOffBatch, List.length_append, length_le32, List.length_replicate, hn]
  have hdrop : (cutOffBatch n).drop 4 = List.replicate n 255 := by
    rw [cutOffBatch, ← length_le32 2048, List.drop_left]
  have hfirst : wordOf ((List.replicate n (255 : UInt8)).take 4) = 2 ^ 32 - 1 := by
    rw [List.take_replicate, Nat.min_eq_left (by omega)]
    decide
  have hnone : items (cutOffBatch n) = [] := by
    rw [items, declared_cutOffBatch, hdrop, frames, cutFrame, hfirst, List.length_replicate,
      if_neg (by omega), if_pos (by omega)]
  refine ⟨?_, ?_, ?_⟩
  · rw [PackedIter.new_eq_ok_iff]
    refine ⟨by omega, ?_, rfl⟩
    rw [show wordOf ((cutOffBatch n).take 4) = 2048 from declared_cutOffBatch n]
    omega
  · rw [declared_cutOffBatch]
    show shouldParallelize 1 2048 (packedPayloadBytes (cutOffBatch n) 2048) = true
    rw [shouldParallelize, Bool.or_eq_true]
    exact .inl (by decide)
  · rw [hnone, declared_cutOffBatch]
    decide

theorem validateBatchPackedBitset_panics :
    emptySchema.validateBatchPackedBitset (.ofThreads 1 []) (cutOffBatch 8192) = .error .panic := by
  rcases emptySchema.validateBatchPackedBitset_cases (.ofThreads 1 []) (cutOffBatch 8192) with
    ⟨e, hnew, -⟩ | ⟨-, hrun⟩ | ⟨hcut, -⟩
  · have haccepted := (cutOffBatch_cutOff rfl).1
    rw [hnew] at haccepted
    cases haccepted
  · exact hrun
  · exact absurd (cutOffBatch_cutOff rfl) hcut

end Castrum
