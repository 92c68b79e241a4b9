import Castrum.Lib.Parallel
import Castrum.Util.Packed

/-!
# Castrum — batch drivers (`rust/util/batch_core.rs`, `batch/core.rs`, `threadpool.rs`)

Every driver reads a packed batch, maps its items, and writes one bit, one number or one frame for
each. A large batch is cut into tasks for the pool's workers. A pool is what it takes for large, which
its number of threads decides, and a schedule: the order in which the workers happen to move.

* `runBitsetBatch` / `runSumBatch` / `runPackedBatch` — the drivers that return a new buffer;
* `writeBitsetBatchInto` / `writeScalarBatchInto` — those that write into the caller's;
* `packedRouting_of_wellFormed` — the prelude they share.
-/

namespace Castrum

/-! ## The pool -/

/-- `usize::saturating_mul`. -/
def saturatingMulSize (a b : Nat) : Nat := min (a * b) (2 ^ 64 - 1)

def shouldParallelize (threads items bytes : Nat) : Bool :=
  saturatingMulSize (max threads 1) 2048 ≤ items || saturatingMulSize (max threads 1) (1024 * 1024) ≤ bytes

structure WorkerPool where
  parallelize : Nat → Nat → Bool
  schedule : List Nat

/-- The pool with so many threads. -/
def WorkerPool.ofThreads (threads : Nat) (schedule : List Nat) : WorkerPool :=
  ⟨shouldParallelize threads, schedule⟩

/-- The pool that leaves every batch to the one-pass loop. -/
def WorkerPool.serial : WorkerPool := ⟨fun _ _ => false, []⟩

/-- The iterator, whether to go parallel, and then also the items. -/
def packedRouting (pool : WorkerPool) (data : Bytes) :
    Except (Failure String) (PackedIter × Bool × List Bytes) := do
  let iter ← PackedIter.new data
  let (count, bytes) ← iter.countAndTotalBytes
  if pool.parallelize count bytes then do
    let items ← unpack data
    .ok (iter, true, items)
  else .ok (iter, false, [])

/-! ## Bitsets -/

/-- `1 << (i & 7)`. -/
def bitOf (i : Nat) : UInt8 := 1 <<< UInt8.ofNat (i &&& 7)

/-- `count.div_ceil(8)`. -/
def bitsetLen (count : Nat) : Nat := (count + 7) / 8

/-- `out[j] |= 1 << (i & 7)`, if the item passes. -/
def markBit (passes : Bool) (j i : Nat) (out : Bytes) : Bytes :=
  if passes then out.modify j (· ||| bitOf i) else out

/-- The one-pass loop, over bits that start at `pos`. -/
def markItems (f : Bytes → Bool) (pos : Nat) (items : List Bytes) (out : Bytes) : Bytes :=
  items.zipIdx.foldl (fun out entry => markBit (f entry.1) (pos + entry.2 >>> 3) entry.2 out) out

/-- The task of one slice of the bits: the items from `chunkIdx * chunkBytes * 8` on, each with the
byte that the slice starts at. -/
def bitsetTask (chunkBytes count : Nat) (chunk : Bytes) (chunkIdx : Nat) : Bytes × List (Nat × Nat) :=
  let startItem := chunkIdx * chunkBytes * 8
  let endItem := min (startItem + chunk.length * 8) count
  (chunk, (List.range' startItem (endItem - startItem)).map fun i => (startItem / 8, i))

/-- The parallel loop: the workers own disjoint slices of the bits. -/
def markChunks (schedule : List Nat) (f : Bytes → Bool) (items : List Bytes)
    (chunkBytes count : Nat) (bits : Bytes) : Bytes :=
  (runTasks (fun chunk work => markBit (f (items.getD work.2 [])) (work.2 / 8 - work.1) work.2 chunk)
    schedule ((parChunksMut chunkBytes bits).zipIdx.map fun chunk =>
      bitsetTask chunkBytes count chunk.1 chunk.2)).flatten

def validationBitsetChunked (pool : WorkerPool) (items : List Bytes) (f : Bytes → Bool)
    (chunkItems : Nat) : Bytes :=
  let count := items.length
  let header := le32 count
  let bits := List.replicate (bitsetLen count) 0
  if count = 0 then header ++ bits
  else if pool.parallelize count (totalBytes items) then
    header ++ markChunks pool.schedule f items (bitsetLen (max chunkItems 64)) count bits
  else markItems f 4 items (header ++ bits)

def bitsetSerial (data : Bytes) (f : Bytes → Bool) : Except (Failure String) Bytes := do
  let iter ← PackedIter.new data
  iter.forEachIdx (le32 iter.len ++ List.replicate (bitsetLen iter.len) 0) fun out i item =>
    .ok (markBit (f item) (4 + i >>> 3) i out)

def runBitsetBatch (pool : WorkerPool) (data : Bytes) (f : Bytes → Bool) (chunkItems : Nat) :
    Except (Failure String) Bytes := do
  let (_, parallel, items) ← packedRouting pool data
  if parallel then .ok (validationBitsetChunked pool items f chunkItems) else bitsetSerial data f

/-! ## Numbers -/

/-- A number that is written as so many bytes, the lowest first. -/
class ToLeBytes (T : Type) where
  size : Nat
  toLeBytes : T → Bytes
  length_toLeBytes (x : T) : (toLeBytes x).length = size

instance : ToLeBytes Int64 where
  size := 8
  toLeBytes x := le64 x.toUInt64.toNat
  length_toLeBytes _ := rfl

instance : ToLeBytes UInt32 where
  size := 4
  toLeBytes x := le32 x.toNat
  length_toLeBytes _ := rfl

section

variable {T : Type} [ToLeBytes T]

/-- `out[pos + i * SIZE..pos + (i + 1) * SIZE].copy_from_slice(…)`. -/
def storeAt (pos i : Nat) (v : T) (out : Bytes) : Bytes :=
  placed out (pos + i * ToLeBytes.size T) (ToLeBytes.toLeBytes v)

/-- The one-pass loop. -/
def storeItems (f : Bytes → T) (pos : Nat) (items : List Bytes) (out : Bytes) : Bytes :=
  items.zipIdx.foldl (fun out entry => storeAt pos entry.2 (f entry.1) out) out

end

/-- The task of one slice of the sums, `chunkSize` of them. -/
def sumTask (items : List Bytes) (chunkSize : Nat) (chunk : Bytes) (ci : Nat) :
    Bytes × List (Bytes × Nat) :=
  let itemStart := ci * chunkSize
  let itemEnd := min (itemStart + chunk.length / 8) items.length
  (chunk, ((items.take itemEnd).drop itemStart).zipIdx)

/-- The parallel loop of `sum_batch_direct`. -/
def storeChunks (schedule : List Nat) (f : Bytes → Int64) (items : List Bytes) (out : Bytes) : Bytes :=
  (runTasks (fun chunk entry => storeAt 0 entry.2 (f entry.1) chunk) schedule
    ((parChunksMut (256 * 8) out).zipIdx.map fun chunk => sumTask items 256 chunk.1 chunk.2)).flatten

def sumBatchDirect (pool : WorkerPool) (items : List Bytes) (f : Bytes → Int64) : Bytes :=
  let out := List.replicate (items.length * 8) 0
  if pool.parallelize items.length (totalBytes items) then
    le32 items.length ++ storeChunks pool.schedule f items out
  else le32 items.length ++ storeItems f 0 items out

def sumBatchSerial (data : Bytes) (f : Bytes → Int64) : Except (Failure String) Bytes := do
  let iter ← PackedIter.new data
  iter.forEachIdx (le32 iter.len ++ List.replicate (iter.len * 8) 0) fun out i item =>
    .ok (storeAt 4 i (f item) out)

def runSumBatch (pool : WorkerPool) (data : Bytes) (f : Bytes → Int64) : Except (Failure String) Bytes := do
  let (_, parallel, items) ← packedRouting pool data
  if parallel then .ok (sumBatchDirect pool items f) else sumBatchSerial data f

/-! ## Frames -/

/-- `out.extend_from_slice` of a result behind its length. -/
def pushResult (out r : Bytes) : Bytes := out ++ packedComponent r

def bytesMapSerial (data : Bytes) (f : Bytes → Bytes) : Except (Failure String) Bytes := do
  let iter ← PackedIter.new data
  iter.forEach (le32 iter.len) fun out item => .ok (pushResult out (f item))

/-- The parallel branch of `run_packed_batch_idx`: the results are collected, then written. -/
def packedParallel (schedule : List Nat) (f : Bytes → Nat → Bytes) (items : List Bytes) (out : Bytes) :
    Bytes :=
  (parMap (fun entry => f entry.1 entry.2) schedule items.zipIdx).foldl pushResult out

/-- Its serial branch. -/
def packedSerial (f : Bytes → Nat → Bytes) (iter : PackedIter) (out : Bytes) :
    Except (Failure String) Bytes :=
  iter.forEachIdx out fun out i item => .ok (pushResult out (f item i))

def runPackedBatchIdx (pool : WorkerPool) (data : Bytes) (f : Bytes → Nat → Bytes) :
    Except (Failure String) Bytes := do
  let (iter, parallel, items) ← packedRouting pool data
  if parallel then .ok (packedParallel pool.schedule f items (le32 iter.len))
  else packedSerial f iter (le32 iter.len)

/-- The variant whose mapper does not ask for the number of the item. -/
def runPackedBatch (pool : WorkerPool) (data : Bytes) (f : Bytes → Bytes) : Except (Failure String) Bytes :=
  runPackedBatchIdx pool data fun item _ => f item

/-! ## Into a buffer of the caller -/

def ensureCapacity (out : Bytes) (pos additional : Nat) : Except (Failure String) Unit :=
  if 2 ^ 64 ≤ pos + additional then .error (.fail "packed output: overflow")
  else if out.length < pos + additional then .error (.fail "packed output: buffer too small")
  else .ok ()

def writeU32Le (out : Bytes) (pos value : Nat) : Except (Failure String) (Bytes × Nat) := do
  ensureCapacity out pos 4
  .ok (placed out pos (le32 value), pos + 4)

/-- `out[pos..pos + len].fill(0)`. -/
def zeroed (out : Bytes) (pos len : Nat) : Bytes := placed out pos (List.replicate len 0)

/-- The bytes written, and the buffer. The parallel loop works on the slice of the buffer that holds
the bits. -/
def writeBitsetBatchInto (pool : WorkerPool) (data out : Bytes) (f : Bytes → Bool) :
    Except (Failure String) (Nat × Bytes) := do
  let iter ← PackedIter.new data
  let (count, total) ← iter.countAndTotalBytes
  let len := bitsetLen count
  let (out, pos) ← writeU32Le out 0 count
  ensureCapacity out pos len
  if pool.parallelize count total then do
    let items ← unpack data
    let bits := ((zeroed out pos len).drop pos).take len
    .ok (pos + len,
      placed out pos (markChunks pool.schedule f items (bitsetLen 4096) count bits))
  else do
    let out ← iter.forEachIdx (zeroed out pos len) fun out i item =>
      .ok (markBit (f item) (pos + i >>> 3) i out)
    .ok (pos + len, out)

def writeScalarBatchInto {T : Type} [ToLeBytes T] (pool : WorkerPool) (data out : Bytes) (f : Bytes → T) :
    Except (Failure String) (Nat × Bytes) := do
  let iter ← PackedIter.new data
  let (count, total) ← iter.countAndTotalBytes
  let (out, pos) ← writeU32Le out 0 count
  let size := saturatingMulSize count (ToLeBytes.size T)
  ensureCapacity out pos size
  if pool.parallelize count total then do
    let items ← unpack data
    let vals := parMap f pool.schedule items
    .ok (pos + size, vals.zipIdx.foldl (fun out entry => storeAt pos entry.2 entry.1 out) out)
  else do
    let out ← iter.forEachIdx out fun out i item => .ok (storeAt pos i (f item) out)
    .ok (pos + size, out)

def writeSumBatchInto (pool : WorkerPool) (data out : Bytes) (f : Bytes → Int64) :
    Except (Failure String) (Nat × Bytes) :=
  writeScalarBatchInto pool data out f

def writeU32BatchInto (pool : WorkerPool) (data out : Bytes) (f : Bytes → UInt32) :
    Except (Failure String) (Nat × Bytes) :=
  writeScalarBatchInto pool data out f

/-! ## The prelude -/

open Packed

/-- On a well-formed batch the prelude succeeds, and the items are there if they are asked for. -/
theorem packedRouting_of_wellFormed (pool : WorkerPool) {data : Bytes} (h : WellFormed data) :
    packedRouting pool data =
      .ok (⟨data, 4, declared data⟩,
        if pool.parallelize (declared data) (totalBytes (items data)) then (true, items data)
        else (false, [])) := by
  rw [packedRouting, new_of_wellFormed h]
  show (PackedIter.countAndTotalBytes ⟨data, 4, declared data⟩ >>= _) = _
  rw [countAndTotalBytes_of_wellFormed h]
  show (if _ then _ else _) = _
  split
  · rw [unpack_of_wellFormed h]
    rfl
  · rfl

/-- On any other every driver fails, before it asks the pool. -/
theorem countAndTotalBytes_bind_of_not_wellFormed {α : Type} {data : Bytes} (h : ¬ WellFormed data) :
    ∃ e, ∀ k : PackedIter → Nat × Nat → Except (Failure String) α,
      (PackedIter.new data >>= fun iter => iter.countAndTotalBytes >>= k iter) = .error (.fail e) := by
  cases hnew : PackedIter.new data with
  | error failure =>
    cases failure with
    | fail e => exact ⟨e, fun _ => rfl⟩
    | panic => exact absurd hnew (PackedIter.new_ne_panic data)
  | ok iter =>
    obtain ⟨e, he⟩ := countAndTotalBytes_of_not_wellFormed hnew h
    refine ⟨e, fun k => ?_⟩
    rw [ok_bind, he]
    rfl

theorem packedRouting_of_not_wellFormed {data : Bytes} (h : ¬ WellFormed data) :
    ∃ e, ∀ pool, packedRouting pool data = .error (.fail e) := by
  obtain ⟨e, he⟩ :=
    countAndTotalBytes_bind_of_not_wellFormed (α := PackedIter × Bool × List Bytes) h
  exact ⟨e, fun pool => he _⟩

/-- What the frame drivers write: the count, and the results one behind the other. -/
theorem foldl_pushResult (rs : List Bytes) (out : Bytes) :
    rs.foldl pushResult out = out ++ rs.flatMap packedComponent := by
  induction rs generalizing out with
  | nil => exact (List.append_nil out).symm
  | cons r rs ih => rw [List.foldl_cons, ih, pushResult, List.flatMap_cons, List.append_assoc]

/-- The byte map asks for nothing but a plausible count: it writes that count, and the results of the
items there are. -/
theorem bytesMapSerial_of_new {data : Bytes} {iter : PackedIter} (hnew : PackedIter.new data = .ok iter)
    (f : Bytes → Bytes) :
    bytesMapSerial data f =
      .ok (le32 (declared data) ++ ((items data).map f).flatMap packedComponent) := by
  rw [bytesMapSerial, hnew, ok_bind, forEach_ok hnew, ← foldl_pushResult, List.foldl_map]
  obtain ⟨-, -, rfl⟩ := PackedIter.new_eq_ok_iff.mp hnew
  rfl

theorem bytesMapSerial_of_wellFormed {data : Bytes} (h : WellFormed data) (f : Bytes → Bytes) :
    bytesMapSerial data f = .ok (packedFrame ((items data).map f)) := by
  rw [bytesMapSerial_of_new (new_of_wellFormed h), packedFrame, List.length_map, h.2]

end Castrum
