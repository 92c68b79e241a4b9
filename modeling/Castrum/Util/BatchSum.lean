import Castrum.Lib.Saturate
import Castrum.Util.Batch

/-!
# Castrum — summing the ids of a batch (`rust/util/batch_core.rs`, `rust/util/batch/core.rs`)

The sums of the items are added with `saturating_add`: in one pass, or in parallel, where the chunks
of the batch are divided among the workers, every share is added up from zero and the totals of the
shares are added pair by pair. The division is the scheduler's; that it divides is all that is known
of it.

* `exists_bracketing` / `exists_splitTree` — divisions into shares are bracketings;
* `sumIds_scheduling_iff` — the batches for which the division does not matter.
-/

namespace Castrum

open Packed

/-! ## The source functions -/

def i64Min : Int := -2 ^ 63

def i64Max : Int := 2 ^ 63 - 1

/-- `i64::saturating_add`. -/
def saturatingAddI64 (a b : Int64) : Int64 := Int64.ofInt (clamp i64Min i64Max (a.toInt + b.toInt))

/-- The loop over the items of one chunk. -/
def addItems (f : Bytes → Int64) (acc : Int64) (chunk : List Bytes) : Int64 :=
  chunk.foldl (fun a item => saturatingAddI64 a (f item)) acc

/-- How the chunks have been divided: the shares in order, and how they are reduced in pairs. -/
inductive SplitTree (α : Type) where
  | leaf (chunks : List α)
  | node (left right : SplitTree α)

namespace SplitTree

def chunks {α : Type} : SplitTree α → List α
  | leaf chunks => chunks
  | node left right => left.chunks ++ right.chunks

/-- `.fold(|| 0, ..).reduce(|| 0, ..)`: the reduction starts every share with a zero of its own. -/
def sum (f : Bytes → Int64) : SplitTree (List Bytes) → Int64
  | leaf chunks => saturatingAddI64 0 (chunks.foldl (addItems f) 0)
  | node left right => saturatingAddI64 (left.sum f) (right.sum f)

end SplitTree

/-- A scheduler divides the chunks it is given, and keeps them all in order. -/
structure Splitter where
  split : List (List Bytes) → SplitTree (List Bytes)
  chunks_split : ∀ chunks, (split chunks).chunks = chunks

/-- `par_chunks(size)`. -/
def parChunks (size : Nat) (items : List Bytes) : List (List Bytes) :=
  chunksOf size items.length items

def sumBatchI64 (pool : WorkerPool) (splitter : Splitter) (items : List Bytes) (f : Bytes → Int64)
    (chunkItems : Nat) : Int64 :=
  if pool.parallelize items.length (totalBytes items) then
    (splitter.split (parChunks (max chunkItems 64) items)).sum f
  else addItems f 0 items

/-- The sum of the ids of one item, by the JSON reader: zero for an item that it refuses. -/
def idSum (jsonSumIds : Bytes → Option Int64) (item : Bytes) : Int64 := (jsonSumIds item).getD 0

def sumIdsBatchData (pool : WorkerPool) (splitter : Splitter) (jsonSumIds : Bytes → Option Int64)
    (data : Bytes) (chunkItems : Nat) : Except (Failure String) Int64 := do
  let (iter, parallel, items) ← packedRouting pool data
  if parallel then .ok (sumBatchI64 pool splitter items (idSum jsonSumIds) chunkItems)
  else iter.forEach 0 fun total item => .ok (saturatingAddI64 total (idSum jsonSumIds item))

/-! ## Saturating addition -/

theorem toInt_mem (x : Int64) : i64Min ≤ x.toInt ∧ x.toInt ≤ i64Max := by
  have hlow := x.le_toInt
  have hhigh := x.toInt_lt
  unfold i64Min i64Max
  omega

theorem toInt_saturatingAddI64 (a b : Int64) :
    (saturatingAddI64 a b).toInt = clamp i64Min i64Max (a.toInt + b.toInt) := by
  obtain ⟨hlow, hhigh⟩ := clamp_mem (show i64Min ≤ i64Max by decide) (a.toInt + b.toInt)
  exact Int64.toInt_ofInt_of_le hlow (Int.lt_of_le_sub_one hhigh)

theorem saturatingAddI64_zero (a : Int64) : saturatingAddI64 a 0 = a := by
  apply Int64.toInt_inj.mp
  rw [toInt_saturatingAddI64, Int64.toInt_zero, Int.add_zero]
  exact clamp_of_mem (toInt_mem a).1 (toInt_mem a).2

theorem zero_saturatingAddI64 (a : Int64) : saturatingAddI64 0 a = a := by
  apply Int64.toInt_inj.mp
  rw [toInt_saturatingAddI64, Int64.toInt_zero, Int.zero_add]
  exact clamp_of_mem (toInt_mem a).1 (toInt_mem a).2

/-! ## Divisions are bracketings -/

/-- The values that are added up. -/
def idValues (f : Bytes → Int64) (items : List Bytes) : List Int :=
  items.map fun item => (f item).toInt

theorem idValues_mem {f : Bytes → Int64} {items : List Bytes} :
    ∀ x ∈ idValues f items, i64Min ≤ x ∧ x ≤ i64Max := by
  intro x hx
  obtain ⟨item, -, rfl⟩ := List.mem_map.mp hx
  exact toInt_mem _

/-- One pass over some items, behind what has been added already. -/
theorem exists_bracketing_addItems (f : Bytes → Int64) (items : List Bytes) {acc : Int64}
    {t : Bracketing Int} (h : t.eval i64Min i64Max = acc.toInt) :
    ∃ t' : Bracketing Int, t'.elems = t.elems ++ idValues f items ∧
      t'.eval i64Min i64Max = (addItems f acc items).toInt := by
  induction items generalizing acc t with
  | nil => exact ⟨t, (List.append_nil _).symm, h⟩
  | cons item items ih =>
    have hstep : (Bracketing.node t (.leaf (f item).toInt)).eval i64Min i64Max =
        (saturatingAddI64 acc (f item)).toInt := by
      rw [toInt_saturatingAddI64, ← h]
      rfl
    obtain ⟨t', helems, heval⟩ := ih hstep
    refine ⟨t', ?_, heval⟩
    rw [helems, Bracketing.elems, List.append_assoc]
    rfl

theorem exists_bracketing_pass (f : Bytes → Int64) (items : List Bytes) :
    ∃ t : Bracketing Int, t.elems = idValues f items ∧
      t.eval i64Min i64Max = (addItems f 0 items).toInt :=
  exists_bracketing_addItems f items (t := .empty) rfl

theorem foldl_addItems (f : Bytes → Int64) (chunks : List (List Bytes)) (acc : Int64) :
    chunks.foldl (addItems f) acc = addItems f acc chunks.flatten := List.foldl_flatten.symm

/-- A division into shares, as a bracketing of the values. -/
theorem exists_bracketing (f : Bytes → Int64) (s : SplitTree (List Bytes)) :
    ∃ t : Bracketing Int, t.elems = idValues f s.chunks.flatten ∧
      t.eval i64Min i64Max = (s.sum f).toInt := by
  induction s with
  | leaf chunks =>
    rw [SplitTree.sum, zero_saturatingAddI64, foldl_addItems]
    exact exists_bracketing_pass f _
  | node left right ihl ihr =>
    obtain ⟨l, hlelems, hleval⟩ := ihl
    obtain ⟨r, hrelems, hreval⟩ := ihr
    refine ⟨.node l r, ?_, ?_⟩
    · rw [Bracketing.elems, hlelems, hrelems, SplitTree.chunks, List.flatten_append, idValues,
        idValues, idValues, List.map_append]
    · rw [Bracketing.eval, hleval, hreval, SplitTree.sum, toInt_saturatingAddI64]

/-- And every bracketing is a division, into shares of one item. -/
theorem exists_splitTree (f : Bytes → Int64) {t : Bracketing Int} {items : List Bytes}
    (h : t.elems = idValues f items) :
    ∃ s : SplitTree (List Bytes), s.chunks.flatten = items ∧
      (s.sum f).toInt = t.eval i64Min i64Max := by
  induction t generalizing items with
  | empty =>
    obtain rfl : items = [] := List.map_eq_nil_iff.mp h.symm
    exact ⟨.leaf [], rfl, by rw [SplitTree.sum, zero_saturatingAddI64]; rfl⟩
  | leaf x =>
    obtain ⟨item, rfl, rfl⟩ := List.map_eq_singleton_iff.mp h.symm
    refine ⟨.leaf [[item]], rfl, ?_⟩
    rw [SplitTree.sum, zero_saturatingAddI64]
    exact congrArg Int64.toInt (zero_saturatingAddI64 (f item))
  | node l r ihl ihr =>
    obtain ⟨items₁, items₂, rfl, h₁, h₂⟩ := List.map_eq_append_iff.mp h.symm
    obtain ⟨left, hleft, hlsum⟩ := ihl h₁.symm
    obtain ⟨right, hright, hrsum⟩ := ihr h₂.symm
    refine ⟨.node left right, ?_, ?_⟩
    · rw [SplitTree.chunks, List.flatten_append, hleft, hright]
    · rw [SplitTree.sum, toInt_saturatingAddI64, hlsum, hrsum, Bracketing.eval]

/-- The items of a batch whose sums may be added in any bracketing. -/
def SteadyIds (f : Bytes → Int64) (items : List Bytes) : Prop :=
  Steady i64Min i64Max (idValues f items)

theorem splitTree_sum_eq_iff (f : Bytes → Int64) (items : List Bytes) :
    (∀ s : SplitTree (List Bytes), s.chunks.flatten = items → s.sum f = addItems f 0 items) ↔
      SteadyIds f items := by
  obtain ⟨t₀, helems₀, heval₀⟩ := exists_bracketing_pass f items
  have hmem : ∀ x ∈ t₀.elems, i64Min ≤ x ∧ x ≤ i64Max := by
    rw [helems₀]
    exact idValues_mem
  rw [SteadyIds, ← helems₀,
    ← Bracketing.eval_eq_iff_steady (by decide) (by decide) (by decide) hmem]
  constructor
  · intro h t ht
    obtain ⟨s, hs, hsum⟩ := exists_splitTree f (ht.trans helems₀)
    rw [← hsum, h s hs, heval₀]
  · intro h s hs
    obtain ⟨t, ht, heval⟩ := exists_bracketing f s
    apply Int64.toInt_inj.mp
    rw [← heval, h t (by rw [ht, hs, helems₀]), heval₀]

/-! ## The driver -/

theorem flatten_parChunks {size : Nat} (hsize : 0 < size) (items : List Bytes) :
    (parChunks size items).flatten = items := by
  have hcut : ∀ n (xs : List Bytes), xs.length ≤ n → (chunksOf size n xs).flatten = xs := by
    intro n
    induction n with
    | zero =>
      intro xs hxs
      rw [List.eq_nil_of_length_eq_zero (Nat.le_zero.mp hxs)]
      rfl
    | succ n ih =>
      intro xs hxs
      rw [chunksOf]
      split
      · next hnil => rw [hnil]; rfl
      · rw [List.flatten_cons, ih _ (by rw [List.length_drop]; omega), List.take_append_drop]
  exact hcut items.length items (Nat.le_refl _)

/-- On a well-formed batch: the one pass, or the division of the scheduler. -/
theorem sumIdsBatchData_of_wellFormed (pool : WorkerPool) (splitter : Splitter)
    (jsonSumIds : Bytes → Option Int64) {data : Bytes} (h : WellFormed data) (chunkItems : Nat) :
    sumIdsBatchData pool splitter jsonSumIds data chunkItems =
      .ok (if pool.parallelize (declared data) (totalBytes (items data)) then
        (splitter.split (parChunks (max chunkItems 64) (items data))).sum (idSum jsonSumIds)
      else addItems (idSum jsonSumIds) 0 (items data)) := by
  rw [sumIdsBatchData, packedRouting_of_wellFormed pool h, ok_bind]
  by_cases hpar : pool.parallelize (declared data) (totalBytes (items data)) = true
  · rw [if_pos hpar, if_pos hpar]
    show Except.ok (sumBatchI64 ..) = _
    rw [sumBatchI64, if_pos (h.2.symm ▸ hpar)]
  · rw [if_neg hpar, if_neg hpar]
    exact forEach_ok (new_of_wellFormed h) 0 fun total item =>
      saturatingAddI64 total (idSum jsonSumIds item)

/-- **When the scheduling of a batch sum does not matter**: every division of the items into chunks
and of the chunks into shares gives the sum of the one pass, exactly if the items' sums are steady;
and then so does the driver, for every pool, scheduler and size of the chunks. -/
theorem sumIds_scheduling_iff (jsonSumIds : Bytes → Option Int64) (data : Bytes) :
    ((∀ s : SplitTree (List Bytes), s.chunks.flatten = items data →
        s.sum (idSum jsonSumIds) = addItems (idSum jsonSumIds) 0 (items data)) ↔
      SteadyIds (idSum jsonSumIds) (items data)) ∧
    (SteadyIds (idSum jsonSumIds) (items data) → ∀ pool splitter chunkItems,
      sumIdsBatchData pool splitter jsonSumIds data chunkItems =
        sumIdsBatchData .serial splitter jsonSumIds data chunkItems) := by
  have hiff := splitTree_sum_eq_iff (idSum jsonSumIds) (items data)
  refine ⟨hiff, fun hsteady pool splitter chunkItems => ?_⟩
  by_cases h : WellFormed data
  · rw [sumIdsBatchData_of_wellFormed pool splitter jsonSumIds h,
      sumIdsBatchData_of_wellFormed _ splitter jsonSumIds h]
    have hshares : (splitter.split (parChunks (max chunkItems 64) (items data))).sum
        (idSum jsonSumIds) = addItems (idSum jsonSumIds) 0 (items data) := by
      apply hiff.mpr hsteady
      rw [splitter.chunks_split, flatten_parChunks (by omega)]
    rw [hshares, ite_self, ite_self]
  · -- a batch that is cut off is refused before the pool is asked
    obtain ⟨e, he⟩ := packedRouting_of_not_wellFormed h
    rw [sumIdsBatchData, sumIdsBatchData, he, he]
    rfl

/-! ## A batch that is not steady -/

/-- The documents `[]`, `[{"id":9223372036854775807}]`, `[{"id":1}]` and `[{"id":-1}]`. -/
def noIds : Bytes := utf8 "[]"
def largestId : Bytes := utf8 "[\x7b\"id\":9223372036854775807\x7d]"
def oneId : Bytes := utf8 "[\x7b\"id\":1\x7d]"
def negativeId : Bytes := utf8 "[\x7b\"id\":-1\x7d]"

/-- The JSON reader on these documents. -/
def readIds (item : Bytes) : Option Int64 :=
  if item = largestId then some Int64.maxValue
  else if item = oneId then some 1
  else if item = negativeId then some (-1)
  else if item = noIds then some 0
  else none

/-- Four chunks are divided in the middle. -/
def inTheMiddle : Splitter where
  split chunks := .node (.leaf (chunks.take 2)) (.leaf (chunks.drop 2))
  chunks_split := List.take_append_drop 2

theorem addItems_append (f : Bytes → Int64) (acc : Int64) (xs ys : List Bytes) :
    addItems f acc (xs ++ ys) = addItems f (addItems f acc xs) ys := List.foldl_append

theorem addItems_replicate {f : Bytes → Int64} {item : Bytes} (h : f item = 0) (acc : Int64)
    (n : Nat) : addItems f acc (List.replicate n item) = acc := by
  induction n with
  | zero => rfl
  | succ n ih =>
    rw [List.replicate_succ, addItems, List.foldl_cons, h, saturatingAddI64_zero]
    exact ih

theorem flatten_take_chunksOf {size : Nat} (k : Nat) {n : Nat} {xs : List Bytes}
    (hn : xs.length ≤ n) (hsize : 0 < size) :
    ((chunksOf size n xs).take k).flatten = xs.take (k * size) := by
  induction k generalizing n xs with
  | zero => rw [Nat.zero_mul, List.take_zero, List.take_zero, List.flatten_nil]
  | succ k ih =>
    cases n with
    | zero =>
      rw [List.eq_nil_of_length_eq_zero (Nat.le_zero.mp hn), List.take_nil]
      rfl
    | succ n =>
      rw [chunksOf]
      by_cases hxs : xs = []
      · rw [if_pos hxs, hxs, List.take_nil, List.take_nil, List.flatten_nil]
      · have hpos := List.length_pos_iff.mpr hxs
        rw [if_neg hxs, List.take_succ_cons, List.flatten_cons,
          ih (by rw [List.length_drop]; omega), Nat.succ_mul, Nat.add_comm (k * size),
          List.take_add]

/-- Some documents without ids around the three that have some. -/
def unsteadyItems (before behind : Nat) : List Bytes :=
  (List.replicate before noIds ++ [largestId]) ++
    (oneId :: negativeId :: List.replicate behind noIds)

theorem packs_unsteadyItems (before behind : Nat) : Packs (unsteadyItems before behind) := by
  intro item hitem
  have hdocs : item ∈ [noIds, largestId, oneId, negativeId] := by
    simp only [unsteadyItems, List.mem_append, List.mem_cons, List.mem_replicate] at hitem ⊢
    tauto
  have hshort : ∀ doc ∈ [noIds, largestId, oneId, negativeId], doc.length < 2 ^ 32 := by
    decide +kernel
  exact hshort item hdocs

theorem idSum_noIds : idSum readIds noIds = 0 := by decide +kernel

theorem addItems_unsteady_first (before : Nat) (acc : Int64) :
    addItems (idSum readIds) acc (List.replicate before noIds ++ [largestId]) =
      saturatingAddI64 acc Int64.maxValue := by
  rw [addItems_append, addItems_replicate idSum_noIds]
  show saturatingAddI64 acc (idSum readIds largestId) = _
  rw [show idSum readIds largestId = Int64.maxValue by decide +kernel]

theorem addItems_unsteady_second (behind : Nat) (acc : Int64) :
    addItems (idSum readIds) acc (oneId :: negativeId :: List.replicate behind noIds) =
      saturatingAddI64 (saturatingAddI64 acc 1) (-1) := by
  show addItems (idSum readIds) (saturatingAddI64 (saturatingAddI64 acc (idSum readIds oneId))
    (idSum readIds negativeId)) (List.replicate behind noIds) = _
  rw [addItems_replicate idSum_noIds, show idSum readIds oneId = 1 by decide +kernel,
    show idSum readIds negativeId = -1 by decide +kernel]

/-- In one pass the last id takes the saturated sum back; two workers, the second of which begins
behind the largest id, never let it saturate. -/
theorem sumIds_unsteady {before behind : Nat} (hbefore : before = 1023) (hbehind : behind = 1022) :
    sumIdsBatchData (.ofThreads 1 []) inTheMiddle readIds
      (packedFrame (unsteadyItems before behind)) 512 = .ok Int64.maxValue ∧
    sumIdsBatchData .serial inTheMiddle readIds (packedFrame (unsteadyItems before behind)) 512 =
      .ok (Int64.maxValue - 1) := by
  have hlength : (unsteadyItems before behind).length = 2048 := by
    simp only [unsteadyItems, List.length_append, List.length_cons, List.length_nil,
      List.length_replicate]
    omega
  have hpacks := packs_unsteadyItems before behind
  have hwellFormed := wellFormed_packedFrame hpacks (by omega)
  have hitems := items_packedFrame hpacks (by omega)
  rw [sumIdsBatchData_of_wellFormed _ _ _ hwellFormed,
    sumIdsBatchData_of_wellFormed _ _ _ hwellFormed, hitems]
  constructor
  · have hpar : (WorkerPool.ofThreads 1 []).parallelize
        (declared (packedFrame (unsteadyItems before behind)))
        (totalBytes (unsteadyItems before behind)) = true := by
      rw [declared_packedFrame (by omega), hlength]
      show shouldParallelize 1 2048 (totalBytes (unsteadyItems before behind)) = true
      rw [shouldParallelize, Bool.or_eq_true]
      exact .inl (by decide)
    -- Of the four chunks the pool folds the first two and the last two apart.
    have hleft : ((parChunks 512 (unsteadyItems before behind)).take 2).flatten =
        List.replicate before noIds ++ [largestId] := by
      rw [parChunks, flatten_take_chunksOf 2 (Nat.le_refl _) (by decide), unsteadyItems]
      exact List.take_left' (by rw [List.length_append, List.length_replicate, hbefore]; rfl)
    have hright : ((parChunks 512 (unsteadyItems before behind)).drop 2).flatten =
        oneId :: negativeId :: List.replicate behind noIds := by
      have hall := flatten_parChunks (show 0 < 512 by decide) (unsteadyItems before behind)
      rw [← List.take_append_drop 2 (parChunks 512 (unsteadyItems before behind)),
        List.flatten_append, hleft, unsteadyItems] at hall
      exact List.append_cancel_left hall
    rw [if_pos hpar]
    show Except.ok (saturatingAddI64 (saturatingAddI64 0 (List.foldl _ 0 _))
      (saturatingAddI64 0 (List.foldl _ 0 _))) = _
    rw [foldl_addItems, foldl_addItems, show max 512 64 = 512 from rfl, hleft, hright,
      addItems_unsteady_first, addItems_unsteady_second]
    decide +kernel
  · rw [if_neg (by exact Bool.false_ne_true), unsteadyItems, addItems_append,
      addItems_unsteady_first, addItems_unsteady_second]
    decide +kernel

/-- A batch of 2048 documents on one thread. -/
theorem sumIds_depends_on_split :
    sumIdsBatchData (.ofThreads 1 []) inTheMiddle readIds (packedFrame (unsteadyItems 1023 1022))
      512 = .ok Int64.maxValue ∧
    sumIdsBatchData .serial inTheMiddle readIds (packedFrame (unsteadyItems 1023 1022)) 512 =
      .ok (Int64.maxValue - 1) :=
  sumIds_unsteady rfl rfl

end Castrum
