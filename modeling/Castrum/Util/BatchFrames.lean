import Castrum.Http.QueryParser
import Castrum.Http.UrlJoin
import Castrum.Shared.PackedWire

/-!
# Castrum — batches that are framed without being validated (`rust/util/batch/core.rs`, `http/etag.rs`)

`packed_routing` checks every frame before a driver starts. The byte map, the pair parsers, the hex
encoder, the ETags and the URL resolver loop over `PackedIter` themselves: they write the count of the
input into the header, and then one frame for each item that the iterator yields. The iterator stops
at a frame that is cut off, without an error.

* `PackedOp` — the operations, each with its inputs, and what they return;
* `PackedOp.run_of_accepted` — the header is the count announced, the frames are those of the items found;
* `packedOp_headerCounts_iff` — exactly when the two agree.
-/

namespace Castrum

open Packed

/-! ## The loops of the source -/

/-- `usize::saturating_add`. -/
def saturatingAddSize (a b : Nat) : Nat := min (a + b) (2 ^ 64 - 1)

/-- A writer of pairs into a slice: what it wrote, and the room that is left. -/
abbrev PairsParser := Bytes → Bytes → Except (Failure String) (Out UInt8)

/-- One item: the scratch buffer grows to the worst case, and a malformed item gives an empty frame. -/
def parsePairsItem (parse : PairsParser) (state : Bytes × Bytes) (item : Bytes) :
    Except (Failure String) (Bytes × Bytes) :=
  let cap := saturatingAddSize (saturatingMulSize item.length 9) 16
  let scratch := state.2 ++ List.replicate (cap - state.2.length) 0
  match parse item scratch with
  | .ok written => .ok (state.1 ++ (le32 written.pos ++ written.written), written.bytes)
  | .error (.fail _) => .ok (state.1 ++ le32 0, scratch)
  | .error .panic => .error .panic

def parsePairsBatch (data : Bytes) (parse : PairsParser) : Except (Failure String) Bytes := do
  let iter ← PackedIter.new data
  let (out, _) ← iter.forEach (le32 iter.len, []) (parsePairsItem parse)
  .ok out

def queryParseBatchBytes (data : Bytes) : Except (Failure String) Bytes :=
  parsePairsBatch data queryParsePackedIntoSlice

def formParseBatchBytes (data : Bytes) : Except (Failure String) Bytes :=
  parsePairsBatch data queryParsePackedIntoSlice

def hexEncodeBatchBytes (data : Bytes) : Except (Failure String) Bytes := do
  let iter ← PackedIter.new data
  iter.forEach (le32 iter.len) fun out item =>
    .ok (out ++ (le32 (item.length * 2) ++ hexEncode item))

/-- The hex digit of four bits of the checksum. -/
def crcDigit (crc : UInt32) (shift : UInt32) : UInt8 := hexDigit ((crc >>> shift) &&& 0x0f).toUInt8

def etagText (crc : UInt32) (weak : Bool) : Bytes :=
  (if weak then [87, 47] else []) ++
    34 :: ([28, 24, 20, 16, 12, 8, 4, 0].map (crcDigit crc) ++ [34])

def etagFromCrc32Into (crc : UInt32) (weak : Bool) (out : Bytes) :
    Except (Failure String) (Bytes × Nat) :=
  let len := if weak then 12 else 10
  if out.length < len then .error (.fail "etag: output buffer too small")
  else .ok (placed out 0 (etagText crc weak), len)

def etagBatchPacked (crc32 : Bytes → UInt32) (input : Bytes) (weak : Bool) :
    Except (Failure String) Bytes := do
  let iter ← PackedIter.new input
  let per := if weak then 12 else 10
  iter.forEach (le32 iter.len) fun out item => do
    let (tag, _) ← etagFromCrc32Into (crc32 item) weak (List.replicate per 0)
    .ok (out ++ (le32 per ++ tag))

/-- One pair of the resolver: text that is not UTF-8 gives an empty result. -/
def urlResolveItem (base reference : Bytes) : Bytes :=
  match fromUtf8 base, fromUtf8 reference with
  | some base, some reference => utf8 (String.ofList (urlResolve base reference))
  | _, _ => []

/-- A loop over two iterators at once: the first is asked first, and the loop ends with either. -/
def forZip {σ : Type} (body : σ → Bytes → Bytes → σ) :
    Nat → PackedIter → PackedIter → σ → Except (Failure String) σ
  | 0, _, _, s => .ok s
  | n + 1, a, b, s => do
    match ← a.next with
    | (none, _) => .ok s
    | (some x, a) =>
      match ← b.next with
      | (none, _) => .ok s
      | (some y, b) => forZip body n a b (body s x y)

def urlResolveBatchPacked (bases references : Bytes) : Except (Failure String) Bytes := do
  let b ← PackedIter.new bases
  let r ← PackedIter.new references
  let count := min b.len r.len
  forZip (fun out base reference => pushResult out (urlResolveItem base reference)) count b r (le32 count)

/-! ## The operations -/

/-- A packed operation with its inputs. -/
inductive PackedOp where
  | bytesMap (f : Bytes → Bytes) (data : Bytes)
  | parsePairs (parse : PairsParser) (data : Bytes)
  | hexEncode (data : Bytes)
  | etag (crc32 : Bytes → UInt32) (weak : Bool) (data : Bytes)
  | urlResolve (bases references : Bytes)
  | packedBatch (pool : WorkerPool) (f : Bytes → Bytes) (data : Bytes)

namespace PackedOp

def run : PackedOp → Except (Failure String) Bytes
  | bytesMap f data => bytesMapSerial data f
  | parsePairs parse data => parsePairsBatch data parse
  | hexEncode data => hexEncodeBatchBytes data
  | etag crc32 weak data => etagBatchPacked crc32 data weak
  | urlResolve bases references => urlResolveBatchPacked bases references
  | packedBatch pool f data => runPackedBatch pool data f

/-- The count that goes into the header. -/
def count : PackedOp → Nat
  | bytesMap _ data | parsePairs _ data | hexEncode data | etag _ _ data | packedBatch _ _ data =>
    declared data
  | urlResolve bases references => min (declared bases) (declared references)

/-- The items that are there. -/
def found : PackedOp → Nat
  | bytesMap _ data | parsePairs _ data | hexEncode data | etag _ _ data | packedBatch _ _ data =>
    (items data).length
  | urlResolve bases references => min (items bases).length (items references).length

/-- A batch that `PackedIter::new` takes: it has a count, and room for as many lengths. -/
def Plausible (data : Bytes) : Prop := 4 ≤ data.length ∧ declared data ≤ (data.length - 4) / 4

instance (data : Bytes) : Decidable (Plausible data) := inferInstanceAs (Decidable (_ ∧ _))

/-- The inputs that are not refused at once. -/
def Accepted : PackedOp → Prop
  | bytesMap _ data | parsePairs _ data | hexEncode data | etag _ _ data => Plausible data
  | urlResolve bases references => Plausible bases ∧ Plausible references
  | packedBatch _ _ data => WellFormed data

/-- Every frame that is announced is complete. -/
def Complete (op : PackedOp) : Prop := op.found = op.count

/-- The results are short enough for their length fields, and no parser panics. -/
def Fits : PackedOp → Prop
  | bytesMap f data | packedBatch _ f data => ∀ item ∈ items data, (f item).length < 2 ^ 32
  | parsePairs parse data => ∀ item ∈ items data, ∀ scratch, parse item scratch ≠ .error .panic ∧
      ∀ out, parse item scratch = .ok out → out.written.length < 2 ^ 32
  | hexEncode data => ∀ item ∈ items data, item.length * 2 < 2 ^ 32
  | etag _ _ _ => True
  | urlResolve bases references => ∀ pair ∈ (items bases).zip (items references),
      (urlResolveItem pair.1 pair.2).length < 2 ^ 32

/-! ## What they write -/

theorem new_plausible_ok {data : Bytes} (h : Plausible data) :
    PackedIter.new data = .ok ⟨data, 4, declared data⟩ :=
  PackedIter.new_eq_ok_iff.mpr ⟨h.1, h.2, rfl⟩

theorem new_implausible_error {data : Bytes} (h : ¬ Plausible data) :
    ∃ e, PackedIter.new data = .error e := by
  cases hnew : PackedIter.new data with
  | error e => exact ⟨e, rfl⟩
  | ok it =>
    obtain ⟨hfour, hcount, -⟩ := PackedIter.new_eq_ok_iff.mp hnew
    exact absurd ⟨hfour, hcount⟩ h

theorem packs_map {α : Type} {xs : List α} {f : α → Bytes} (h : ∀ x ∈ xs, (f x).length < 2 ^ 32) :
    Packs (xs.map f) := by
  intro r hr
  obtain ⟨x, hx, rfl⟩ := List.mem_map.mp hr
  exact h x hx

/-- A loop whose every step appends a frame of its own appends as many frames as there are items. -/
theorem foldlM_pushes {σ : Type} {body : Bytes × σ → Bytes → Except (Failure String) (Bytes × σ)}
    {xs : List Bytes}
    (hbody : ∀ out s, ∀ item ∈ xs, ∃ r s', r.length < 2 ^ 32 ∧
      body (out, s) item = .ok (out ++ packedComponent r, s')) (out : Bytes) (s : σ) :
    ∃ rs s', rs.length = xs.length ∧ Packs rs ∧
      xs.foldlM body (out, s) = .ok (out ++ rs.flatMap packedComponent, s') := by
  induction xs generalizing out s with
  | nil => exact ⟨[], s, rfl, nofun, by rw [List.flatMap_nil, List.append_nil]; rfl⟩
  | cons item xs ih =>
    obtain ⟨r, s₁, hr, hitem⟩ := hbody out s item List.mem_cons_self
    obtain ⟨rs, s₂, hlength, hpacks, hrest⟩ :=
      ih (fun out s item hmem => hbody out s item (List.mem_cons_of_mem _ hmem))
        (out ++ packedComponent r) s₁
    refine ⟨r :: rs, s₂, ?_, List.forall_mem_cons.mpr ⟨hr, hpacks⟩, ?_⟩
    · rw [List.length_cons, List.length_cons, hlength]
    · rw [List.foldlM_cons, hitem, ok_bind, hrest, List.flatMap_cons, List.append_assoc]

theorem parsePairsItem_pushes {parse : PairsParser} {item : Bytes}
    (hfits : ∀ scratch, parse item scratch ≠ .error .panic ∧
      ∀ out, parse item scratch = .ok out → out.written.length < 2 ^ 32) (out scratch : Bytes) :
    ∃ r scratch', r.length < 2 ^ 32 ∧
      parsePairsItem parse (out, scratch) item = .ok (out ++ packedComponent r, scratch') := by
  unfold parsePairsItem
  dsimp only
  split
  · rename_i written hparse
    exact ⟨written.written, written.bytes, (hfits _).2 _ hparse, rfl⟩
  · exact ⟨[], _, by decide, by rw [packedComponent, List.append_nil]; rfl⟩
  · rename_i hparse
    exact absurd hparse (hfits _).1

theorem etagText_length (crc : UInt32) (weak : Bool) :
    (etagText crc weak).length = if weak then 12 else 10 := by
  cases weak <;> rfl

/-- The tag fills the slice that was made for it. -/
theorem etagFromCrc32Into_fits (crc : UInt32) (weak : Bool) :
    etagFromCrc32Into crc weak (List.replicate (if weak then 12 else 10) 0) =
      .ok (etagText crc weak, if weak then 12 else 10) := by
  unfold etagFromCrc32Into
  dsimp only
  rw [if_neg (by rw [List.length_replicate]; exact Nat.lt_irrefl _), placed, List.take_zero,
    List.nil_append, Nat.zero_add, etagText_length, List.drop_eq_nil_of_le, List.append_nil]
  rw [List.length_replicate]

/-- Two iterators at once run over their items in pairs. -/
theorem forZip_eq {σ : Type} (body : σ → Bytes → Bytes → σ) (n : Nat) {a b : PackedIter}
    (ha : n ≤ a.count) (hb : n ≤ b.count) (s : σ) :
    forZip body n a b s =
      .ok (((frames n (a.data.drop a.offset)).zip (frames n (b.data.drop b.offset))).foldl
        (fun s pair => body s pair.1 pair.2) s) := by
  induction n generalizing a b s with
  | zero => rfl
  | succ n ih =>
    rw [forZip, frames, frames]
    -- Either iterator ends the loop, the first one first.
    cases hcutA : cutFrame (a.data.drop a.offset) with
    | none =>
      obtain ⟨a', hnext⟩ := PackedIter.next_eq_none a (.inr hcutA)
      rw [hnext]
      rfl
    | some cut =>
      obtain ⟨x, rest⟩ := cut
      obtain ⟨offset, hnextA, hrestA⟩ := PackedIter.next_eq_some (by omega) hcutA
      rw [hnextA, ok_bind]
      dsimp only
      cases hcutB : cutFrame (b.data.drop b.offset) with
      | none =>
        obtain ⟨b', hnext⟩ := PackedIter.next_eq_none b (.inr hcutB)
        rw [hnext]
        rfl
      | some cut =>
        obtain ⟨y, restB⟩ := cut
        obtain ⟨offsetB, hnextB, hrestB⟩ := PackedIter.next_eq_some (by omega) hcutB
        rw [hnextB, ok_bind]
        dsimp only
        rw [ih (by show n ≤ a.count - 1; omega) (by show n ≤ b.count - 1; omega), hrestA, hrestB]
        rfl

/-- The two batches of the resolver, item by item. -/
theorem urlResolveBatchPacked_eq {bases references : Bytes} (hb : Plausible bases)
    (hr : Plausible references) :
    urlResolveBatchPacked bases references =
      .ok (le32 (min (declared bases) (declared references)) ++
        (((items bases).zip (items references)).map fun pair =>
          urlResolveItem pair.1 pair.2).flatMap packedComponent) := by
  have hzip : (frames (min (declared bases) (declared references)) (bases.drop 4)).zip
      (frames (min (declared bases) (declared references)) (references.drop 4)) =
      (items bases).zip (items references) := by
    rw [frames_take (Nat.min_le_left _ _), frames_take (Nat.min_le_right _ _) (references.drop 4),
      List.zip, ← List.take_zipWith]
    apply List.take_of_length_le
    rw [List.length_zipWith]
    exact min_le_min (items_length_le bases) (items_length_le references)
  rw [urlResolveBatchPacked, new_plausible_ok hb, ok_bind, new_plausible_ok hr, ok_bind]
  have hloop := forZip_eq (fun out base reference => pushResult out (urlResolveItem base reference))
    (min (declared bases) (declared references)) (a := ⟨bases, 4, declared bases⟩)
    (b := ⟨references, 4, declared references⟩) (Nat.min_le_left _ _) (Nat.min_le_right _ _)
    (le32 (min (declared bases) (declared references)))
  rw [hzip] at hloop
  rw [← foldl_pushResult, List.foldl_map]
  exact hloop

/-- **What an operation writes**: the count announced, and a frame for each item that is there. -/
theorem run_of_accepted {op : PackedOp} (hfits : op.Fits) (haccepted : op.Accepted) :
    ∃ rs, rs.length = op.found ∧ Packs rs ∧
      op.run = .ok (le32 op.count ++ rs.flatMap packedComponent) := by
  cases op with
  | bytesMap f data =>
    refine ⟨(items data).map f, List.length_map _, packs_map hfits, ?_⟩
    exact bytesMapSerial_of_new (new_plausible_ok haccepted) f
  | parsePairs parse data =>
    obtain ⟨rs, scratch, hlength, hpacks, hloop⟩ :=
      foldlM_pushes (fun out scratch item hitem => parsePairsItem_pushes (hfits item hitem) out scratch)
        (le32 (declared data)) []
    refine ⟨rs, hlength, hpacks, ?_⟩
    have hnew := new_plausible_ok haccepted
    rw [run, parsePairsBatch, hnew, ok_bind, forEach_of_new hnew]
    show (List.foldlM _ (le32 (declared data), []) (items data) >>= _) = _
    rw [hloop]
    rfl
  -- these two write the length field of a result before they compute it
  | hexEncode data =>
    refine ⟨(items data).map Castrum.hexEncode, List.length_map _, ?_, ?_⟩
    · apply packs_map
      intro item hitem
      rw [hexEncode_length, Nat.mul_comm]
      exact hfits item hitem
    · have hnew := new_plausible_ok haccepted
      have hpush : (fun (out item : Bytes) => out ++ (le32 (item.length * 2) ++ Castrum.hexEncode item)) =
          fun out item => pushResult out (Castrum.hexEncode item) := by
        funext out item
        rw [pushResult, packedComponent, hexEncode_length, Nat.mul_comm]
      rw [run, hexEncodeBatchBytes, hnew, ok_bind, forEach_ok hnew, hpush, ← foldl_pushResult,
        List.foldl_map]
      rfl
  | etag crc32 weak data =>
    refine ⟨(items data).map fun item => etagText (crc32 item) weak, List.length_map _, ?_, ?_⟩
    · apply packs_map
      intro item _
      rw [etagText_length]
      split <;> decide
    · have hnew := new_plausible_ok haccepted
      have hpush : (fun (out item : Bytes) => do
            let (tag, _) ← etagFromCrc32Into (crc32 item) weak
              (List.replicate (if weak then 12 else 10) 0)
            (.ok (out ++ (le32 (if weak then 12 else 10) ++ tag)) : Except (Failure String) Bytes)) =
          fun out item => .ok (pushResult out (etagText (crc32 item) weak)) := by
        funext out item
        rw [etagFromCrc32Into_fits, pushResult, packedComponent, etagText_length]
        rfl
      rw [run, etagBatchPacked, hnew, ok_bind]
      dsimp only
      rw [hpush, forEach_ok hnew, ← foldl_pushResult, List.foldl_map]
      rfl
  | urlResolve bases references =>
    refine ⟨_, ?_, ?_, urlResolveBatchPacked_eq haccepted.1 haccepted.2⟩
    · rw [List.length_map, List.length_zip]
      rfl
    · exact packs_map hfits
  | packedBatch pool f data =>
    refine ⟨(items data).map f, List.length_map _, packs_map hfits, ?_⟩
    rw [run, runPackedBatch_of_wellFormed pool haccepted, packedFrame, List.length_map, haccepted.2]
    rfl

theorem run_of_not_accepted {op : PackedOp} (hrefused : ¬ op.Accepted) : ∃ e, op.run = .error e := by
  cases op with
  | bytesMap f data =>
    obtain ⟨e, he⟩ := new_implausible_error hrefused
    exact ⟨e, by rw [run, bytesMapSerial, he]; rfl⟩
  | parsePairs parse data =>
    obtain ⟨e, he⟩ := new_implausible_error hrefused
    exact ⟨e, by rw [run, parsePairsBatch, he]; rfl⟩
  | hexEncode data =>
    obtain ⟨e, he⟩ := new_implausible_error hrefused
    exact ⟨e, by rw [run, hexEncodeBatchBytes, he]; rfl⟩
  | etag crc32 weak data =>
    obtain ⟨e, he⟩ := new_implausible_error hrefused
    exact ⟨e, by rw [run, etagBatchPacked, he]; rfl⟩
  | urlResolve bases references =>
    rw [run, urlResolveBatchPacked]
    by_cases hb : Plausible bases
    · obtain ⟨e, he⟩ := new_implausible_error fun hr => hrefused ⟨hb, hr⟩
      exact ⟨e, by rw [new_plausible_ok hb, ok_bind, he]; rfl⟩
    · obtain ⟨e, he⟩ := new_implausible_error hb
      exact ⟨e, by rw [he]; rfl⟩
  | packedBatch pool f data =>
    obtain ⟨e, he⟩ := packedRouting_of_not_wellFormed hrefused
    exact ⟨_, by rw [run, runPackedBatch, runPackedBatchIdx, he]; rfl⟩

theorem count_lt (op : PackedOp) : op.count < 2 ^ 32 := by
  cases op with
  | urlResolve bases references => exact Nat.lt_of_le_of_lt (Nat.min_le_left _ _) (declared_lt bases)
  | _ => exact declared_lt _

end PackedOp

/-! ## When the header is right -/

/-- **A self-consistent batch**: its count is the number of complete frames that follow, and it can be
unpacked. -/
def HeaderCounts (out : Bytes) : Prop :=
  4 ≤ out.length ∧ (frames out.length (out.drop 4)).length = declared out ∧
    ∃ rs, PackedWire.unpackByteResults out = .ok rs

theorem headerCounts_iff {count : Nat} (hcount : count < 2 ^ 32) {rs : List Bytes} (hpacks : Packs rs) :
    HeaderCounts (le32 count ++ rs.flatMap packedComponent) ↔ rs.length = count := by
  have hdrop : (le32 count ++ rs.flatMap packedComponent).drop 4 = rs.flatMap packedComponent :=
    List.drop_left' (length_le32 count)
  have hdeclared : declared (le32 count ++ rs.flatMap packedComponent) = count := by
    rw [declared, List.take_left' (length_le32 count), wordOf_le32, Nat.mod_eq_of_lt hcount]
  have hroom : rs.length ≤ (le32 count ++ rs.flatMap packedComponent).length := by
    have hbody := length_flatMap_packedComponent rs
    rw [List.length_append]
    omega
  rw [HeaderCounts, hdrop, hdeclared, frames_flatMap_of_le hpacks hroom]
  constructor
  · exact fun h => h.2.1
  · intro hall
    refine ⟨?_, hall, rs, ?_⟩
    · rw [List.length_append, length_le32]
      omega
    · rw [← hall]
      exact PackedWire.unpackByteResults_packedFrame hpacks (by omega)

/-- **Exactly when the output of a packed operation is self-consistent**: the input is refused, or every
frame it announces is there. -/
theorem packedOp_headerCounts_iff (op : PackedOp) (hfits : op.Fits) :
    (∀ out, op.run = .ok out → HeaderCounts out) ↔ ¬ op.Accepted ∨ op.Complete := by
  by_cases haccepted : op.Accepted
  · obtain ⟨rs, hlength, hpacks, hrun⟩ := PackedOp.run_of_accepted hfits haccepted
    have hcounts := headerCounts_iff op.count_lt hpacks
    rw [hlength] at hcounts
    constructor
    · intro hall
      exact .inr (hcounts.mp (hall _ hrun))
    · rintro (hrefused | hcomplete) out hout
      · exact absurd haccepted hrefused
      · rw [hrun, Except.ok.injEq] at hout
        rw [← hout]
        exact hcounts.mpr hcomplete
  · obtain ⟨e, he⟩ := PackedOp.run_of_not_accepted haccepted
    constructor
    · exact fun _ => .inl haccepted
    · intro _ out hout
      rw [he] at hout
      cases hout

/-- A complete batch of two items. -/
theorem packedOp_headerCounts_complete :
    HeaderCounts (packedFrame [[48, 49], [48, 50, 48, 51]]) :=
  (packedOp_headerCounts_iff (.hexEncode (packedFrame [[1], [2, 3]]))
    (by show ∀ item ∈ _, _; decide)).mpr (.inr (by show _ = _; decide)) _ (by decide)

/-- One item of five bytes is announced, and none of them follows. -/
theorem packedOp_header_overcounts :
    (PackedOp.bytesMap id [1, 0, 0, 0, 5, 0, 0, 0]).run = .ok [1, 0, 0, 0] ∧
      ¬ HeaderCounts [1, 0, 0, 0] := by
  refine ⟨rfl, ?_⟩
  rintro ⟨-, hcount, -⟩
  revert hcount
  decide

end Castrum
