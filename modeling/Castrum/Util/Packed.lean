import Castrum.Lib.Output
import Castrum.Util.Wire

/-!
# Castrum — packed batches (`rust/util/packed.rs`)

A batch is a count and then, item by item, a length and the bytes. Every read is an index into the
slice and panics behind its end, so that a reader that stays in bounds is one that does not panic.

* `PackedIter.next` / `collectVec` / `countAndTotalBytes` — the three readers of the source;
* `frames` — the complete frames at the front of a body, which is what all three of them see;
* `frames_longest` — no list of frames at the front of a body is longer than they are;
* `forItems_eq` / `collectFrom_eq` — a loop over the iterator, and the validating reader, by `frames`.
-/

namespace Castrum

structure PackedIter where
  data : Bytes
  offset : Nat
  count : Nat
  deriving DecidableEq, Repr

namespace PackedIter

/-! ## The readers -/

def new (data : Bytes) : Except (Failure String) PackedIter :=
  if data.length < 4 then .error (.fail "packed buffer: missing count")
  else if (data.length - 4) / 4 < wordOf (data.take 4) then
    .error (.fail "packed buffer: impossible item count")
  else .ok ⟨data, 4, wordOf (data.take 4)⟩

def len (it : PackedIter) : Nat := it.count

/-- `u32::from_le_bytes([data[offset], …, data[offset + 3]])`. -/
def lengthAt (data : Bytes) (offset : Nat) : Except (Failure String) Nat :=
  orFail .panic (readU32 data offset)

/-- `&data[offset..offset + len]`. -/
def slice (data : Bytes) (offset len : Nat) : Except (Failure String) Bytes :=
  orFail .panic (readBytes data offset len)

/-- `Iterator::next`. A frame that is cut off ends the iteration behind its length. -/
def next (it : PackedIter) : Except (Failure String) (Option Bytes × PackedIter) :=
  if it.data.length ≤ it.offset ∨ it.count = 0 then .ok (none, it)
  else if it.data.length < it.offset + 4 then .ok (none, it)
  else do
    let len ← lengthAt it.data it.offset
    if it.data.length < it.offset + 4 + len then .ok (none, { it with offset := it.offset + 4 })
    else do
      let item ← slice it.data (it.offset + 4) len
      .ok (some item, { it with offset := it.offset + 4 + len, count := it.count - 1 })

section

variable {σ : Type}

/-- A `for` loop over an iterator that has so many items left at most. -/
def forItems (body : σ → Bytes → Except (Failure String) σ) :
    Nat → PackedIter → σ → Except (Failure String) σ
  | 0, _, s => .ok s
  | n + 1, it, s => do
    match ← it.next with
    | (none, _) => .ok s
    | (some item, it) => do
      let s ← body s item
      forItems body n it s

/-- `for item in iter { … }`. -/
def forEach (it : PackedIter) (s : σ) (body : σ → Bytes → Except (Failure String) σ) :
    Except (Failure String) σ :=
  forItems body it.count it s

/-- `for (i, item) in iter.enumerate() { … }`. -/
def forEachIdx (it : PackedIter) (s : σ) (body : σ → Nat → Bytes → Except (Failure String) σ) :
    Except (Failure String) σ :=
  (it.forEach (s, 0) fun state item =>
    (body state.1 state.2 item).map fun s => (s, state.2 + 1)).map Prod.fst

end

/-- `iter.collect()`: what the iterator yields until it ends. -/
def collect (it : PackedIter) : Except (Failure String) (List Bytes) :=
  it.forEach [] fun items item => .ok (items ++ [item])

/-- The loop of `collect_vec`, from an offset. -/
def collectFrom (data : Bytes) : Nat → Nat → Except (Failure String) (List Bytes)
  | 0, _ => .ok []
  | n + 1, offset =>
    if data.length < offset + 4 then .error (.fail "packed buffer: truncated length")
    else do
      let len ← lengthAt data offset
      if data.length < offset + 4 + len then .error (.fail "packed buffer: truncated item")
      else do
        let item ← slice data (offset + 4) len
        let items ← collectFrom data n (offset + 4 + len)
        .ok (item :: items)

def collectVec (it : PackedIter) : Except (Failure String) (List Bytes) :=
  collectFrom it.data it.count 4

/-- The loop of `count_and_total_bytes`: the lengths without the items. -/
def totalFrom (data : Bytes) : Nat → Nat → Nat → Except (Failure String) Nat
  | 0, _, total => .ok total
  | n + 1, offset, total =>
    if data.length < offset + 4 then .error (.fail "packed buffer: truncated length")
    else do
      let len ← lengthAt data offset
      if data.length < offset + 4 + len then .error (.fail "packed buffer: truncated item")
      else totalFrom data n (offset + 4 + len) (total + len)

def countAndTotalBytes (it : PackedIter) : Except (Failure String) (Nat × Nat) :=
  (totalFrom it.data it.count 4 0).map fun total => (it.count, total)

end PackedIter

def unpack (data : Bytes) : Except (Failure String) (List Bytes) :=
  PackedIter.new data >>= PackedIter.collectVec

def totalBytes (items : List Bytes) : Nat := (items.map List.length).sum

theorem totalBytes_cons (item : Bytes) (items : List Bytes) :
    totalBytes (item :: items) = item.length + totalBytes items := by
  rw [totalBytes, List.map_cons, List.sum_cons, totalBytes]

/-! ## Frames -/

/-- `[u32 count] { [u32 len][bytes] }`. -/
def packedFrame (items : List Bytes) : Bytes := le32 items.length ++ items.flatMap packedComponent

/-- The first frame of a body and what follows it. -/
def cutFrame (body : Bytes) : Option (Bytes × Bytes) :=
  if body.length < 4 then none
  else if body.length < 4 + wordOf (body.take 4) then none
  else some ((body.drop 4).take (wordOf (body.take 4)), body.drop (4 + wordOf (body.take 4)))

/-- **The complete frames** at the front of a body, `count` of them at most. -/
def frames : Nat → Bytes → List Bytes
  | 0, _ => []
  | count + 1, body =>
    match cutFrame body with
    | none => []
    | some (item, rest) => item :: frames count rest

/-- Items that a frame has room to announce. -/
def Packs (items : List Bytes) : Prop := ∀ item ∈ items, item.length < 2 ^ 32

instance (items : List Bytes) : Decidable (Packs items) :=
  inferInstanceAs (Decidable (∀ item ∈ items, _))

theorem cutFrame_eq_some_iff {body item rest : Bytes} :
    cutFrame body = some (item, rest) ↔
      item.length < 2 ^ 32 ∧ body = packedComponent item ++ rest := by
  constructor
  · intro h
    unfold cutFrame at h
    split at h
    · cases h
    · rename_i hfour
      split at h
      · cases h
      · rename_i hlen
        rw [Option.some.injEq, Prod.mk.injEq] at h
        obtain ⟨rfl, rfl⟩ := h
        have htake : (body.take 4).length = 4 := List.length_take_of_le (Nat.le_of_not_lt hfour)
        have hitem : ((body.drop 4).take (wordOf (body.take 4))).length = wordOf (body.take 4) := by
          rw [List.length_take_of_le]
          rw [List.length_drop]
          omega
        -- four bytes hold the length, which is why it is below `2 ^ 32`
        have hword := wordOf_lt (body.take 4)
        rw [htake] at hword
        refine ⟨by rw [hitem]; exact hword, ?_⟩
        rw [packedComponent, hitem, le32_wordOf htake, List.append_assoc, ← List.drop_drop,
          List.take_append_drop, List.take_append_drop]
  · rintro ⟨hlen, rfl⟩
    have htake : (packedComponent item ++ rest).take 4 = le32 item.length := by
      rw [packedComponent, List.append_assoc, ← length_le32 item.length, List.take_left]
    have hword : wordOf (le32 item.length) = item.length := by
      rw [wordOf_le32, Nat.mod_eq_of_lt hlen]
    have hdrop : (packedComponent item ++ rest).drop 4 = item ++ rest := by
      rw [packedComponent, List.append_assoc, ← length_le32 item.length, List.drop_left]
    have hlength : (packedComponent item ++ rest).length = 4 + item.length + rest.length := by
      rw [List.length_append, length_packedComponent]
    rw [cutFrame, htake, hword, if_neg (by omega), if_neg (by omega), ← List.drop_drop, hdrop,
      List.take_left, List.drop_left]

/-- What the frames are: the body starts with them, and each of them fits its length field. -/
theorem frames_spec (count : Nat) (body : Bytes) :
    (frames count body).length ≤ count ∧ Packs (frames count body) ∧
      ∃ rest, body = (frames count body).flatMap packedComponent ++ rest := by
  induction count generalizing body with
  | zero => exact ⟨Nat.le_refl 0, nofun, body, rfl⟩
  | succ count ih =>
    rw [frames]
    cases hcut : cutFrame body with
    | none => exact ⟨Nat.zero_le _, nofun, body, rfl⟩
    | some cut =>
      obtain ⟨item, rest⟩ := cut
      obtain ⟨hitem, rfl⟩ := cutFrame_eq_some_iff.mp hcut
      obtain ⟨hcount, hpacks, behind, hrest⟩ := ih rest
      refine ⟨Nat.succ_le_succ hcount, ?_, behind, ?_⟩
      · exact List.forall_mem_cons.mpr ⟨hitem, hpacks⟩
      · rw [List.flatMap_cons, List.append_assoc, ← hrest]

/-- **The longest prefix.** Any frames that a body starts with, up to the count, are among them. -/
theorem frames_longest {count : Nat} {items : List Bytes} {rest : Bytes} (hpacks : Packs items)
    (hcount : items.length ≤ count) :
    items <+: frames count (items.flatMap packedComponent ++ rest) := by
  induction items generalizing count with
  | nil => exact List.nil_prefix
  | cons item items ih =>
    obtain ⟨count, rfl⟩ : ∃ n, count = n + 1 := ⟨count - 1, by rw [List.length_cons] at hcount; omega⟩
    obtain ⟨hitem, hitems⟩ := List.forall_mem_cons.mp hpacks
    have hcut : cutFrame ((item :: items).flatMap packedComponent ++ rest) =
        some (item, items.flatMap packedComponent ++ rest) := by
      rw [cutFrame_eq_some_iff, List.flatMap_cons, List.append_assoc]
      exact ⟨hitem, rfl⟩
    rw [frames, hcut]
    exact List.cons_prefix_cons.mpr ⟨rfl, ih hitems (Nat.le_of_succ_le_succ hcount)⟩

/-- Fewer frames are asked for: the first of them. -/
theorem frames_take {n count : Nat} (h : n ≤ count) (body : Bytes) :
    frames n body = (frames count body).take n := by
  induction n generalizing count body with
  | zero => rfl
  | succ n ih =>
    obtain ⟨count, rfl⟩ : ∃ m, count = m + 1 := ⟨count - 1, by omega⟩
    rw [frames, frames]
    cases cutFrame body with
    | none => rfl
    | some cut => exact congrArg (cut.1 :: ·) (ih (by omega) cut.2)

/-- More frames are asked for than there are. -/
theorem frames_flatMap_of_le {items : List Bytes} (hpacks : Packs items) {count : Nat}
    (hcount : items.length ≤ count) : frames count (items.flatMap packedComponent) = items := by
  induction items generalizing count with
  | nil =>
    cases count with
    | zero => rfl
    | succ count => rfl
  | cons item items ih =>
    obtain ⟨count, rfl⟩ : ∃ n, count = n + 1 := ⟨count - 1, by rw [List.length_cons] at hcount; omega⟩
    obtain ⟨hitem, hitems⟩ := List.forall_mem_cons.mp hpacks
    have hcut : cutFrame ((item :: items).flatMap packedComponent) =
        some (item, items.flatMap packedComponent) := by
      rw [cutFrame_eq_some_iff, List.flatMap_cons]
      exact ⟨hitem, rfl⟩
    rw [frames, hcut]
    exact congrArg (item :: ·) (ih hitems (Nat.le_of_succ_le_succ hcount))

/-- A frame is read back as it was written. -/
theorem frames_flatMap {items : List Bytes} (hpacks : Packs items) (rest : Bytes) :
    frames items.length (items.flatMap packedComponent ++ rest) = items := by
  apply Eq.symm
  apply (frames_longest hpacks (Nat.le_refl _)).eq_of_length_le
  exact (frames_spec _ _).1

/-! ## What the readers see -/

namespace PackedIter

/-- The frame at an offset, by the tests that the readers make. -/
theorem cutFrame_drop (data : Bytes) (offset : Nat) :
    cutFrame (data.drop offset) =
      if data.length < offset + 4 then none
      else if data.length < offset + 4 + wordOf ((data.drop offset).take 4) then none
      else some ((data.drop (offset + 4)).take (wordOf ((data.drop offset).take 4)),
        data.drop (offset + 4 + wordOf ((data.drop offset).take 4))) := by
  rw [cutFrame, List.length_drop, List.drop_drop, List.drop_drop, Nat.add_assoc]
  by_cases hfour : data.length < offset + 4
  · rw [if_pos (by omega), if_pos hfour]
  · rw [if_neg (by omega), if_neg hfour]
    by_cases hlen : data.length < offset + (4 + wordOf ((data.drop offset).take 4))
    · rw [if_pos (by omega), if_pos hlen]
    · rw [if_neg (by omega), if_neg hlen]

theorem lengthAt_of_le {data : Bytes} {offset : Nat} (h : ¬ data.length < offset + 4) :
    lengthAt data offset = .ok (wordOf ((data.drop offset).take 4)) := by
  rw [lengthAt, readU32, readWord, if_pos (Nat.le_of_not_lt h), orFail_some]

theorem slice_of_le {data : Bytes} {offset len : Nat} (h : ¬ data.length < offset + len) :
    slice data offset len = .ok ((data.drop offset).take len) := by
  rw [slice, readBytes, if_pos (Nat.le_of_not_lt h), orFail_some]

/-- Where there is no complete frame, or no item is left, the iteration ends. -/
theorem next_eq_none (it : PackedIter)
    (h : it.count = 0 ∨ cutFrame (it.data.drop it.offset) = none) :
    ∃ it', it.next = .ok (none, it') := by
  unfold next
  split
  · exact ⟨_, rfl⟩
  · rename_i hstop
    split
    · exact ⟨_, rfl⟩
    · rename_i hfour
      have hnone := h.resolve_left fun hzero => hstop (.inr hzero)
      rw [cutFrame_drop, if_neg hfour] at hnone
      split at hnone
      · rename_i hlen
        rw [lengthAt_of_le hfour]
        exact ⟨_, if_pos hlen⟩
      · cases hnone

/-- A complete frame is yielded, and the iterator stands behind it. -/
theorem next_eq_some {it : PackedIter} {item rest : Bytes} (hcount : it.count ≠ 0)
    (hcut : cutFrame (it.data.drop it.offset) = some (item, rest)) :
    ∃ offset, it.next = .ok (some item, ⟨it.data, offset, it.count - 1⟩) ∧
      it.data.drop offset = rest := by
  rw [cutFrame_drop] at hcut
  split at hcut
  · cases hcut
  · rename_i hfour
    split at hcut
    · cases hcut
    · rename_i hlen
      rw [Option.some.injEq, Prod.mk.injEq] at hcut
      refine ⟨_, ?_, hcut.2⟩
      have hstop : ¬ (it.data.length ≤ it.offset ∨ it.count = 0) := by omega
      rw [next, if_neg hstop, if_neg hfour, lengthAt_of_le hfour]
      show (if _ then _ else _) = _
      rw [if_neg hlen, slice_of_le hlen, ← hcut.1]
      rfl

section

variable {σ : Type}

theorem forItems_eq (body : σ → Bytes → Except (Failure String) σ) (it : PackedIter) (s : σ) :
    forItems body it.count it s = (frames it.count (it.data.drop it.offset)).foldlM body s := by
  -- the iterator and the frames lose one item at a time
  generalize hn : it.count = n
  induction n generalizing it s with
  | zero => rfl
  | succ n ih =>
    have hcount : it.count ≠ 0 := by omega
    rw [forItems, frames]
    cases hcut : cutFrame (it.data.drop it.offset) with
    | none =>
      obtain ⟨it', hnext⟩ := next_eq_none it (.inr hcut)
      rw [hnext]
      rfl
    | some cut =>
      obtain ⟨item, rest⟩ := cut
      obtain ⟨offset, hnext, hrest⟩ := next_eq_some hcount hcut
      rw [hnext]
      show (body s item >>= fun s => forItems body n ⟨it.data, offset, it.count - 1⟩ s) = _
      rw [List.foldlM_cons]
      congr 1
      funext s'
      rw [ih ⟨it.data, offset, it.count - 1⟩ s' (by show it.count - 1 = n; omega), hrest]

end

/-- The validating reader gives the frames if they are as many as were announced, else an error. -/
theorem collectFrom_eq (data : Bytes) (n offset : Nat) :
    if (frames n (data.drop offset)).length = n then
      collectFrom data n offset = .ok (frames n (data.drop offset))
    else ∃ e, collectFrom data n offset = .error (.fail e) := by
  induction n generalizing offset with
  | zero => rfl
  | succ n ih =>
    rw [collectFrom, frames, cutFrame_drop]
    by_cases hfour : data.length < offset + 4
    · rw [if_pos hfour, if_pos hfour]
      exact ⟨_, rfl⟩
    · rw [if_neg hfour, if_neg hfour, lengthAt_of_le hfour]
      show if _ then (if _ then _ else _) = _ else ∃ e, (if _ then _ else _) = _
      by_cases hlen : data.length < offset + 4 + wordOf ((data.drop offset).take 4)
      · rw [if_pos hlen, if_pos hlen]
        exact ⟨_, rfl⟩
      · rw [if_neg hlen, if_neg hlen, slice_of_le hlen]
        have hrest := ih (offset + 4 + wordOf ((data.drop offset).take 4))
        simp only [List.length_cons, Nat.add_right_cancel_iff]
        split at hrest
        · rename_i hall
          rw [if_pos hall, hrest]
          rfl
        · rename_i hall
          obtain ⟨e, he⟩ := hrest
          rw [if_neg hall, he]
          exact ⟨e, rfl⟩

theorem collectFrom_of_complete {data : Bytes} {n offset : Nat}
    (h : (frames n (data.drop offset)).length = n) :
    collectFrom data n offset = .ok (frames n (data.drop offset)) := by
  have hcollect := collectFrom_eq data n offset
  rwa [if_pos h] at hcollect

theorem collectFrom_of_truncated {data : Bytes} {n offset : Nat}
    (h : (frames n (data.drop offset)).length ≠ n) :
    ∃ e, collectFrom data n offset = .error (.fail e) := by
  have hcollect := collectFrom_eq data n offset
  rwa [if_neg h] at hcollect

/-- The one that only counts fails where the other does. -/
theorem totalFrom_eq (data : Bytes) (n offset total : Nat) :
    totalFrom data n offset total =
      (collectFrom data n offset).map fun items => total + totalBytes items := by
  induction n generalizing offset total with
  | zero => rfl
  | succ n ih =>
    rw [totalFrom, collectFrom]
    by_cases hfour : data.length < offset + 4
    · rw [if_pos hfour, if_pos hfour]
      rfl
    · rw [if_neg hfour, if_neg hfour, lengthAt_of_le hfour]
      show (if _ then _ else _) = (if _ then _ else _ : Except (Failure String) _).map _
      by_cases hlen : data.length < offset + 4 + wordOf ((data.drop offset).take 4)
      · rw [if_pos hlen, if_pos hlen]
        rfl
      · rw [if_neg hlen, if_neg hlen, slice_of_le hlen, ih]
        have hitem : ((data.drop (offset + 4)).take (wordOf ((data.drop offset).take 4))).length =
            wordOf ((data.drop offset).take 4) := by
          rw [List.length_take_of_le]
          rw [List.length_drop]
          omega
        cases collectFrom data n (offset + 4 + wordOf ((data.drop offset).take 4)) with
        | error e => rfl
        | ok items =>
          show Except.ok (total + wordOf ((data.drop offset).take 4) + totalBytes items) =
            Except.ok (total + totalBytes (_ :: items))
          rw [totalBytes_cons, hitem, Nat.add_assoc]

/-- What an iterator is made of. -/
theorem new_eq_ok_iff {data : Bytes} {it : PackedIter} :
    new data = .ok it ↔ 4 ≤ data.length ∧ wordOf (data.take 4) ≤ (data.length - 4) / 4 ∧
      it = ⟨data, 4, wordOf (data.take 4)⟩ := by
  unfold new
  split
  · exact iff_of_false nofun (by omega)
  · split
    · exact iff_of_false nofun (by omega)
    · rw [Except.ok.injEq]
      constructor
      · rintro rfl
        exact ⟨by omega, by omega, rfl⟩
      · rintro ⟨-, -, rfl⟩
        rfl

/-- No call of `next` reads behind the end of the buffer, wherever the iterator stands. -/
theorem next_ne_panic (it : PackedIter) : it.next ≠ .error .panic := by
  intro hpanic
  by_cases hcount : it.count = 0
  · obtain ⟨it', hnext⟩ := next_eq_none it (.inl hcount)
    rw [hnext] at hpanic
    cases hpanic
  · cases hcut : cutFrame (it.data.drop it.offset) with
    | none =>
      obtain ⟨it', hnext⟩ := next_eq_none it (.inr hcut)
      rw [hnext] at hpanic
      cases hpanic
    | some cut =>
      obtain ⟨offset, hnext, -⟩ := next_eq_some hcount hcut
      rw [hnext] at hpanic
      cases hpanic

theorem new_ne_panic (data : Bytes) : new data ≠ .error .panic := by
  unfold new
  split
  · simp
  · split <;> simp

end PackedIter

/-! ## Batches -/

namespace Packed

/-- The count a batch announces. -/
def declared (data : Bytes) : Nat := wordOf (data.take 4)

/-- **The items of a batch**: the complete frames behind the count. -/
def items (data : Bytes) : List Bytes := frames (declared data) (data.drop 4)

/-- A batch whose frames are all complete. -/
def WellFormed (data : Bytes) : Prop := 4 ≤ data.length ∧ (items data).length = declared data

instance (data : Bytes) : Decidable (WellFormed data) := inferInstanceAs (Decidable (_ ∧ _))

theorem items_length_le (data : Bytes) : (items data).length ≤ declared data :=
  (frames_spec _ _).1

theorem length_flatMap_packedComponent (items : List Bytes) :
    4 * items.length ≤ (items.flatMap packedComponent).length := by
  induction items with
  | nil => exact Nat.le_refl 0
  | cons item items ih =>
    rw [List.flatMap_cons, List.length_append, length_packedComponent, List.length_cons]
    omega

/-- The count of a well-formed batch is plausible. -/
theorem new_of_wellFormed {data : Bytes} (h : WellFormed data) :
    PackedIter.new data = .ok ⟨data, 4, declared data⟩ := by
  obtain ⟨hfour, hall⟩ := h
  obtain ⟨-, -, rest, hrest⟩ := frames_spec (declared data) (data.drop 4)
  have hlength := congrArg List.length hrest
  have hbody := length_flatMap_packedComponent (items data)
  rw [List.length_drop, List.length_append, show frames (declared data) (data.drop 4) =
    items data from rfl] at hlength
  rw [PackedIter.new_eq_ok_iff]
  refine ⟨hfour, ?_, rfl⟩
  show declared data ≤ (data.length - 4) / 4
  omega

/-- **The validating reader** accepts the well-formed batches, and gives their items. -/
theorem unpack_of_wellFormed {data : Bytes} (h : WellFormed data) :
    unpack data = .ok (items data) := by
  rw [unpack, new_of_wellFormed h]
  exact PackedIter.collectFrom_of_complete h.2

theorem collectVec_of_not_wellFormed {data : Bytes} {it : PackedIter}
    (hnew : PackedIter.new data = .ok it) (h : ¬ WellFormed data) :
    ∃ e, it.collectVec = .error (.fail e) := by
  obtain ⟨hfour, -, rfl⟩ := PackedIter.new_eq_ok_iff.mp hnew
  exact PackedIter.collectFrom_of_truncated fun hall => h ⟨hfour, hall⟩

theorem countAndTotalBytes_of_wellFormed {data : Bytes} (h : WellFormed data) :
    PackedIter.countAndTotalBytes ⟨data, 4, declared data⟩ =
      .ok (declared data, totalBytes (items data)) := by
  rw [PackedIter.countAndTotalBytes, PackedIter.totalFrom_eq,
    PackedIter.collectFrom_of_complete h.2]
  show Except.ok (declared data, 0 + totalBytes (items data)) = _
  rw [Nat.zero_add]

theorem countAndTotalBytes_of_not_wellFormed {data : Bytes} {it : PackedIter}
    (hnew : PackedIter.new data = .ok it) (h : ¬ WellFormed data) :
    ∃ e, it.countAndTotalBytes = .error (.fail e) := by
  obtain ⟨e, he⟩ := collectVec_of_not_wellFormed hnew h
  obtain ⟨-, -, rfl⟩ := PackedIter.new_eq_ok_iff.mp hnew
  rw [PackedIter.collectVec] at he
  rw [PackedIter.countAndTotalBytes, PackedIter.totalFrom_eq, he]
  exact ⟨e, rfl⟩

/-- A loop over the iterator of any batch runs over its items. -/
theorem forEach_of_new {σ : Type} {data : Bytes} {it : PackedIter}
    (hnew : PackedIter.new data = .ok it) (s : σ)
    (body : σ → Bytes → Except (Failure String) σ) :
    it.forEach s body = (items data).foldlM body s := by
  obtain ⟨-, -, rfl⟩ := PackedIter.new_eq_ok_iff.mp hnew
  exact PackedIter.forItems_eq body ⟨data, 4, declared data⟩ s

/-- A loop whose body cannot fail. -/
theorem forEach_ok {σ : Type} {data : Bytes} {it : PackedIter}
    (hnew : PackedIter.new data = .ok it) (s : σ) (body : σ → Bytes → σ) :
    it.forEach s (fun s item => .ok (body s item)) = .ok ((items data).foldl body s) := by
  rw [forEach_of_new hnew]
  exact List.foldlM_pure

/-- **What the iterator yields**: the items, and then it ends. -/
theorem collect_of_new {data : Bytes} {it : PackedIter} (hnew : PackedIter.new data = .ok it) :
    it.collect = .ok (items data) := by
  rw [PackedIter.collect, forEach_ok hnew]
  have hpush : ∀ xs acc : List Bytes, xs.foldl (fun acc item => acc ++ [item]) acc = acc ++ xs := by
    intro xs
    induction xs with
    | nil =>
      intro acc
      exact (List.append_nil acc).symm
    | cons item xs ih =>
      intro acc
      rw [List.foldl_cons, ih, List.append_assoc, List.singleton_append]
  rw [hpush, List.nil_append]

/-- The same with the numbers of the items, where the body does not fail as long as the state fits. -/
theorem forEachIdx_of_fits {σ : Type} {data : Bytes} {it : PackedIter}
    (hnew : PackedIter.new data = .ok it) (Fits : σ → Prop) {s : σ} (hs : Fits s)
    {body : σ → Nat → Bytes → Except (Failure String) σ} {g : σ → Nat → Bytes → σ}
    (hbody : ∀ s i item, i < (items data).length → Fits s →
      body s i item = .ok (g s i item) ∧ Fits (g s i item)) :
    it.forEachIdx s body =
      .ok ((items data).zipIdx.foldl (fun s entry => g s entry.2 entry.1) s) := by
  rw [PackedIter.forEachIdx, forEach_of_new hnew]
  have hloop : ∀ (xs : List Bytes) (k : Nat) (s : σ), k + xs.length = (items data).length → Fits s →
      xs.foldlM (fun state item => (body state.1 state.2 item).map fun s => (s, state.2 + 1)) (s, k) =
        .ok ((xs.zipIdx k).foldl (fun s entry => g s entry.2 entry.1) s, k + xs.length) := by
    intro xs
    induction xs with
    | nil =>
      intro k s _ _
      rfl
    | cons item xs ih =>
      intro k s hk hs
      rw [List.length_cons] at hk
      obtain ⟨hitem, hfits⟩ := hbody s k item (by omega) hs
      rw [List.zipIdx_cons, List.foldl_cons, List.foldlM_cons, hitem, List.length_cons,
        Nat.add_comm xs.length, ← Nat.add_assoc]
      exact ih (k + 1) (g s k item) (by omega) hfits
  rw [hloop (items data) 0 s (Nat.zero_add _) hs]
  rfl

/-- And where it cannot fail at all. -/
theorem forEachIdx_of_new {σ : Type} {data : Bytes} {it : PackedIter}
    (hnew : PackedIter.new data = .ok it) (s : σ) (body : σ → Nat → Bytes → σ) :
    it.forEachIdx s (fun s i item => .ok (body s i item)) =
      .ok ((items data).zipIdx.foldl (fun s entry => body s entry.2 entry.1) s) :=
  forEachIdx_of_fits hnew (fun _ => True) trivial fun _ _ _ _ _ => ⟨rfl, trivial⟩

/-! ### Frames as batches -/

variable {xs : List Bytes}

theorem declared_packedFrame (hcount : xs.length < 2 ^ 32) : declared (packedFrame xs) = xs.length := by
  rw [declared, packedFrame, ← length_le32 xs.length, List.take_left, wordOf_le32,
    Nat.mod_eq_of_lt hcount]

/-- What is packed is read as it was. -/
theorem items_packedFrame (hpacks : Packs xs) (hcount : xs.length < 2 ^ 32) :
    items (packedFrame xs) = xs := by
  have hdrop : (packedFrame xs).drop 4 = xs.flatMap packedComponent ++ [] := by
    rw [packedFrame, ← length_le32 xs.length, List.drop_left, List.append_nil]
  rw [items, declared_packedFrame hcount, hdrop, frames_flatMap hpacks]

theorem wellFormed_packedFrame (hpacks : Packs xs) (hcount : xs.length < 2 ^ 32) :
    WellFormed (packedFrame xs) := by
  constructor
  · rw [packedFrame, List.length_append, length_le32]
    omega
  · rw [items_packedFrame hpacks hcount, declared_packedFrame hcount]

end Packed

end Castrum
