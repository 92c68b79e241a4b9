import Castrum.FastSchema.Semantics
import Castrum.Lib.Checked
import Mathlib.Data.Finset.Card

/-!
# Castrum — the slots of the distinct keys (`rust/json/fast_schema/validate.rs`)

`DistinctKeys` as it lies in memory: sixteen slots of 48 bytes with the length of the key in each, of
which the first `len` are in use; and a list on the heap once a key does not fit. The validator's model has
a list of keys in both places.

* `seen_eq` / `keysOf_eq` — the slots in use hold their keys, whatever is behind these;
* `insert_spec` — one insertion does to the slots what it does to the list of keys;
* `insertAll_exact` — after any insertions, the number is that of the distinct keys.
-/

namespace Castrum.Slots

/-! ## The code -/

/-- `([u8; INLINE_KEY_BYTES], usize)`. -/
structure Slot where
  k : Vector UInt8 inlineKeyBytes
  klen : Nat

inductive DistinctKeys where
  | inline (keys : Vector Slot inlineDistinct) (len : Nat)
  | heap (keys : List Bytes)

def DistinctKeys.new : DistinctKeys :=
  .inline (Vector.replicate inlineDistinct ⟨Vector.replicate inlineKeyBytes 0, 0⟩) 0

/-- `k[..klen]`. -/
def Slot.stored (s : Slot) : Except (Failure Empty) Bytes := sliceOf s.k.toList 0 s.klen

/-- `klen == key.len() && &k[..klen] == key`. -/
def Slot.holds (s : Slot) (key : Bytes) : Except (Failure Empty) Bool :=
  if s.klen = key.length then s.stored.map (· = key) else .ok false

/-- `k[..key.len()].copy_from_slice(key)`, with what was behind the key before. -/
def Slot.copyFrom (s : Slot) (key : Bytes) : Except (Failure Empty) (Vector UInt8 inlineKeyBytes) :=
  if h : key.length ≤ inlineKeyBytes then
    .ok ⟨(key ++ s.k.toList.drop key.length).toArray, by simp; omega⟩
  else .error .panic

/-- The loop that looks for `key`. -/
def seen : List Slot → Bytes → Except (Failure Empty) Bool
  | [], _ => .ok false
  | s :: slots, key => do
    if ← s.holds key then return true else seen slots key

/-- The loop that copies the keys to the heap. -/
def keysOf : List Slot → Except (Failure Empty) (List Bytes)
  | [] => .ok []
  | s :: slots => do
    let key ← s.stored
    let keys ← keysOf slots
    return key :: keys

/-- `insert`: whether the key was new. -/
def DistinctKeys.insert : DistinctKeys → Bytes → Except (Failure Empty) (Bool × DistinctKeys)
  | .inline keys len, key => do
    let used ← sliceOf keys.toList 0 len
    if ← seen used key then
      return (false, .inline keys len)
    else if len < inlineDistinct ∧ key.length ≤ inlineKeyBytes then
      let slot ← orFail .panic keys[len]?
      let k ← slot.copyFrom key
      return (true, .inline (keys.setIfInBounds len ⟨k, key.length⟩) (len + 1))
    else
      let v ← keysOf used
      return (true, .heap (v ++ [key]))
  | .heap keys, key =>
    if keys.any (· = key) then .ok (false, .heap keys) else .ok (true, .heap (keys ++ [key]))

def DistinctKeys.len : DistinctKeys → Nat
  | .inline _ len => len
  | .heap keys => keys.length

/-- One insertion after the other. -/
def DistinctKeys.insertAll : DistinctKeys → List Bytes → Except (Failure Empty) (List Bool × DistinctKeys)
  | d, [] => .ok ([], d)
  | d, key :: keys => do
    let (isNew, d) ← d.insert key
    let (areNew, d) ← d.insertAll keys
    return (isNew :: areNew, d)

/-! ## The keys in the slots -/

def Slot.key (s : Slot) : Bytes := s.k.toList.take s.klen

/-- The keys, where the validator's model has them. -/
def DistinctKeys.toKeys : DistinctKeys → Castrum.DistinctKeys
  | .inline keys len => .inline ((keys.toList.take len).map Slot.key)
  | .heap keys => .heap keys

/-- The slots in use are there, and so are the keys in them. -/
def DistinctKeys.WellFormed : DistinctKeys → Prop
  | .inline keys len => len ≤ inlineDistinct ∧ ∀ s ∈ keys.toList.take len, s.klen ≤ inlineKeyBytes
  | .heap _ => True

variable {s : Slot} {slots : List Slot} {keys : List Bytes} {key : Bytes} {d : DistinctKeys}

theorem length_key (h : s.klen ≤ inlineKeyBytes) : s.key.length = s.klen := by
  rw [Slot.key, List.length_take, Vector.length_toList, Nat.min_eq_left h]

theorem stored_eq (h : s.klen ≤ inlineKeyBytes) : s.stored = .ok s.key := by
  have hroom : s.klen ≤ s.k.toList.length := by
    rw [Vector.length_toList]
    exact h
  rw [Slot.stored, sliceOf, if_pos ⟨Nat.zero_le _, hroom⟩, List.drop_zero, Slot.key]

/-- The comparison of the lengths comes first, and makes no difference. -/
theorem holds_eq (h : s.klen ≤ inlineKeyBytes) (key : Bytes) :
    s.holds key = .ok (decide (key = s.key)) := by
  unfold Slot.holds
  by_cases hlen : s.klen = key.length
  · rw [if_pos hlen, stored_eq h]
    exact congrArg Except.ok (decide_eq_decide.mpr eq_comm)
  · have hne : key ≠ s.key := by
      rintro rfl
      exact hlen (length_key h).symm
    rw [if_neg hlen, decide_eq_false hne]

/-- **The search** finds the keys of the slots. -/
theorem seen_eq (h : ∀ s ∈ slots, s.klen ≤ inlineKeyBytes) (key : Bytes) :
    seen slots key = .ok (decide (key ∈ slots.map Slot.key)) := by
  induction slots with
  | nil => rfl
  | cons s slots ih =>
    obtain ⟨hs, hslots⟩ := List.forall_mem_cons.mp h
    rw [seen, holds_eq hs, ok_bind, ih hslots]
    by_cases heq : key = s.key
    · have hmem : key ∈ (s :: slots).map Slot.key := List.mem_cons.mpr (.inl heq)
      rw [if_pos (decide_eq_true heq), decide_eq_true hmem]
      rfl
    · have hmem : key ∈ (s :: slots).map Slot.key ↔ key ∈ slots.map Slot.key := by
        rw [List.map_cons, List.mem_cons, or_iff_right heq]
      rw [if_neg (by rw [decide_eq_false heq]; exact Bool.false_ne_true), decide_eq_decide.mpr hmem]

/-- **The migration** copies the keys of the slots. -/
theorem keysOf_eq (h : ∀ s ∈ slots, s.klen ≤ inlineKeyBytes) : keysOf slots = .ok (slots.map Slot.key) := by
  induction slots with
  | nil => rfl
  | cons s slots ih =>
    obtain ⟨hs, hslots⟩ := List.forall_mem_cons.mp h
    rw [keysOf, stored_eq hs, ok_bind, ih hslots, ok_bind]
    rfl

/-- A key that fits is stored in front of what the slot held before. -/
theorem copyFrom_eq (s : Slot) (h : key.length ≤ inlineKeyBytes) :
    ∃ k, s.copyFrom key = .ok k ∧ (⟨k, key.length⟩ : Slot).key = key :=
  ⟨_, dif_pos h, List.take_left⟩

/-! ## Insertions -/

/-- The slot behind those in use is written. -/
theorem take_setIfInBounds {slots : Vector Slot inlineDistinct} {len : Nat}
    (h : len < inlineDistinct) (s : Slot) :
    (slots.setIfInBounds len s).toList.take (len + 1) = slots.toList.take len ++ [s] := by
  have hlen : len < slots.toList.length := by
    rw [Vector.length_toList]
    exact h
  rw [Vector.toList_setIfInBounds, List.take_add_one, List.take_set_of_le (Nat.le_refl _),
    List.getElem?_set_self hlen]
  rfl

theorem insert_heap (keys : List Bytes) (key : Bytes) :
    ∃ d', DistinctKeys.insert (.heap keys) key = .ok (decide (key ∉ keys), d') ∧
      d'.toKeys = (Castrum.DistinctKeys.heap keys).insert key ∧ d'.WellFormed := by
  rw [DistinctKeys.insert, Castrum.DistinctKeys.insert]
  by_cases hmem : key ∈ keys
  · have hany : keys.any (· = key) = true := List.any_eq_true.mpr ⟨key, hmem, decide_eq_true rfl⟩
    rw [if_pos hany, if_pos hmem, decide_eq_false (not_not.mpr hmem)]
    exact ⟨_, rfl, rfl, trivial⟩
  · have hany : ¬ keys.any (· = key) = true := by
      rw [List.any_eq_true]
      rintro ⟨k, hk, heq⟩
      exact hmem (of_decide_eq_true heq ▸ hk)
    rw [if_neg hany, if_neg hmem, decide_eq_true hmem]
    exact ⟨_, rfl, rfl, trivial⟩

theorem insert_inline {slots : Vector Slot inlineDistinct} {len : Nat} (hlen : len ≤ inlineDistinct)
    (hused : ∀ s ∈ slots.toList.take len, s.klen ≤ inlineKeyBytes) (key : Bytes) :
    ∃ d', DistinctKeys.insert (.inline slots len) key =
        .ok (decide (key ∉ (slots.toList.take len).map Slot.key), d') ∧
      d'.toKeys = (Castrum.DistinctKeys.inline ((slots.toList.take len).map Slot.key)).insert key ∧
      d'.WellFormed := by
  have hlength : len ≤ slots.toList.length := by
    rw [Vector.length_toList]
    exact hlen
  have hslice : (sliceOf slots.toList 0 len : Except (Failure Empty) (List Slot)) =
      .ok (slots.toList.take len) := by
    rw [sliceOf, if_pos ⟨Nat.zero_le _, hlength⟩, List.drop_zero]
  have hcount : ((slots.toList.take len).map Slot.key).length = len := by
    rw [List.length_map, List.length_take, Nat.min_eq_left hlength]
  rw [DistinctKeys.insert, hslice, ok_bind, seen_eq hused, ok_bind, Castrum.DistinctKeys.insert, hcount]
  by_cases hmem : key ∈ (slots.toList.take len).map Slot.key
  · rw [if_pos (decide_eq_true hmem), if_pos hmem, decide_eq_false (not_not.mpr hmem)]
    exact ⟨_, rfl, rfl, hlen, hused⟩
  rw [if_neg (by rw [decide_eq_false hmem]; exact Bool.false_ne_true), if_neg hmem, decide_eq_true hmem]
  by_cases hroom : len < inlineDistinct ∧ key.length ≤ inlineKeyBytes
  · -- the key takes the next slot
    obtain ⟨k, hcopy, hkey⟩ := copyFrom_eq slots[len] hroom.2
    rw [if_pos hroom, if_pos hroom, Vector.getElem?_eq_getElem hroom.1, orFail_some, ok_bind, hcopy, ok_bind]
    refine ⟨_, rfl, ?_, hroom.1, ?_⟩
    · rw [DistinctKeys.toKeys, take_setIfInBounds hroom.1, List.map_append, List.map_singleton, hkey]
    · rw [take_setIfInBounds hroom.1, List.forall_mem_append, List.forall_mem_singleton]
      exact ⟨hused, hroom.2⟩
  · -- all keys move to the heap
    rw [if_neg hroom, if_neg hroom, keysOf_eq hused, ok_bind]
    exact ⟨_, rfl, rfl, trivial⟩

/-- **One insertion** returns whether the key was new, and does to the slots what it does to the list. -/
theorem insert_spec (hd : d.WellFormed) (key : Bytes) :
    ∃ d', d.insert key = .ok (decide (key ∉ d.toKeys.keys), d') ∧
      d'.toKeys = d.toKeys.insert key ∧ d'.WellFormed := by
  cases d with
  | inline slots len => exact insert_inline hd.1 hd.2 key
  | heap keys => exact insert_heap keys key

/-- **Insertions** after those of `prior`: a key is new where it is not among the ones before it. -/
theorem insertAll_spec (hd : d.WellFormed) {prior : List Bytes}
    (hprior : ∀ key, key ∈ d.toKeys.keys ↔ key ∈ prior) (keys : List Bytes) :
    ∃ d', d.insertAll keys =
        .ok ((keys.zipIdx prior.length).map fun e => decide (e.1 ∉ (prior ++ keys).take e.2), d') ∧
      d'.toKeys = keys.foldl Castrum.DistinctKeys.insert d.toKeys ∧ d'.WellFormed := by
  induction keys generalizing d prior with
  | nil => exact ⟨d, rfl, rfl, hd⟩
  | cons key keys ih =>
    obtain ⟨d', hinsert, hkeys, hd'⟩ := insert_spec hd key
    -- a known key is not stored again, and adds nothing to the keys seen before
    have hprior' : ∀ k, k ∈ d'.toKeys.keys ↔ k ∈ prior ++ [key] := by
      intro k
      rw [hkeys, DistinctKeys.keys_insert, List.mem_append, List.mem_singleton, ← hprior]
      split
      · next hmem => exact ⟨.inl, fun h => h.elim id fun heq => heq ▸ hmem⟩
      · rw [List.mem_append, List.mem_singleton]
    obtain ⟨d'', hall, hfold, hd''⟩ := ih hd' hprior'
    refine ⟨d'', ?_, by rw [hfold, hkeys, List.foldl_cons], hd''⟩
    rw [DistinctKeys.insertAll, hinsert, ok_bind]
    simp only [hall, ok_bind]
    rw [List.zipIdx_cons, List.map_cons, List.take_left, List.length_append, List.length_singleton,
      List.append_assoc, List.singleton_append, decide_eq_decide.mpr (not_congr (hprior key))]
    rfl

theorem len_eq (hd : d.WellFormed) : d.len = d.toKeys.len := by
  cases d with
  | inline slots len =>
    show len = ((slots.toList.take len).map Slot.key).length
    rw [List.length_map, List.length_take, Vector.length_toList, Nat.min_eq_left hd.1]
  | heap keys => rfl

theorem wellFormed_new : DistinctKeys.new.WellFormed :=
  ⟨Nat.zero_le _, fun _ hs => absurd hs List.not_mem_nil⟩

/-- **The number of distinct keys.** Whatever keys are inserted, in the slots or on the heap, no access is
out of range, each insertion tells whether the key was new, and the number is that of the distinct keys. -/
theorem insertAll_exact (keys : List Bytes) :
    ∃ d, DistinctKeys.new.insertAll keys =
        .ok (keys.zipIdx.map fun e => decide (e.1 ∉ keys.take e.2), d) ∧
      d.len = keys.toFinset.card := by
  have hprior : ∀ key, key ∈ DistinctKeys.new.toKeys.keys ↔ key ∈ ([] : List Bytes) := fun _ => Iff.rfl
  obtain ⟨d, hall, hkeys, hd⟩ := insertAll_spec wellFormed_new hprior keys
  refine ⟨d, hall, ?_⟩
  have hnew : DistinctKeys.new.toKeys = .new := rfl
  rw [len_eq hd, hkeys, hnew, DistinctKeys.foldl_insert, List.card_toFinset]

end Castrum.Slots
