import Mathlib.Data.List.Nodup
import Mathlib.Data.List.Lookmap
import Mathlib.Tactic

/-!
# Castrum — bounded maps with least-recently-used eviction

A map of at most `cap` entries. Using a key puts its entry in front, and a key that is not there takes
the place of another entry once the map is full. What the programs rely on are the laws of such a map,
whichever entry makes room: they are the class `LruMap`, and every result here follows from them. `Lru`
is a map with these laws, for programs that keep one of their own and for running the others.

* `LruMap` — the operations and their laws;
* `LruMap.get?_getOrInsertMut_self` — the entry that was used holds what the caller left in it;
* `LruMap.get?_getOrInsertMut_of_ne` — every other entry is as before, or is gone;
* `LruMap.get?_touch_of_room` — while there is room, it is as before;
* `Lru` — a list in the order of use.
-/

namespace Castrum

/-- The operations of a bounded map, and what holds of them. -/
class LruMap (M : Type → Type → Nat → Type) where
  entries {κ α : Type} {cap : Nat} : M κ α cap → List (κ × α)
  empty {κ α : Type} {cap : Nat} : M κ α cap
  /-- Use a key: put a value under it, or again the one that is there. -/
  touch {κ α : Type} {cap : Nat} [DecidableEq κ] : M κ α cap → κ → α → M κ α cap
  /-- A key has one entry. -/
  nodup {κ α : Type} {cap : Nat} (m : M κ α cap) : ((entries m).map Prod.fst).Nodup
  /-- There are never more entries than the capacity. -/
  length_le {κ α : Type} {cap : Nat} (m : M κ α cap) : (entries m).length ≤ cap
  entries_empty {κ α : Type} {cap : Nat} : entries (empty : M κ α cap) = []
  /-- Behind a use, the key has the value. -/
  mem_touch_self {κ α : Type} {cap : Nat} [DecidableEq κ] (hcap : 0 < cap) (m : M κ α cap) (k : κ)
    (v : α) : (k, v) ∈ entries (touch m k v)
  /-- The other entries are some of those before. -/
  mem_of_mem_touch {κ α : Type} {cap : Nat} [DecidableEq κ] {m : M κ α cap} {k : κ} {v : α}
    {e : κ × α} (he : e ∈ entries (touch m k v)) (hne : e.1 ≠ k) : e ∈ entries m
  /-- They are all of them where the key is there, or a place is free. -/
  mem_touch_of_room {κ α : Type} {cap : Nat} [DecidableEq κ] {m : M κ α cap} {k : κ} {v : α}
    (hroom : k ∈ (entries m).map Prod.fst ∨ (entries m).length < cap) {e : κ × α}
    (he : e ∈ entries m) (hne : e.1 ≠ k) : e ∈ entries (touch m k v)

namespace LruMap

variable {M : Type → Type → Nat → Type} [LruMap M] {κ α β : Type} {cap : Nat} [DecidableEq κ]

/-- The value under a key. Does not count as a use. -/
def get? (m : M κ α cap) (k : κ) : Option α := (entries m).lookup k

/-- `get_or_insert_mut`: reach for the entry of `k`, made from `new` if there is none, and let
the caller change the value in place. -/
def getOrInsertMut (m : M κ α cap) (k : κ) (new : α) (f : α → β × α) : β × M κ α cap :=
  let r := f ((get? m k).getD new)
  (r.1, touch m k r.2)

/-! ## Reading

Since no key has two entries, what is found under a key is the same as what the entries hold of it, and
the laws about entries become laws about `get?`. -/

theorem get?_eq_some_iff {m : M κ α cap} {k : κ} {v : α} : get? m k = some v ↔ (k, v) ∈ entries m := by
  constructor
  · intro h
    obtain ⟨l, l', hl, -⟩ := List.lookup_eq_some_iff.mp h
    rw [hl]
    exact List.mem_append_right _ List.mem_cons_self
  · intro h
    obtain ⟨l, l', hl⟩ := List.append_of_mem h
    have hnodup := nodup m
    rw [hl, List.map_append, List.map_cons] at hnodup
    rw [get?, hl]
    refine List.lookup_eq_some_iff.mpr ⟨l, l', rfl, fun e he => ?_⟩
    -- an earlier entry of the key would be a second one
    refine bne_iff_ne.mpr fun hk => ?_
    exact (List.nodup_append.mp hnodup).2.2 _ (List.mem_map_of_mem he) _ List.mem_cons_self hk.symm

omit [DecidableEq κ] in
theorem not_mem_empty {e : κ × α} : e ∉ entries (empty : M κ α cap) := by
  rw [entries_empty]
  exact List.not_mem_nil

@[simp] theorem get?_empty (k : κ) : get? (empty : M κ α cap) k = none := by
  rw [get?, entries_empty]
  rfl

theorem mem_of_get? {m : M κ α cap} {k : κ} {v : α} (h : get? m k = some v) : (k, v) ∈ entries m :=
  get?_eq_some_iff.mp h

/-- The entries after a use: the one used, and some of those before. -/
theorem mem_touch {m : M κ α cap} {k : κ} {v : α} {e : κ × α} (h : e ∈ entries (touch m k v)) :
    e = (k, v) ∨ e ∈ entries m := by
  by_cases hk : e.1 = k
  · have hcap : 0 < cap := Nat.lt_of_lt_of_le (List.length_pos_of_mem h) (length_le _)
    have hself := get?_eq_some_iff.mpr (mem_touch_self hcap m k v)
    obtain ⟨k', v'⟩ := e
    obtain rfl : k' = k := hk
    rw [get?_eq_some_iff.mpr h, Option.some.injEq] at hself
    exact .inl (by rw [hself])
  · exact .inr (mem_of_mem_touch h hk)

theorem get?_touch_self (hcap : 0 < cap) (m : M κ α cap) (k : κ) (v : α) :
    get? (touch m k v) k = some v := get?_eq_some_iff.mpr (mem_touch_self hcap m k v)

theorem get?_touch_of_ne (m : M κ α cap) {k k' : κ} (h : k' ≠ k) (v : α) :
    get? (touch m k v) k' = get? m k' ∨ get? (touch m k v) k' = none := by
  cases hget : get? (touch m k v) k' with
  | none => exact .inr rfl
  | some v' =>
    have hold := mem_of_mem_touch (mem_of_get? hget) h
    exact .inl (get?_eq_some_iff.mpr hold).symm

/-- **The entry reached for** holds what the caller left in it. -/
theorem get?_getOrInsertMut_self (hcap : 0 < cap) (m : M κ α cap) (k : κ) (new : α) (f : α → β × α) :
    get? (getOrInsertMut m k new f).2 k = some (f ((get? m k).getD new)).2 :=
  get?_touch_self hcap m k _

/-- **Every other entry** is as before, or was evicted. -/
theorem get?_getOrInsertMut_of_ne (m : M κ α cap) {k k' : κ} (h : k' ≠ k) (new : α) (f : α → β × α) :
    get? (getOrInsertMut m k new f).2 k' = get? m k' ∨ get? (getOrInsertMut m k new f).2 k' = none :=
  get?_touch_of_ne m h _

/-! ## Room

A use evicts only for a new key in a full map. So a program that never has more keys than the capacity
sees an unbounded map: each key keeps what was last put under it. -/

def keys (m : M κ α cap) : List κ := (entries m).map Prod.fst

omit [DecidableEq κ] in
theorem length_keys (m : M κ α cap) : (keys m).length = (entries m).length := List.length_map _

omit [DecidableEq κ] in
@[simp] theorem keys_empty : keys (empty : M κ α cap) = [] := by
  rw [keys, entries_empty]
  rfl

theorem get?_eq_none_iff {m : M κ α cap} {k : κ} : get? m k = none ↔ k ∉ keys m := by
  rw [get?, List.lookup_eq_none_iff, keys, List.mem_map]
  constructor
  · rintro h ⟨e, he, rfl⟩
    exact absurd (h e he) (by simp)
  · intro h e he
    exact bne_iff_ne.mpr fun hk => h ⟨e, he, hk.symm⟩

/-- A key that is there, or for which there is a place, evicts nothing. -/
def Room (m : M κ α cap) (k : κ) : Prop := k ∈ keys m ∨ (entries m).length < cap

/-- **While there is room**, the other entries are as before. -/
theorem get?_touch_of_room {m : M κ α cap} {k k' : κ} (h : Room m k) (hne : k' ≠ k) (v : α) :
    get? (touch m k v) k' = get? m k' := by
  cases hget : get? m k' with
  | some v' => exact get?_eq_some_iff.mpr (mem_touch_of_room h (mem_of_get? hget) hne)
  | none =>
    rcases get?_touch_of_ne m hne v with heq | hnone
    · rw [heq, hget]
    · exact hnone

omit [DecidableEq κ] in
/-- There is room only in a map that can hold something. -/
theorem Room.cap_pos {m : M κ α cap} {k : κ} (h : Room m k) : 0 < cap := by
  rcases h with hmem | hlt
  · have hpos := List.length_pos_of_mem hmem
    rw [length_keys] at hpos
    exact Nat.lt_of_lt_of_le hpos (length_le m)
  · exact Nat.lt_of_le_of_lt (Nat.zero_le _) hlt

/-- What is read behind a use, while there is room. -/
theorem get?_touch {m : M κ α cap} {k k' : κ} (h : Room m k) (v : α) :
    get? (touch m k v) k' = if k' = k then some v else get? m k' := by
  by_cases hne : k' = k
  · rw [if_pos hne, hne, get?_touch_self h.cap_pos]
  · rw [if_neg hne, get?_touch_of_room h hne]

theorem mem_keys_touch {m : M κ α cap} {k k' : κ} {v : α} (h : k' ∈ keys (touch m k v)) :
    k' = k ∨ k' ∈ keys m := by
  obtain ⟨e, he, rfl⟩ := List.mem_map.mp h
  rcases mem_touch he with rfl | he
  · exact .inl rfl
  · exact .inr (List.mem_map_of_mem he)

/-- A use of an entry that is there keeps their number. -/
theorem length_touch_of_mem {m : M κ α cap} {k : κ} (h : k ∈ keys m) (v : α) :
    (entries (touch m k v)).length = (entries m).length := by
  -- the keys are the same, and none is twice among them
  have hperm : (keys (touch m k v)).Perm (keys m) := by
    refine (List.perm_ext_iff_of_nodup (nodup _) (nodup m)).mpr fun a => ?_
    rw [← not_iff_not, ← keys, ← keys, ← get?_eq_none_iff, ← get?_eq_none_iff, get?_touch (.inl h)]
    by_cases ha : a = k
    · rw [if_pos ha, ha, get?_eq_none_iff]
      exact iff_of_false nofun (not_not_intro h)
    · rw [if_neg ha]
  rw [← length_keys, ← length_keys, hperm.length_eq]

/-- There is room for a key while all keys are among a few. -/
theorem room_of_subset {m : M κ α cap} {k : κ} {few : List κ} (hfew : few.length ≤ cap)
    (hkeys : keys m ⊆ few) (hk : k ∈ few) : Room m k := by
  by_cases hmem : k ∈ keys m
  · exact .inl hmem
  · refine .inr ?_
    have hnodup : (k :: keys m).Nodup := List.nodup_cons.mpr ⟨hmem, nodup m⟩
    have hle := (hnodup.subperm (List.cons_subset.mpr ⟨hk, hkeys⟩)).length_le
    rw [List.length_cons, length_keys] at hle
    omega

end LruMap

/-! ## A list in the order of use

The front is the entry used last. A use takes the entry of the key out, if there is one, puts the new one
in front, and cuts the list off at the capacity. -/

/-- A map of at most `cap` entries, most recently used first. -/
structure Lru (κ α : Type) (cap : Nat) where
  entries : List (κ × α)
  nodup : (entries.map Prod.fst).Nodup
  bounded : entries.length ≤ cap

namespace Lru

variable {κ α : Type} {cap : Nat}

/-- The map without entries. -/
def empty : Lru κ α cap := ⟨[], List.nodup_nil, Nat.zero_le _⟩

variable [DecidableEq κ]

/-- The entries with the one of `k`, holding `v` now, in front. -/
def touched (m : Lru κ α cap) (k : κ) (v : α) : List (κ × α) :=
  ((k, v) :: m.entries.filter (fun e => e.1 ≠ k)).take cap

/-- Put `v` under `k`, in front; the entry used least recently makes room. -/
def touch (m : Lru κ α cap) (k : κ) (v : α) : Lru κ α cap where
  entries := m.touched k v
  nodup := by
    have hsub : (m.entries.filter (fun e => e.1 ≠ k)).map Prod.fst |>.Sublist
        (m.entries.map Prod.fst) := List.filter_sublist.map _
    have hnotin : k ∉ (m.entries.filter (fun e => e.1 ≠ k)).map Prod.fst := by
      simp
    rw [touched, List.map_take, List.map_cons]
    exact (List.nodup_cons.mpr ⟨hnotin, hsub.nodup m.nodup⟩).sublist (List.take_sublist ..)
  bounded := List.length_take_le ..

theorem mem_touched_self (hcap : 0 < cap) (m : Lru κ α cap) (k : κ) (v : α) : (k, v) ∈ m.touched k v := by
  obtain ⟨n, rfl⟩ : ∃ n, cap = n + 1 := ⟨cap - 1, by omega⟩
  rw [touched, List.take_succ_cons]
  exact List.mem_cons_self

theorem mem_of_mem_touched {m : Lru κ α cap} {k : κ} {v : α} {e : κ × α} (he : e ∈ m.touched k v)
    (hne : e.1 ≠ k) : e ∈ m.entries := by
  rcases List.mem_cons.mp (List.mem_of_mem_take he) with rfl | he
  · exact absurd rfl hne
  · exact (List.mem_filter.mp he).1

/-- With room, nothing is cut off. -/
theorem mem_touched_of_room {m : Lru κ α cap} {k : κ} {v : α}
    (hroom : k ∈ m.entries.map Prod.fst ∨ m.entries.length < cap) {e : κ × α} (he : e ∈ m.entries)
    (hne : e.1 ≠ k) : e ∈ m.touched k v := by
  have hlen : ((k, v) :: m.entries.filter (fun e => e.1 ≠ k)).length ≤ cap := by
    rw [List.length_cons]
    rcases hroom with hmem | hlt
    · obtain ⟨e', he', hk⟩ := List.mem_map.mp hmem
      have hless : (m.entries.filter fun e => e.1 ≠ k).length < m.entries.length :=
        List.length_filter_lt_length_iff_exists.mpr ⟨e', he', by simpa using hk⟩
      exact Nat.lt_of_lt_of_le hless m.bounded
    · exact Nat.lt_of_le_of_lt (List.length_filter_le ..) hlt
  rw [touched, List.take_of_length_le hlen]
  exact List.mem_cons_of_mem _ (List.mem_filter.mpr ⟨he, by simpa using hne⟩)

end Lru

instance : LruMap Lru where
  entries := Lru.entries
  empty := Lru.empty
  touch := Lru.touch
  nodup := Lru.nodup
  length_le := Lru.bounded
  entries_empty := rfl
  mem_touch_self := Lru.mem_touched_self
  mem_of_mem_touch := Lru.mem_of_mem_touched
  mem_touch_of_room := Lru.mem_touched_of_room

end Castrum
