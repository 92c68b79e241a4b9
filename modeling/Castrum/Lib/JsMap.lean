import Mathlib.Data.List.Basic
import Mathlib.Data.List.Nodup
import Mathlib.Tactic

/-!
# Castrum — maps in the order of insertion

A `Map` of JavaScript: an entry that is replaced keeps its place, a new one comes last. A map that is
used as a bounded cache throws away its older half when a new entry finds it full.

* `get?_set` / `get?_deleteAll` — what the operations change;
* `deleteAll_oldest` — deleting the first keys one by one leaves the later entries;
* `size_evictOldest_lt` — a full map that drops its oldest entry has room for one more;
* `size_put_le` — writing behind `evictOldestHalf` keeps the bound;
* `size_put_add` — and loses as many entries as it reports;
* `map_put` — the operations do not look at the values;
* `All.insert` — what all entries have, also of a bounded map.
-/

namespace Castrum

/-- A map in the order of insertion. -/
structure JsMap (κ α : Type) where
  entries : List (κ × α)
  nodup : (entries.map Prod.fst).Nodup

namespace JsMap

variable {κ α β : Type} [DecidableEq κ]

omit [DecidableEq κ] in
@[ext] theorem ext {m m' : JsMap κ α} (h : m.entries = m'.entries) : m = m' := by
  cases m
  cases m'
  cases h
  rfl

def empty : JsMap κ α := ⟨[], List.nodup_nil⟩

def size (m : JsMap κ α) : Nat := m.entries.length

def keys (m : JsMap κ α) : List κ := m.entries.map Prod.fst

def get? (m : JsMap κ α) (k : κ) : Option α := m.entries.lookup k

/-- The entries with that of `k` replaced, or added at the end. -/
def setIn (k : κ) (v : α) : List (κ × α) → List (κ × α)
  | [] => [(k, v)]
  | (k', v') :: rest => if k' = k then (k, v) :: rest else (k', v') :: setIn k v rest

theorem fst_setIn (k : κ) (v : α) (l : List (κ × α)) :
    (setIn k v l).map Prod.fst =
      if k ∈ l.map Prod.fst then l.map Prod.fst else l.map Prod.fst ++ [k] := by
  induction l with
  | nil => rfl
  | cons p l ih =>
    obtain ⟨k', v'⟩ := p
    rw [setIn]
    by_cases hk : k' = k
    · rw [if_pos hk, hk]
      simp
    · rw [if_neg hk, List.map_cons, ih, List.map_cons]
      by_cases hmem : k ∈ l.map Prod.fst
      · rw [if_pos hmem, if_pos (List.mem_cons_of_mem _ hmem)]
      · rw [if_neg hmem, if_neg (by simpa [Ne.symm hk] using hmem), List.cons_append]

def set (m : JsMap κ α) (k : κ) (v : α) : JsMap κ α where
  entries := setIn k v m.entries
  nodup := by
    rw [fst_setIn]
    split
    · exact m.nodup
    · next hk => exact List.nodup_append.mpr ⟨m.nodup, List.nodup_singleton k, by
        intro a ha b hb hab
        rw [List.mem_singleton.mp hb] at hab
        exact hk (hab ▸ ha)⟩

def delete (m : JsMap κ α) (k : κ) : JsMap κ α where
  entries := m.entries.filter (·.1 ≠ k)
  nodup := m.nodup.sublist (List.filter_sublist.map _)

/-- Delete one key after another. -/
def deleteAll (m : JsMap κ α) (ks : List κ) : JsMap κ α := ks.foldl delete m

/-- Above a bound, the older half of the keys is deleted; the deleted keys are handed back. -/
def evictOldestHalf (cap : Nat) (m : JsMap κ α) : List κ × JsMap κ α :=
  if m.size < cap then ([], m)
  else
    let drop := (m.size + 1) / 2
    let dropped := m.keys.take drop
    (dropped, m.deleteAll dropped)

/-- Above a bound, the oldest entry is deleted. -/
def evictOldest (cap : Nat) (m : JsMap κ α) : JsMap κ α :=
  if m.size < cap then m else (m.keys.head?.map m.delete).getD m

/-- A new entry, behind an eviction if the map is full. -/
def insert (cap : Nat) (m : JsMap κ α) (k : κ) (v : α) : JsMap κ α := (m.evictOldestHalf cap).2.set k v

/-- Write an entry: a new one behind an eviction, one that is there in its place. Also the number of entries
that were evicted. -/
def put (cap : Nat) (m : JsMap κ α) (k : κ) (fresh : α) (next : α → α) : Nat × JsMap κ α :=
  match m.get? k with
  | none => ((m.evictOldestHalf cap).1.length, m.insert cap k fresh)
  | some v => (0, m.set k (next v))

/-- The same keys with other values. -/
def map (f : α → β) (m : JsMap κ α) : JsMap κ β where
  entries := m.entries.map fun p => (p.1, f p.2)
  nodup := by
    rw [List.map_map]
    exact m.nodup

/-! ## Reading -/

section

variable {m : JsMap κ α} {k k' : κ} {v : α} {ks : List κ}

omit [DecidableEq κ] in
/-- The first entry of a list is found first. -/
theorem lookup_cons_eq [DecidableEq κ] (k k' : κ) (v : α) (l : List (κ × α)) :
    ((k', v) :: l).lookup k = if k = k' then some v else l.lookup k := by
  rw [List.lookup_cons]
  by_cases hk : k = k'
  · rw [if_pos hk, beq_iff_eq.mpr hk]
  · rw [if_neg hk, beq_eq_false_iff_ne.mpr hk]

theorem lookup_eq_none_iff {l : List (κ × α)} : l.lookup k = none ↔ k ∉ l.map Prod.fst := by
  induction l with
  | nil => simp
  | cons p l ih =>
    obtain ⟨k', v'⟩ := p
    rw [lookup_cons_eq, List.map_cons, List.mem_cons, not_or, ← ih]
    by_cases hk : k = k' <;> simp [hk]

theorem get?_eq_none_iff : m.get? k = none ↔ k ∉ m.keys := lookup_eq_none_iff

theorem mem_keys_of_get? (h : m.get? k = some v) : k ∈ m.keys := by
  by_contra hk
  rw [get?_eq_none_iff.mpr hk] at h
  cases h

theorem lookup_setIn (l : List (κ × α)) :
    (setIn k v l).lookup k' = if k' = k then some v else l.lookup k' := by
  induction l with
  | nil =>
    rw [setIn, lookup_cons_eq]
  | cons p l ih =>
    obtain ⟨k₀, v₀⟩ := p
    rw [setIn]
    by_cases hk : k₀ = k
    · rw [if_pos hk, lookup_cons_eq, lookup_cons_eq, hk]
      by_cases hk' : k' = k <;> simp [hk']
    · rw [if_neg hk, lookup_cons_eq, lookup_cons_eq, ih]
      by_cases hk' : k' = k₀
      · rw [if_pos hk', if_pos hk', if_neg (by rw [hk']; exact hk)]
      · rw [if_neg hk', if_neg hk']

/-- **What setting an entry changes.** -/
theorem get?_set : (m.set k v).get? k' = if k' = k then some v else m.get? k' := lookup_setIn m.entries

theorem set_set {w : α} : (m.set k v).set k w = m.set k w := by
  ext : 1
  change setIn k w (setIn k v m.entries) = setIn k w m.entries
  induction m.entries with
  | nil => exact if_pos rfl
  | cons p l ih =>
    rw [setIn]
    split
    · next hk =>
      rw [setIn, setIn, if_pos rfl, if_pos hk]
    · next hk =>
      rw [setIn, setIn, if_neg hk, if_neg hk, ih]

theorem keys_set : (m.set k v).keys = if k ∈ m.keys then m.keys else m.keys ++ [k] :=
  fst_setIn k v m.entries

theorem size_set_of_mem (h : k ∈ m.keys) : (m.set k v).size = m.size := by
  have hlen := congrArg List.length (keys_set (m := m) (k := k) (v := v))
  rw [if_pos h, keys, keys, List.length_map, List.length_map] at hlen
  exact hlen

theorem size_set_of_not_mem (h : k ∉ m.keys) : (m.set k v).size = m.size + 1 := by
  have hlen := congrArg List.length (keys_set (m := m) (k := k) (v := v))
  rw [if_neg h, keys, keys, List.length_append, List.length_map, List.length_map] at hlen
  exact hlen

theorem deleteAll_entries (m : JsMap κ α) (ks : List κ) :
    (m.deleteAll ks).entries = m.entries.filter (·.1 ∉ ks) := by
  induction ks generalizing m with
  | nil => simp [deleteAll]
  | cons k ks ih =>
    change ((m.delete k).deleteAll ks).entries = _
    rw [ih, delete, List.filter_filter]
    refine List.filter_congr fun p _ => ?_
    by_cases hk : p.1 = k <;> simp [hk]

theorem lookup_filter (ks : List κ) (l : List (κ × α)) :
    (l.filter (·.1 ∉ ks)).lookup k = if k ∈ ks then none else l.lookup k := by
  induction l with
  | nil => simp
  | cons q l ih =>
    obtain ⟨k₀, v₀⟩ := q
    rw [List.filter_cons, lookup_cons_eq]
    by_cases hp : k₀ ∈ ks
    · rw [if_neg (by simpa using hp), ih]
      by_cases hk : k = k₀
      · rw [hk, if_pos hp, if_pos hp]
      · rw [if_neg hk]
    · rw [if_pos (by simpa using hp), lookup_cons_eq, ih]
      by_cases hk : k = k₀
      · rw [if_pos hk, if_pos hk, if_neg (by rw [hk]; exact hp)]
      · rw [if_neg hk, if_neg hk]

/-- **What deleting some keys changes.** -/
theorem get?_deleteAll : (m.deleteAll ks).get? k = if k ∈ ks then none else m.get? k := by
  rw [get?, deleteAll_entries]
  exact lookup_filter ks m.entries

theorem get?_delete : (m.delete k).get? k' = if k' = k then none else m.get? k' := by
  change (m.deleteAll [k]).get? k' = _
  rw [get?_deleteAll]
  simp only [List.mem_singleton]

/-- Deleting the first keys leaves the later entries. -/
theorem deleteAll_oldest (m : JsMap κ α) (n : Nat) :
    (m.deleteAll (m.keys.take n)).entries = m.entries.drop n := by
  rw [deleteAll_entries]
  have key : ∀ (l : List (κ × α)) (n : Nat), (l.map Prod.fst).Nodup →
      l.filter (·.1 ∉ (l.map Prod.fst).take n) = l.drop n := by
    intro l
    induction l with
    | nil => simp
    | cons p l ih =>
      intro n hnodup
      obtain ⟨hp, hl⟩ := List.nodup_cons.mp hnodup
      cases n with
      | zero => simp
      | succ n =>
        rw [List.map_cons, List.take_succ_cons, List.filter_cons_of_neg (by simp), List.drop_succ_cons,
          ← ih n hl]
        refine List.filter_congr fun q hq => ?_
        have hne : q.1 ≠ p.1 := fun heq => hp (heq ▸ List.mem_map_of_mem hq)
        simp [hne]
  exact key m.entries n m.nodup

/-! ## Evicting -/

variable {cap : Nat}

theorem evictOldestHalf_of_lt (h : m.size < cap) : m.evictOldestHalf cap = ([], m) := if_pos h

theorem evictOldestHalf_of_le (h : cap ≤ m.size) :
    (m.evictOldestHalf cap).1 = m.keys.take ((m.size + 1) / 2) ∧
      (m.evictOldestHalf cap).2.entries = m.entries.drop ((m.size + 1) / 2) := by
  rw [evictOldestHalf, if_neg (Nat.not_lt.mpr h)]
  exact ⟨rfl, deleteAll_oldest m _⟩

/-- What was evicted and what was kept. -/
theorem size_evict_add (cap : Nat) (m : JsMap κ α) :
    (m.evictOldestHalf cap).2.size + (m.evictOldestHalf cap).1.length = m.size := by
  rcases Nat.lt_or_ge m.size cap with hlt | hge
  · rw [evictOldestHalf_of_lt hlt]
    rfl
  · obtain ⟨hkeys, hentries⟩ := evictOldestHalf_of_le hge
    rw [size, hentries, hkeys, List.length_drop, List.length_take, keys, List.length_map, size]
    omega

/-- Behind an eviction there is room for one more. -/
theorem size_evict_lt (hcap : 0 < cap) (h : m.size ≤ cap) : (m.evictOldestHalf cap).2.size < cap := by
  rcases Nat.lt_or_ge m.size cap with hlt | hge
  · rw [evictOldestHalf_of_lt hlt]
    exact hlt
  · obtain ⟨-, hentries⟩ := evictOldestHalf_of_le hge
    rw [size, hentries, List.length_drop, ← size]
    omega

theorem evictOldestHalf_snd (cap : Nat) (m : JsMap κ α) :
    (m.evictOldestHalf cap).2 = m.deleteAll (m.evictOldestHalf cap).1 := by
  rcases Nat.lt_or_ge m.size cap with hlt | hge
  · rw [evictOldestHalf_of_lt hlt]
    rfl
  · rw [evictOldestHalf, if_neg (Nat.not_lt.mpr hge)]

/-- Behind the eviction of the oldest entry there is room for one more. -/
theorem size_evictOldest_lt (hcap : 0 < cap) (h : m.size ≤ cap) : (m.evictOldest cap).size < cap := by
  unfold evictOldest
  split
  · assumption
  · next hfull =>
    have hone := congrArg List.length (deleteAll_oldest m 1)
    rw [List.length_drop] at hone
    unfold keys at hone ⊢
    cases hentries : m.entries with
    | nil =>
      rw [size, hentries] at hfull
      exact absurd hcap hfull
    | cons p l =>
      rw [hentries] at hone
      show (m.delete p.1).size < cap
      change (m.delete p.1).size = _ at hone
      rw [size, hentries, List.length_cons] at h
      rw [hone, List.length_cons]
      omega

theorem size_set_le : (m.set k v).size ≤ m.size + 1 := by
  by_cases hk : k ∈ m.keys
  · rw [size_set_of_mem hk]
    exact Nat.le_succ _
  · rw [size_set_of_not_mem hk]

/-- An eviction adds no key. -/
theorem not_mem_keys_evict (h : k ∉ m.keys) : k ∉ (m.evictOldestHalf cap).2.keys := by
  rw [← get?_eq_none_iff] at h ⊢
  rw [evictOldestHalf_snd, get?_deleteAll, h, ite_self]

/-- What is read behind an insertion. -/
theorem get?_insert : (m.insert cap k v).get? k' =
    if k' = k then some v else if k' ∈ (m.evictOldestHalf cap).1 then none else m.get? k' := by
  rw [insert, get?_set, evictOldestHalf_snd, get?_deleteAll]

/-- **An insertion keeps the bound.** -/
theorem size_insert_le (hcap : 0 < cap) (h : m.size ≤ cap) : (m.insert cap k v).size ≤ cap := by
  have hroom := size_evict_lt hcap h
  by_cases hk : k ∈ (m.evictOldestHalf cap).2.keys
  · rw [insert, size_set_of_mem hk]
    omega
  · rw [insert, size_set_of_not_mem hk]
    omega

/-- **No entry goes uncounted.** A new entry and those before it are kept or reported. -/
theorem size_insert_add (hk : k ∉ m.keys) :
    (m.insert cap k v).size + (m.evictOldestHalf cap).1.length = m.size + 1 := by
  rw [insert, size_set_of_not_mem (not_mem_keys_evict hk), Nat.add_right_comm, size_evict_add]

/-! ## Writing -/

variable {fresh : α} {next : α → α}

theorem size_put_le (hcap : 0 < cap) (h : m.size ≤ cap) : (m.put cap k fresh next).2.size ≤ cap := by
  unfold put
  split
  · exact size_insert_le hcap h
  · next hk =>
    rw [size_set_of_mem (mem_keys_of_get? hk)]
    exact h

/-- What is read behind a write that evicts nothing. -/
theorem get?_put (h : (m.put cap k fresh next).1 = 0) : (m.put cap k fresh next).2.get? k' =
    if k' = k then some ((m.get? k).elim fresh next) else m.get? k' := by
  unfold put at h ⊢
  cases hk : m.get? k with
  | none =>
    rw [hk] at h
    change (m.insert cap k fresh).get? k' = _
    rw [get?_insert, List.eq_nil_of_length_eq_zero h]
    simp
  | some v => exact get?_set

/-- A write to a map that is not full evicts nothing. -/
theorem put_evicts_none (h : m.size < cap) : (m.put cap k fresh next).1 = 0 := by
  unfold put
  cases m.get? k with
  | none => rw [evictOldestHalf_of_lt h]; rfl
  | some v => rfl

/-- A write makes an entry if there was none, and reports what it evicts. -/
theorem size_put_add : (m.put cap k fresh next).2.size + (m.put cap k fresh next).1 =
    m.size + if (m.get? k).isNone then 1 else 0 := by
  unfold put
  cases hk : m.get? k with
  | none => exact size_insert_add (get?_eq_none_iff.mp hk)
  | some v => exact congrArg (· + 0) (size_set_of_mem (mem_keys_of_get? hk))

/-! ## Values -/

theorem get?_map (f : α → β) : (m.map f).get? k = (m.get? k).map f := by
  change (m.entries.map fun p => (p.1, f p.2)).lookup k = (m.entries.lookup k).map f
  induction m.entries with
  | nil => rfl
  | cons p l ih =>
    obtain ⟨k', v'⟩ := p
    rw [List.map_cons, lookup_cons_eq, lookup_cons_eq, ih]
    split <;> rfl

omit [DecidableEq κ] in
theorem keys_map (f : α → β) : (m.map f).keys = m.keys := by
  rw [keys, map, List.map_map]
  rfl

omit [DecidableEq κ] in
theorem size_map (f : α → β) : (m.map f).size = m.size := List.length_map _

theorem map_set (f : α → β) : (m.set k v).map f = (m.map f).set k (f v) := by
  ext : 1
  change (setIn k v m.entries).map (fun p => (p.1, f p.2)) = setIn k (f v) (m.entries.map _)
  induction m.entries with
  | nil => rfl
  | cons p l ih =>
    rw [setIn, List.map_cons, setIn]
    split
    · rfl
    · rw [List.map_cons, ih]

theorem map_deleteAll (f : α → β) : (m.deleteAll ks).map f = (m.map f).deleteAll ks := by
  ext : 1
  rw [deleteAll_entries]
  change ((m.deleteAll ks).entries).map (fun p => (p.1, f p.2)) = (m.entries.map _).filter _
  rw [deleteAll_entries, List.filter_map]
  rfl

/-- Evicting does not look at the values. -/
theorem map_evict (f : α → β) :
    (m.map f).evictOldestHalf cap = ((m.evictOldestHalf cap).1, (m.evictOldestHalf cap).2.map f) := by
  unfold evictOldestHalf
  rw [size_map, keys_map]
  split
  · rfl
  · exact congrArg (Prod.mk _) (map_deleteAll f).symm

end

/-! ## What all entries have -/

/-- All entries of a map have a property. -/
def All (P : κ → α → Prop) (m : JsMap κ α) : Prop := ∀ k v, m.get? k = some v → P k v

section

variable {P : κ → α → Prop} {m : JsMap κ α} {k : κ} {v : α} {cap : Nat}

theorem all_empty : All P (empty : JsMap κ α) := by
  intro k v h
  cases h

theorem All.set (h : All P m) (hv : P k v) : All P (m.set k v) := by
  intro k' v' hget
  rw [get?_set] at hget
  split at hget
  · next hk =>
    obtain rfl := Option.some.inj hget
    exact hk ▸ hv
  · exact h k' v' hget

theorem All.delete (h : All P m) : All P (m.delete k) := by
  intro k' v' hget
  rw [get?_delete] at hget
  split at hget
  · cases hget
  · exact h k' v' hget

theorem All.evictOldest (h : All P m) : All P (m.evictOldest cap) := by
  unfold JsMap.evictOldest
  split
  · exact h
  · cases m.keys.head? with
    | none => exact h
    | some k => exact h.delete

theorem All.insert (h : All P m) (hv : P k v) : All P (m.insert cap k v) := by
  intro k' v' hget
  rw [get?_insert] at hget
  split at hget
  · next hk =>
    obtain rfl := Option.some.inj hget
    exact hk ▸ hv
  · split at hget
    · cases hget
    · exact h k' v' hget

end

end JsMap

end Castrum
