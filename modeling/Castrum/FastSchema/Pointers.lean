import Castrum.FastSchema.Draft7
import Castrum.Json.Pointer

/-!
# Castrum — JSON pointers into a schema

The pointer index `collect_refs` builds holds what RFC 6901 evaluation gives: an entry of the index
is a value the pointer leads to, and in a schema whose keys are unique a pointer leads to one value
only.

* `Points.eq` — a pointer leads to at most one value;
* `points_of_mem_refIndex` — the index is sound.
-/

namespace Castrum

/-! ## Tokens -/

theorem slash_not_mem_escapePointer (s : Bytes) : (47 : UInt8) ∉ escapePointer s := by
  intro h
  obtain ⟨b, -, hb⟩ := List.mem_flatMap.mp h
  split at hb
  · simp at hb
  · split at hb
    · simp at hb
    · next hne =>
      rw [List.mem_singleton] at hb
      exact hne hb.symm

/-- The tokens are those that the patch engine reads. -/
theorem escapePointer_eq (s : Bytes) : escapePointer s = JsonPatch.rfc6901Bytes.escape s := rfl

theorem escapePointer_injective {s t : Bytes} (h : escapePointer s = escapePointer t) : s = t := by
  rw [escapePointer_eq, escapePointer_eq] at h
  exact Escaping.escape_injective h

/-! ## Pointers -/

theorem uniqueKeys_of_mem_items {items : List Value} (h : uniqueKeysItems items) {v : Value}
    (hv : v ∈ items) : v.UniqueKeys := by
  induction items with
  | nil => exact absurd hv (by simp)
  | cons x xs ih =>
    rcases List.mem_cons.mp hv with rfl | hv
    · exact h.1
    · exact ih h.2 hv

theorem uniqueKeys_of_mem_members {ms : SchemaMap} (h : uniqueKeysMembers ms) {m : Bytes × Value}
    (hm : m ∈ ms) : m.2.UniqueKeys := by
  induction ms with
  | nil => exact absurd hm (by simp)
  | cons x xs ih =>
    rcases List.mem_cons.mp hm with rfl | hm
    · exact h.1
    · exact ih h.2 hm

theorem Step.uniqueKeys {v w : Value} {tok : Bytes} (h : Step v tok w) (hv : v.UniqueKeys) :
    w.UniqueKeys := by
  cases h with
  | member hmem => exact uniqueKeys_of_mem_members hv.2 hmem
  | element hi => exact uniqueKeys_of_mem_items hv (List.mem_of_getElem? hi)

theorem Points.uniqueKeys {v u : Value} {p : Bytes} (h : Points v p u) (hv : v.UniqueKeys) :
    u.UniqueKeys := by
  induction h with
  | here => exact hv
  | step hs _ ih => exact ih (hs.uniqueKeys hv)

theorem Step.slash_not_mem {v w : Value} {tok : Bytes} (h : Step v tok w) : (47 : UInt8) ∉ tok := by
  cases h with
  | member => exact slash_not_mem_escapePointer _
  | element => exact slash_not_mem_decimal _

theorem eq_of_mem_of_nodup {ms : SchemaMap} (h : (ms.map Prod.fst).Nodup) {k : Bytes} {v w : Value}
    (hv : (k, v) ∈ ms) (hw : (k, w) ∈ ms) : v = w := by
  induction ms with
  | nil => exact absurd hv (by simp)
  | cons x xs ih =>
    rw [List.map_cons, List.nodup_cons] at h
    have hne : ∀ u, (k, u) ∈ xs → x.1 ≠ k := by
      rintro u hu rfl
      exact h.1 (List.mem_map.mpr ⟨_, hu, rfl⟩)
    rcases List.mem_cons.mp hv with hv | hv <;> rcases List.mem_cons.mp hw with hw | hw
    · rw [← hv] at hw
      exact ((Prod.mk.inj hw).2).symm
    · exact absurd (by rw [← hv]) (hne w hw)
    · exact absurd (by rw [← hw]) (hne v hv)
    · exact ih h.2 hv hw

theorem Step.eq {v w w' : Value} {tok tok' : Bytes} (h : Step v tok w) (hv : v.UniqueKeys)
    (h' : Step v tok' w') (htok : tok = tok') : w = w' := by
  cases h with
  | member hmem =>
    cases h' with
    | member hmem' =>
      rw [escapePointer_injective htok] at hmem
      exact eq_of_mem_of_nodup hv.1 hmem hmem'
  | element hi =>
    cases h' with
    | element hi' =>
      rw [decimal_injective htok, hi'] at hi
      exact (Option.some.inj hi).symm

/-- A token ends at the next slash. -/
theorem token_eq {tok tok' rest rest' : Bytes} (h : (47 : UInt8) ∉ tok) (h' : (47 : UInt8) ∉ tok')
    (hr : rest = [] ∨ rest.head? = some 47) (hr' : rest' = [] ∨ rest'.head? = some 47)
    (heq : tok ++ rest = tok' ++ rest') : tok = tok' ∧ rest = rest' := by
  induction tok generalizing tok' with
  | nil =>
    cases tok' with
    | nil => exact ⟨rfl, heq⟩
    | cons b tok' =>
      rw [List.nil_append] at heq
      rcases hr with rfl | hr
      · simp at heq
      · rw [heq, List.cons_append, List.head?_cons, Option.some.injEq] at hr
        exact absurd (by rw [hr]; simp) h'
  | cons a tok ih =>
    cases tok' with
    | nil =>
      rw [List.nil_append] at heq
      rcases hr' with rfl | hr'
      · simp at heq
      · rw [← heq, List.cons_append, List.head?_cons, Option.some.injEq] at hr'
        exact absurd (by rw [hr']; simp) h
    | cons b tok' =>
      rw [List.cons_append, List.cons_append, List.cons.injEq] at heq
      obtain ⟨h1, h2⟩ := ih (fun hm => h (List.mem_cons_of_mem _ hm))
        (fun hm => h' (List.mem_cons_of_mem _ hm)) heq.2
      exact ⟨by rw [heq.1, h1], h2⟩

theorem Points.head {v u : Value} {p : Bytes} (h : Points v p u) : p = [] ∨ p.head? = some 47 := by
  cases h with
  | here => exact .inl rfl
  | step => exact .inr rfl

/-- **A pointer leads to at most one value.** -/
theorem Points.eq {v u u' : Value} {p p' : Bytes} (h : Points v p u) (hv : v.UniqueKeys)
    (h' : Points v p' u') (hp : p = p') : u = u' := by
  induction h generalizing p' u' with
  | here =>
    cases h' with
    | here => rfl
    | step => cases hp
  | step hs hrest ih =>
    cases h' with
    | here => cases hp
    | step hs' hrest' =>
      obtain ⟨htok, hr⟩ := token_eq hs.slash_not_mem hs'.slash_not_mem hrest.head hrest'.head
        (List.cons.inj hp).2
      obtain rfl := hs.eq hv hs' htok
      exact ih (hs.uniqueKeys hv) hrest' hr

/-! ## The index -/

mutual

theorem mem_collectRefs (v : Value) (ptr : Bytes) {e : Bytes × Value} (h : e ∈ collectRefs v ptr) :
    ∃ q, e.1 = ptr ++ q ∧ Points v q e.2 := by
  match v with
  | .object map =>
    rw [collectRefs] at h
    rcases List.mem_append.mp h with h | h
    · split at h
      · exact absurd h (by simp)
      · rw [List.mem_singleton.mp h]
        exact ⟨[], by simp, .here _⟩
    · obtain ⟨m, hm, q, hq, hp⟩ := mem_collectMembers map ptr h
      exact ⟨_, hq, .step (.member (k := m.1) hm) hp⟩
  | .bool b =>
    rw [collectRefs] at h
    split at h
    · exact absurd h (by simp)
    · rw [List.mem_singleton.mp h]
      exact ⟨[], by simp, .here _⟩
  | .array items =>
    rw [collectRefs] at h
    obtain ⟨i, w, hi, q, hq, hp⟩ := mem_collectItems items 0 ptr h
    refine ⟨_, hq, .step (.element (i := 0 + i) ?_) hp⟩
    rwa [Nat.zero_add]
  | .null => exact absurd h (by simp [collectRefs])
  | .number n => exact absurd h (by simp [collectRefs])
  | .string s => exact absurd h (by simp [collectRefs])

theorem mem_collectMembers (ms : SchemaMap) (ptr : Bytes) {e : Bytes × Value}
    (h : e ∈ collectMembers ms ptr) :
    ∃ m ∈ ms, ∃ q, e.1 = ptr ++ 47 :: (escapePointer m.1 ++ q) ∧ Points m.2 q e.2 := by
  match ms with
  | [] => exact absurd h (by simp [collectMembers])
  | (k, v) :: ms =>
    rw [collectMembers] at h
    rcases List.mem_append.mp h with h | h
    · obtain ⟨q, hq, hp⟩ := mem_collectRefs v _ h
      exact ⟨(k, v), by simp, q, by rw [hq]; simp, hp⟩
    · obtain ⟨m, hm, q, hq, hp⟩ := mem_collectMembers ms ptr h
      exact ⟨m, List.mem_cons_of_mem _ hm, q, hq, hp⟩

theorem mem_collectItems (items : List Value) (i : Nat) (ptr : Bytes) {e : Bytes × Value}
    (h : e ∈ collectItems items i ptr) :
    ∃ j w, items[j]? = some w ∧ ∃ q, e.1 = ptr ++ 47 :: (decimal (i + j) ++ q) ∧
      Points w q e.2 := by
  match items with
  | [] => exact absurd h (by simp [collectItems])
  | v :: vs =>
    rw [collectItems] at h
    rcases List.mem_append.mp h with h | h
    · obtain ⟨q, hq, hp⟩ := mem_collectRefs v _ h
      exact ⟨0, v, rfl, q, by rw [hq]; simp, hp⟩
    · obtain ⟨j, w, hj, q, hq, hp⟩ := mem_collectItems vs (i + 1) ptr h
      refine ⟨j + 1, w, hj, q, ?_, hp⟩
      rw [hq, show i + 1 + j = i + (j + 1) by omega]

end

/-- **The pointer index is sound.** -/
theorem points_of_mem_refIndex {root u : Value} {p : Bytes} (h : (p, u) ∈ refIndex root) :
    Points root p u := by
  rw [refIndex, List.mem_reverse] at h
  rcases List.mem_cons.mp h with h | h
  · cases h
    exact .here root
  · obtain ⟨q, hq, hp⟩ := mem_collectRefs root [] h
    rw [List.nil_append] at hq
    change p = q at hq
    rw [hq]
    exact hp

theorem points_of_lookup_refIndex {root u : Value} {p : Bytes}
    (h : (refIndex root).lookup p = some u) : Points root p u := by
  obtain ⟨xs, ys, heq, -⟩ := List.lookup_eq_some_iff.mp h
  exact points_of_mem_refIndex (by rw [heq]; simp)

end Castrum
