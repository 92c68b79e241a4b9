import Castrum.Lib.Split
import Castrum.Http.HttpDate

/-!
# Castrum — conditional requests (`rust/http/etag.rs`)

An `If-None-Match` header is taken apart at every comma, and each candidate is compared with the
current tag after `W/` is dropped on either side. An entity-tag may hold commas itself: such a tag
falls into fragments, none of which is an entity-tag.

* `etagWeakEq_iff` — weak equality, by what the tags are written like;
* `anyCandidate_renderTags` — a header is its tags, one after the other;
* `isNotModifiedCore_exact_iff` — when the answer is that of the listed tags.
-/

namespace Castrum

/-! ## The source functions -/

def stripWeak (tag : Bytes) : Bytes := if [87, 47].isPrefixOf tag then tag.drop 2 else tag

def etagWeakEq (a b : Bytes) : Bool :=
  stripWeak (trimAsciiWhitespace a) == stripWeak (trimAsciiWhitespace b)

/-- `If-None-Match` wins over `If-Modified-Since`. -/
def isNotModifiedCore (etagValue : Bytes) (lastModifiedSecs : Int)
    (ifNoneMatch ifModifiedSince : Option Bytes) : Except (Failure Unit) Bool :=
  match ifNoneMatch with
  | some inm =>
    let header := trimAsciiWhitespace inm
    if header = [42] then .ok true
    else .ok ((header.splitOn 44).any fun candidate => etagWeakEq candidate etagValue)
  | none =>
    match ifModifiedSince with
    | none => .ok false
    | some ims =>
      if 0 < lastModifiedSecs then
        match parseHttpDateSecs ims with
        | .ok secs => .ok (decide (lastModifiedSecs ≤ secs))
        | .error (.fail _) => .ok false
        | .error .panic => .error .panic
      else .ok false

/-! ## Entity-tags -/

/-- `etagc`: anything visible but a quote, and what is not ASCII. -/
def isEtagc (b : UInt8) : Bool := b == 33 || (35 ≤ b && b != 127)

structure EntityTag where
  weak : Bool
  content : Bytes
  etagc : ∀ b ∈ content, isEtagc b = true

namespace EntityTag

def opaqueTag (t : EntityTag) : Bytes := 34 :: t.content ++ [34]

def render (t : EntityTag) : Bytes := (if t.weak then [87, 47] else []) ++ t.opaqueTag

/-- The current tag, white space around it apart, is the same opaque tag, weak or strong. -/
def WeaklyEquals (t : EntityTag) (current : Bytes) : Prop :=
  trimAsciiWhitespace current = t.opaqueTag ∨ trimAsciiWhitespace current = 87 :: 47 :: t.opaqueTag

def HasComma (t : EntityTag) : Prop := 44 ∈ t.content

instance (t : EntityTag) : Decidable t.HasComma := inferInstanceAs (Decidable (_ ∈ _))

end EntityTag

inductive IfNoneMatch where
  /-- `*` -/
  | any
  | tags (ts : List EntityTag)

def renderTags : List EntityTag → Bytes
  | [] => []
  | t :: ts => t.render ++ ts.flatMap fun t => 44 :: 32 :: t.render

/-- What the tags with a comma fall into; no tag at all is an empty candidate. -/
def fragments : List EntityTag → List Bytes
  | [] => [[]]
  | t :: ts => ((t :: ts).filter fun t => decide t.HasComma).flatMap fun t => t.render.splitOn 44

namespace IfNoneMatch

def render : IfNoneMatch → Bytes
  | any => [42]
  | tags ts => renderTags ts

def Matches (current : Bytes) : IfNoneMatch → Prop
  | any => True
  | tags ts => ∃ t ∈ ts, t.WeaklyEquals current

/-- Either a tag without a comma is the current one, or neither a tag is nor a fragment. -/
def Exact (current : Bytes) : IfNoneMatch → Prop
  | any => True
  | tags ts => (∃ t ∈ ts, ¬ t.HasComma ∧ t.WeaklyEquals current) ∨
      (¬ ∃ t ∈ ts, t.WeaklyEquals current) ∧ ∀ p ∈ fragments ts, etagWeakEq p current = false

end IfNoneMatch

/-! ## Weak equality -/

theorem stripWeak_eq_iff {s tag : Bytes} (htag : tag.head? = some 34) :
    stripWeak s = tag ↔ s = tag ∨ s = 87 :: 47 :: tag := by
  unfold stripWeak
  split
  · next h =>
    obtain ⟨q, rfl⟩ := List.isPrefixOf_iff_prefix.mp h
    refine ⟨fun heq => .inr (heq ▸ rfl), ?_⟩
    rintro (rfl | heq)
    · cases htag
    · rw [heq]
      rfl
  · next h =>
    refine ⟨.inl, ?_⟩
    rintro (rfl | rfl)
    · rfl
    · exact absurd (List.isPrefixOf_iff_prefix.mpr ⟨tag, rfl⟩) h

theorem etagc_ne {b : UInt8} (h : isEtagc b = true) : isAsciiWhitespace b = false ∧ b ≠ 34 := by
  have key : ∀ b, isEtagc b = true → isAsciiWhitespace b = false ∧ b ≠ 34 :=
    forall_byte (by decide +kernel)
  exact key b h

namespace EntityTag

variable (t : EntityTag) {current : Bytes}

theorem render_not_space : ∀ b ∈ t.render, isAsciiWhitespace b = false := by
  have hprefix : ∀ b ∈ if t.weak then ([87, 47] : Bytes) else [], isAsciiWhitespace b = false := by
    cases t.weak <;> decide
  intro b hb
  rw [render, opaqueTag, List.mem_append, List.cons_append, List.mem_cons, List.mem_append,
    List.mem_singleton] at hb
  obtain hb | rfl | hb | rfl := hb
  · exact hprefix b hb
  · decide
  · exact (etagc_ne (t.etagc b hb)).1
  · decide

theorem stripWeak_render : stripWeak t.render = t.opaqueTag := by
  rw [stripWeak_eq_iff rfl, render]
  cases t.weak with
  | false => exact .inl rfl
  | true => exact .inr rfl

theorem etagWeakEq_iff : etagWeakEq t.render current = true ↔ t.WeaklyEquals current := by
  rw [etagWeakEq, beq_iff_eq, trimAsciiWhitespace_of_forall t.render_not_space, t.stripWeak_render,
    eq_comm, stripWeak_eq_iff rfl]
  rfl

theorem render_last : ∃ s, t.render = s ++ [34] :=
  ⟨(if t.weak then [87, 47] else []) ++ 34 :: t.content, (List.append_assoc _ _ _).symm⟩

theorem render_head : t.render.head? = some 87 ∨ t.render.head? = some 34 := by
  rw [render]
  cases t.weak with
  | true => exact .inl rfl
  | false => exact .inr rfl

end EntityTag

/-! ## The candidates of a header -/

section

variable {current : Bytes}

def anyCandidate (current s : Bytes) : Bool := (s.splitOn 44).any fun p => etagWeakEq p current

theorem anyCandidate_append (p q : Bytes) :
    anyCandidate current (p ++ 44 :: q) = (anyCandidate current p || anyCandidate current q) := by
  rw [anyCandidate, List.splitOn_append_cons_self, List.any_append]
  rfl

theorem anyCandidate_space (s : Bytes) : anyCandidate current (32 :: s) = anyCandidate current s := by
  have hspace : ∀ p, etagWeakEq (32 :: p) current = etagWeakEq p current := fun p => by
    rw [etagWeakEq, trimAsciiWhitespace_cons (by decide)]
    rfl
  rw [anyCandidate, anyCandidate, List.splitOn_cons_eq_if_modifyHead, if_neg (by decide)]
  cases s.splitOn 44 with
  | nil => rfl
  | cons p ps => rw [List.modifyHead_cons, List.any_cons, List.any_cons, hspace]

/-- **A header is its tags**, one after the other. -/
theorem anyCandidate_renderTags (t : EntityTag) (ts : List EntityTag) :
    anyCandidate current (renderTags (t :: ts)) =
      (t :: ts).any fun t => anyCandidate current t.render := by
  have hmore : ∀ (p : Bytes) (ts : List EntityTag),
      anyCandidate current (p ++ ts.flatMap fun t => 44 :: 32 :: t.render) =
        (anyCandidate current p || ts.any fun t => anyCandidate current t.render) := by
    intro p ts
    induction ts generalizing p with
    | nil => rw [List.flatMap_nil, List.append_nil, List.any_nil, Bool.or_false]
    | cons t ts ih =>
      rw [List.flatMap_cons, List.cons_append, anyCandidate_append, List.cons_append,
        anyCandidate_space, ih, List.any_cons]
  exact hmore t.render ts

/-- A tag without a comma is one candidate. -/
theorem anyCandidate_render {t : EntityTag} (ht : ¬ t.HasComma) :
    anyCandidate current t.render = etagWeakEq t.render current := by
  have hnot : 44 ∉ t.render := by
    rw [EntityTag.render, EntityTag.opaqueTag, List.mem_append, List.cons_append, List.mem_cons,
      List.mem_append, List.mem_singleton]
    rintro (h | h | h | h)
    · revert h
      cases t.weak <;> decide
    · cases h
    · exact ht h
    · cases h
  rw [anyCandidate, List.splitOn_eq_singleton hnot, List.any_cons, List.any_nil, Bool.or_false]

/-- A tag without a comma counts as it is, another one by its fragments. -/
theorem anyCandidate_tags (ts : List EntityTag) : anyCandidate current (renderTags ts) = true ↔
    (∃ t ∈ ts, ¬ t.HasComma ∧ t.WeaklyEquals current) ∨
      ∃ p ∈ fragments ts, etagWeakEq p current = true := by
  cases ts with
  | nil =>
    simp [anyCandidate, renderTags, fragments]
  | cons t ts =>
    rw [anyCandidate_renderTags, List.any_eq_true]
    constructor
    · rintro ⟨u, hu, h⟩
      by_cases hcomma : u.HasComma
      · obtain ⟨p, hp, heq⟩ := List.any_eq_true.mp h
        refine .inr ⟨p, List.mem_flatMap.mpr ⟨u, List.mem_filter.mpr ⟨hu, ?_⟩, hp⟩, heq⟩
        exact decide_eq_true hcomma
      · rw [anyCandidate_render hcomma, u.etagWeakEq_iff] at h
        exact .inl ⟨u, hu, hcomma, h⟩
    · rintro (⟨u, hu, hcomma, h⟩ | ⟨p, hp, h⟩)
      · refine ⟨u, hu, ?_⟩
        rwa [anyCandidate_render hcomma, u.etagWeakEq_iff]
      · obtain ⟨u, hu, hp⟩ := List.mem_flatMap.mp hp
        exact ⟨u, (List.mem_filter.mp hu).1, List.any_eq_true.mpr ⟨p, hp, h⟩⟩

end

/-- There is nothing to trim in a header, and it is not `*`. -/
theorem renderTags_header (ts : List EntityTag) :
    trimAsciiWhitespace (renderTags ts) = renderTags ts ∧ renderTags ts ≠ [42] := by
  cases ts with
  | nil => decide
  | cons t ts =>
    have hhead : (renderTags (t :: ts)).head? = some 87 ∨ (renderTags (t :: ts)).head? = some 34 := by
      have hne : t.render ≠ [] := fun h => by
        have := t.render_head
        rw [h] at this
        rcases this with h | h <;> cases h
      rw [renderTags, List.head?_append_of_ne_nil _ hne]
      exact t.render_head
    -- the last tag ends the header, and it ends with a quote
    have hlast : ∃ s, renderTags (t :: ts) = s ++ [34] := by
      rcases List.eq_nil_or_concat' ts with rfl | ⟨us, u, rfl⟩
      · obtain ⟨s, hs⟩ := t.render_last
        exact ⟨s, by rw [renderTags, List.flatMap_nil, List.append_nil, hs]⟩
      · obtain ⟨s, hs⟩ := u.render_last
        refine ⟨t.render ++ (us.flatMap fun t => 44 :: 32 :: t.render) ++ 44 :: 32 :: s, ?_⟩
        rw [renderTags, List.flatMap_append, List.flatMap_singleton, hs]
        simp
    obtain ⟨s, hs⟩ := hlast
    refine ⟨trimAsciiWhitespace_eq_self ?_ ?_, ?_⟩
    · rcases hhead with h | h <;> rw [h] <;> decide
    · rw [hs, List.getLast?_concat]
      decide
    · intro h
      rw [h] at hhead
      rcases hhead with h | h <;> cases h

/-- **What a header is evaluated to.** -/
theorem isNotModifiedCore_tags (ts : List EntityTag) (current : Bytes) (lastModifiedSecs : Int)
    (ifModifiedSince : Option Bytes) :
    isNotModifiedCore current lastModifiedSecs (some (renderTags ts)) ifModifiedSince =
      .ok (anyCandidate current (renderTags ts)) := by
  obtain ⟨htrim, hstar⟩ := renderTags_header ts
  unfold isNotModifiedCore
  simp only [htrim]
  exact if_neg hstar

/-- A fragment that is taken for the current tag is not taken for one with a comma. -/
theorem not_hasComma_of_fragment {current : Bytes} {ts : List EntityTag} {p : Bytes} (hp : p ∈ fragments ts)
    (heq : etagWeakEq p current = true) {t : EntityTag} (ht : t.WeaklyEquals current) :
    ¬ t.HasComma := by
  have hnot : 44 ∉ p := by
    cases ts with
    | nil => rw [List.mem_singleton.mp hp]; exact List.not_mem_nil
    | cons u us =>
      obtain ⟨v, -, hv⟩ := List.mem_flatMap.mp hp
      exact not_mem_of_mem_splitOn hv
  have hsub : (stripWeak (trimAsciiWhitespace p)).Sublist p := by
    unfold stripWeak
    split
    · exact (List.drop_sublist _ _).trans (trimAsciiWhitespace_sublist p)
    · exact trimAsciiWhitespace_sublist p
  rw [← t.etagWeakEq_iff, etagWeakEq, beq_iff_eq, trimAsciiWhitespace_of_forall t.render_not_space,
    t.stripWeak_render] at ht
  rw [etagWeakEq, beq_iff_eq, ← ht] at heq
  intro hcomma
  refine hnot (hsub.subset ?_)
  rw [heq, EntityTag.opaqueTag]
  exact List.mem_append_left _ (List.mem_cons_of_mem _ hcomma)

/-- **`If-None-Match` is evaluated exactly** but for the tags with a comma: one that is the current
tag is not found, and a fragment may be taken for it. -/
theorem isNotModifiedCore_exact_iff (h : IfNoneMatch) (current : Bytes) (lastModifiedSecs : Int)
    (ifModifiedSince : Option Bytes) :
    (isNotModifiedCore current lastModifiedSecs (some h.render) ifModifiedSince = .ok true ↔
      h.Matches current) ↔ h.Exact current := by
  cases h with
  | any => exact iff_of_true (iff_of_true rfl trivial) trivial
  | tags ts =>
    rw [IfNoneMatch.render, isNotModifiedCore_tags, Except.ok.injEq, anyCandidate_tags]
    unfold IfNoneMatch.Matches IfNoneMatch.Exact
    constructor
    · intro hiff
      by_cases hplain : ∃ t ∈ ts, ¬ t.HasComma ∧ t.WeaklyEquals current
      · exact .inl hplain
      -- a tag with a comma is listed only if a fragment is found, which is then no such tag
      have hnone : ¬ ∃ t ∈ ts, t.WeaklyEquals current := by
        rintro ⟨t, ht, heq⟩
        obtain h | ⟨p, hp, hfound⟩ := hiff.mpr ⟨t, ht, heq⟩
        · exact hplain h
        · exact hplain ⟨t, ht, not_hasComma_of_fragment hp hfound heq, heq⟩
      exact .inr ⟨hnone, fun p hp => Bool.eq_false_iff.mpr fun hfound =>
        hnone (hiff.mp (.inr ⟨p, hp, hfound⟩))⟩
    · rintro (⟨t, ht, hcomma, heq⟩ | ⟨hnone, hfragments⟩)
      · exact iff_of_true (.inl ⟨t, ht, hcomma, heq⟩) ⟨t, ht, heq⟩
      · refine iff_of_false ?_ hnone
        rintro (⟨t, ht, -, heq⟩ | ⟨p, hp, hfound⟩)
        · exact hnone ⟨t, ht, heq⟩
        · rw [hfragments p hp] at hfound
          cases hfound

/-- The header `"a,b"`, and the current tag `"a,b"`. -/
theorem isNotModifiedCore_comma :
    let t : EntityTag := ⟨false, utf8 "a,b", by decide⟩
    renderTags [t] = utf8 "\"a,b\"" ∧ t.WeaklyEquals (utf8 "\"a,b\"") ∧
      isNotModifiedCore (utf8 "\"a,b\"") 0 (some (renderTags [t])) none = .ok false := by
  exact ⟨by decide, .inl (by decide), by decide⟩

/-! ### Entity-tags as the current one -/

end Castrum
