import Mathlib.Data.List.Basic
import Mathlib.Data.Option.Basic

/-!
# Castrum — segments behind a separator

A list of segments as one text, each segment behind a separator. A separator that belongs to a segment is
escaped, and so is the sign of an escape.

* `render` — the text of some segments;
* `parse` — the reader of such a text;
* `parse_eq_some_iff` — it reads from a text the segments that the text renders, and no others;
* `parse_eq_none_iff` — what it rejects.
-/

namespace Castrum

/-- A separator, the sign of an escape, and what stands behind the sign for either. -/
structure Escaping (α : Type) where
  sep : α
  esc : α
  sepCode : α
  escCode : α
  sep_ne_esc : sep ≠ esc
  codes_ne : sepCode ≠ escCode
  sepCode_ne : sepCode ≠ esc
  escCode_ne : escCode ≠ esc

namespace Escaping

variable {α : Type} [DecidableEq α] (e : Escaping α)

/-! ## Writing -/

def escape (seg : List α) : List α :=
  seg.flatMap fun c => if c = e.esc then [e.esc, e.escCode] else if c = e.sep then [e.esc, e.sepCode] else [c]

def render (segments : List (List α)) : List α := segments.flatMap fun seg => e.sep :: e.escape seg

/-! ## Reading -/

/-- The reader inside a segment, of which `cur` was read. -/
def read : List α → List α → List (List α) → Option (List (List α))
  | [], cur, segments => some (segments ++ [cur])
  | c :: rest, cur, segments =>
    if c = e.sep then read rest [] (segments ++ [cur])
    else if c = e.esc then
      match rest with
      | [] => none
      | code :: rest =>
        if code = e.escCode then read rest (cur ++ [e.esc]) segments
        else if code = e.sepCode then read rest (cur ++ [e.sep]) segments
        else none
    else read rest (cur ++ [c]) segments

def parse : List α → Option (List (List α))
  | [] => some []
  | c :: rest => if c = e.sep then e.read rest [] [] else none

variable {e} {c code : α} {rest cur seg s : List α} {segments out : List (List α)}

theorem read_sep : e.read (e.sep :: rest) cur segments = e.read rest [] (segments ++ [cur]) := by
  rw [read.eq_def]
  exact if_pos rfl

theorem read_escCode :
    e.read (e.esc :: e.escCode :: rest) cur segments = e.read rest (cur ++ [e.esc]) segments := by
  rw [read, if_neg e.sep_ne_esc.symm, if_pos rfl]
  exact if_pos rfl

theorem read_sepCode :
    e.read (e.esc :: e.sepCode :: rest) cur segments = e.read rest (cur ++ [e.sep]) segments := by
  rw [read, if_neg e.sep_ne_esc.symm, if_pos rfl]
  exact (if_neg e.codes_ne).trans (if_pos rfl)

/-- Nothing, or no code, behind the sign of an escape. -/
theorem read_dangling (hesc : rest.head? ≠ some e.escCode) (hsep : rest.head? ≠ some e.sepCode) :
    e.read (e.esc :: rest) cur segments = none := by
  cases rest with
  | nil => rw [read, if_neg e.sep_ne_esc.symm, if_pos rfl]
  | cons code rest =>
    rw [read, if_neg e.sep_ne_esc.symm, if_pos rfl]
    exact (if_neg fun h => hesc (congrArg some h)).trans (if_neg fun h => hsep (congrArg some h))

theorem read_plain (hsep : c ≠ e.sep) (hesc : c ≠ e.esc) :
    e.read (c :: rest) cur segments = e.read rest (cur ++ [c]) segments := by
  rw [read.eq_def]
  exact (if_neg hsep).trans (if_neg hesc)

/-- **The cases of a text inside a segment**, which are those of the reader. -/
theorem readCases (e : Escaping α) {motive : List α → Prop} (nil : motive [])
    (sep : ∀ rest, motive rest → motive (e.sep :: rest))
    (escCode : ∀ rest, motive rest → motive (e.esc :: e.escCode :: rest))
    (sepCode : ∀ rest, motive rest → motive (e.esc :: e.sepCode :: rest))
    (dangling : ∀ rest, rest.head? ≠ some e.escCode → rest.head? ≠ some e.sepCode →
      motive (e.esc :: rest))
    (plain : ∀ c rest, c ≠ e.sep → c ≠ e.esc → motive rest → motive (c :: rest)) :
    ∀ s, motive s
  | [] => nil
  | c :: rest => by
    by_cases hsep : c = e.sep
    · rw [hsep]
      exact sep rest (readCases e nil sep escCode sepCode dangling plain rest)
    by_cases hesc : c = e.esc
    · rw [hesc]
      -- the sign of an escape takes the next letter with it, when this is a code
      match rest with
      | [] => exact dangling [] (Option.some_ne_none _).symm (Option.some_ne_none _).symm
      | code :: rest =>
        by_cases hescCode : code = e.escCode
        · rw [hescCode]
          exact escCode rest (readCases e nil sep escCode sepCode dangling plain rest)
        by_cases hsepCode : code = e.sepCode
        · rw [hsepCode]
          exact sepCode rest (readCases e nil sep escCode sepCode dangling plain rest)
        · exact dangling _ (fun h => hescCode (Option.some.inj h)) fun h => hsepCode (Option.some.inj h)
    · exact plain c rest hsep hesc (readCases e nil sep escCode sepCode dangling plain rest)

/-! ## Reading what was written -/

theorem escape_cons : e.escape (c :: seg) =
    (if c = e.esc then [e.esc, e.escCode] else if c = e.sep then [e.esc, e.sepCode] else [c]) ++
      e.escape seg := rfl

theorem render_cons : e.render (seg :: segments) = e.sep :: (e.escape seg ++ e.render segments) := rfl

/-- An escaped segment is read to its end. -/
theorem read_escape : e.read (e.escape seg ++ rest) cur segments = e.read rest (cur ++ seg) segments := by
  induction seg generalizing cur with
  | nil => rw [List.append_nil, escape, List.flatMap_nil, List.nil_append]
  | cons c seg ih =>
    rw [escape_cons, List.append_assoc, List.append_cons cur c seg]
    by_cases hesc : c = e.esc
    · rw [if_pos hesc, hesc]
      exact read_escCode.trans ih
    by_cases hsep : c = e.sep
    · rw [if_neg hesc, if_pos hsep, hsep]
      exact read_sepCode.trans ih
    · rw [if_neg hesc, if_neg hsep]
      exact (read_plain hsep hesc).trans ih

/-- Different segments are escaped differently. -/
theorem escape_injective : Function.Injective e.escape := by
  intro seg seg' h
  have hread : ∀ seg, e.read (e.escape seg) [] [] = some [seg] := by
    intro seg
    rw [← List.append_nil (e.escape seg), read_escape, List.nil_append]
    rfl
  have hsame : some [seg] = some [seg'] := (hread seg).symm.trans (h ▸ hread seg')
  exact (List.cons.inj (Option.some.inj hsame)).1

theorem read_render :
    e.read (e.render out) cur segments = some (segments ++ cur :: out) := by
  induction out generalizing cur segments with
  | nil => rfl
  | cons seg out ih =>
    rw [render_cons, read_sep, read_escape, List.nil_append, ih, List.append_assoc, List.singleton_append]

/-- **What was written is read.** -/
theorem parse_render (segments : List (List α)) : e.parse (e.render segments) = some segments := by
  cases segments with
  | nil => rfl
  | cons seg segments =>
    rw [render_cons, parse, if_pos rfl, read_escape, read_render, List.nil_append, List.nil_append]

/-- What is read was written: the rest of a segment, and further ones. -/
theorem written_of_read (h : e.read rest cur segments = some out) :
    ∃ seg segments', rest = e.escape seg ++ e.render segments' ∧
      out = segments ++ (cur ++ seg) :: segments' := by
  induction rest using readCases e generalizing cur segments with
  | nil =>
    cases h
    exact ⟨[], [], rfl, by rw [List.append_nil]⟩
  | sep rest ih =>
    -- the segment at hand ends here: nothing of it is left, and a new one begins
    rw [read_sep] at h
    obtain ⟨seg, segments', hrest, rfl⟩ := ih h
    refine ⟨[], seg :: segments', ?_, ?_⟩
    · rw [hrest]
      rfl
    · rw [List.append_nil, List.append_assoc, List.nil_append, List.singleton_append]
  | escCode rest ih =>
    -- what stands for an escape or a separator goes to the front of the segment
    rw [read_escCode] at h
    obtain ⟨seg, segments', hrest, rfl⟩ := ih h
    refine ⟨e.esc :: seg, segments', ?_, by rw [List.append_assoc, List.singleton_append]⟩
    rw [hrest, escape_cons, if_pos rfl, List.append_assoc]
    rfl
  | sepCode rest ih =>
    rw [read_sepCode] at h
    obtain ⟨seg, segments', hrest, rfl⟩ := ih h
    refine ⟨e.sep :: seg, segments', ?_, by rw [List.append_assoc, List.singleton_append]⟩
    rw [hrest, escape_cons, if_neg e.sep_ne_esc, if_pos rfl, List.append_assoc]
    rfl
  | dangling rest hesc hsep =>
    rw [read_dangling hesc hsep] at h
    cases h
  | plain c rest hsep hesc ih =>
    rw [read_plain hsep hesc] at h
    obtain ⟨seg, segments', hrest, rfl⟩ := ih h
    refine ⟨c :: seg, segments', ?_, by rw [List.append_assoc, List.singleton_append]⟩
    rw [hrest, escape_cons, if_neg hesc, if_neg hsep, List.append_assoc]
    rfl

/-- **A text is read as the segments that it renders**, and as no others. -/
theorem parse_eq_some_iff : e.parse s = some segments ↔ s = e.render segments := by
  refine ⟨fun h => ?_, fun h => h ▸ parse_render segments⟩
  cases s with
  | nil =>
    cases h
    rfl
  | cons c rest =>
    rw [parse] at h
    split at h
    · next hsep =>
      obtain ⟨seg, segments', hrest, rfl⟩ := written_of_read h
      rw [hsep, hrest]
      rfl
    · cases h

/-! ## What is rejected -/

/-- A sign of an escape with no code behind it. -/
def Dangling (e : Escaping α) (s : List α) : Prop :=
  ∃ p q, s = p ++ e.esc :: q ∧ q.head? ≠ some e.escCode ∧ q.head? ≠ some e.sepCode

omit [DecidableEq α] in
theorem not_dangling_nil : ¬ e.Dangling [] := by
  rintro ⟨p, q, h, -⟩
  exact List.append_ne_nil_of_right_ne_nil p (List.cons_ne_nil _ q) h.symm

omit [DecidableEq α] in
theorem dangling_cons_iff (hc : c ≠ e.esc) : e.Dangling (c :: s) ↔ e.Dangling s := by
  constructor
  · rintro ⟨p, q, h, hq⟩
    cases p with
    | nil => exact absurd (List.cons.inj h).1 hc
    | cons d p => exact ⟨p, q, (List.cons.inj h).2, hq⟩
  · rintro ⟨p, q, rfl, hq⟩
    exact ⟨c :: p, q, rfl, hq⟩

omit [DecidableEq α] in
/-- A code is no sign of an escape itself. -/
theorem dangling_esc_iff (hcode : code = e.escCode ∨ code = e.sepCode) :
    e.Dangling (e.esc :: code :: s) ↔ e.Dangling s := by
  have hne : code ≠ e.esc := by
    rcases hcode with rfl | rfl
    · exact e.escCode_ne
    · exact e.sepCode_ne
  refine Iff.trans ?_ (dangling_cons_iff hne)
  constructor
  · rintro ⟨p, q, h, hesc, hsep⟩
    cases p with
    | nil =>
      cases (List.cons.inj h).2
      rcases hcode with rfl | rfl
      · exact absurd rfl hesc
      · exact absurd rfl hsep
    | cons d p => exact ⟨p, q, (List.cons.inj h).2, hesc, hsep⟩
  · rintro ⟨p, q, h, hq⟩
    exact ⟨e.esc :: p, q, congrArg (e.esc :: ·) h, hq⟩

theorem read_eq_none_iff : e.read rest cur segments = none ↔ e.Dangling rest := by
  induction rest using readCases e generalizing cur segments with
  | nil => exact iff_of_false (Option.some_ne_none _) not_dangling_nil
  | sep rest ih => rw [read_sep, ih, dangling_cons_iff e.sep_ne_esc]
  | escCode rest ih => rw [read_escCode, ih, dangling_esc_iff (.inl rfl)]
  | sepCode rest ih => rw [read_sepCode, ih, dangling_esc_iff (.inr rfl)]
  | dangling rest hesc hsep =>
    exact iff_of_true (read_dangling hesc hsep) ⟨[], rest, rfl, hesc, hsep⟩
  | plain c rest hsep hesc ih => rw [read_plain hsep hesc, ih, dangling_cons_iff hesc]

/-- **What is rejected**: a text that does not begin with a separator, or has an escape without a code. -/
theorem parse_eq_none_iff :
    e.parse s = none ↔ (s ≠ [] ∧ s.head? ≠ some e.sep) ∨ e.Dangling s := by
  cases s with
  | nil =>
    refine iff_of_false (Option.some_ne_none _) (not_or.mpr ⟨fun h => h.1 rfl, not_dangling_nil⟩)
  | cons c rest =>
    rw [parse]
    split
    · next hsep =>
      rw [read_eq_none_iff, hsep, dangling_cons_iff e.sep_ne_esc]
      exact (or_iff_right fun h => h.2 rfl).symm
    · next hsep =>
      exact iff_of_true rfl (.inl ⟨List.cons_ne_nil c rest, fun h => hsep (Option.some.inj h)⟩)

end Escaping

end Castrum
