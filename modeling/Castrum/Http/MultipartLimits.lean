import Castrum.Http.MultipartRender
import Mathlib.Logic.Relation

/-!
# Castrum — the limits of the multipart parser (`rust/http/multipart.rs`)

Four limits stand in the loop of the parser: the number of parts, the number of parts without a
filename, the data of one part, and the data of all of them. Each of them ends the loop. None looks at
the header of a part, however long it is. What the parser returns is compared with what it returns
under limits that the body is too short to reach.

* `PartsLoop.turn` — one turn of the loop;
* `PartsLoop.stops` — from every state the loop ends, with the parts of `blocksFrom`;
* `Totals.blocks_longest` — a stretch of the loop under two settings of the limits;
* `parseMultipartLimited_longest` — the longest list at the front that the limits have room for.
-/

namespace Castrum

open Ascii

/-! ## The loop -/

/-- `pos`, `total_data`, `field_count` and `parts`. -/
structure PartsLoop where
  pos : Nat
  totalData : Nat
  fieldCount : Nat
  parts : List Part
  deriving DecidableEq, Repr

namespace PartsLoop

variable (body boundary : Bytes) (limits : MultipartLimits)

/-- One turn, or a `break`. -/
def turn (s : PartsLoop) : Option PartsLoop :=
  match blockAt body boundary s.pos with
  | none => none
  | some b =>
    let part := b.part body
    if limits.maxParts ≤ s.parts.length then none
    else if part.filename = none ∧ limits.maxFieldCount ≤ s.fieldCount then none
    else if limits.maxPartBytes < part.data.length then none
    else if limits.maxTotalBytes < s.totalData + part.data.length then none
    else some {
      pos := b.dataEnd + 2 + 2 + boundary.length
      totalData := s.totalData + part.data.length
      fieldCount := if part.filename = none then s.fieldCount + 1 else s.fieldCount
      parts := s.parts ++ [part] }

/-- The turns up to a state. -/
def Turns : PartsLoop → PartsLoop → Prop :=
  Relation.ReflTransGen fun s s' => s.turn body boundary limits = some s'

variable {body boundary : Bytes} {limits : MultipartLimits}

/-- A turn leaves a shorter rest of the body. -/
theorem turn_pos {s s' : PartsLoop} (h : s.turn body boundary limits = some s') :
    s.pos < s'.pos ∧ s.pos < body.length := by
  unfold turn at h
  split at h
  · cases h
  · next b hb =>
    obtain ⟨hstart, horder, hdata, hend, hbody⟩ := blockAt_bounds hb
    dsimp only at h
    -- each limit that is passed is a `break`
    split at h
    · cases h
    split at h
    · cases h
    split at h
    · cases h
    split at h
    · cases h
    obtain rfl := Option.some.inj h
    dsimp only
    omega

/-- The parts that the rest of the loop adds. -/
def left (body boundary : Bytes) (limits : MultipartLimits) (s : PartsLoop) : List Part :=
  (blocksFrom body boundary limits s.pos s.totalData s.fieldCount s.parts.length).map (·.part body)

theorem left_of_turn_none {s : PartsLoop} (h : s.turn body boundary limits = none) :
    s.left body boundary limits = [] := by
  rw [left, blocksFrom]
  unfold turn at h
  split
  · rfl
  · next b hb =>
    rw [hb] at h
    dsimp only at h ⊢
    split at h
    · next hparts => rw [if_pos hparts, List.map_nil]
    next hparts =>
    rw [if_neg hparts]
    split at h
    · next hfields => rw [if_pos hfields, List.map_nil]
    next hfields =>
    rw [if_neg hfields]
    split at h
    · next hpart => rw [if_pos hpart, List.map_nil]
    next hpart =>
    rw [if_neg hpart]
    split at h
    · next htotal => rw [if_pos htotal, List.map_nil]
    · cases h

theorem left_of_turn {s s' : PartsLoop} (h : s.turn body boundary limits = some s') :
    ∃ part, s'.parts = s.parts ++ [part] ∧
      s.left body boundary limits = part :: s'.left body boundary limits := by
  rw [left, blocksFrom]
  unfold turn at h
  split
  · next hnone =>
    rw [hnone] at h
    cases h
  · next b hb =>
    rw [hb] at h
    dsimp only at h ⊢
    split at h
    · cases h
    next hparts =>
    split at h
    · cases h
    next hfields =>
    split at h
    · cases h
    next hpart =>
    split at h
    · cases h
    next htotal =>
    obtain rfl := Option.some.inj h
    refine ⟨b.part body, rfl, ?_⟩
    rw [if_neg hparts, if_neg hfields, if_neg hpart, if_neg htotal, List.map_cons, left,
      List.length_append, List.length_singleton]

/-- **The loop ends**, from every state, with the parts it had and those of the rest. Induction on
the rest of the body. -/
theorem stops (s : PartsLoop) : ∃ stop, Turns body boundary limits s stop ∧
    stop.turn body boundary limits = none ∧
      stop.parts = s.parts ++ s.left body boundary limits := by
  induction hn : body.length - s.pos using Nat.strong_induction_on generalizing s with
  | h n ih =>
    cases hturn : s.turn body boundary limits with
    | none =>
      refine ⟨s, .refl, hturn, ?_⟩
      rw [left_of_turn_none hturn, List.append_nil]
    | some s' =>
      obtain ⟨hlt, hbody⟩ := turn_pos hturn
      obtain ⟨part, hparts, hleft⟩ := left_of_turn hturn
      obtain ⟨stop, hturns, hstop, hend⟩ := ih (body.length - s'.pos) (by omega) s' rfl
      refine ⟨stop, .head hturn hturns, hstop, ?_⟩
      rw [hend, hparts, hleft, List.append_assoc, List.singleton_append]

end PartsLoop

/-! ## The longest list at the front -/

/-- It stands at the front, has the property, and whatever else does is at the front of it. -/
structure Longest {α : Type} (P : List α → Prop) (xs all : List α) : Prop where
  front : xs <+: all
  holds : P xs
  longest : ∀ zs, zs <+: all → P zs → zs <+: xs

section

variable {α : Type} {P Q : List α → Prop} {x : α} {xs all : List α}

theorem Longest.nil (hnil : P []) (h : ∀ x zs, x :: zs <+: all → ¬ P (x :: zs)) :
    Longest P [] all := by
  refine ⟨List.nil_prefix, hnil, fun zs hzs hP => ?_⟩
  cases zs with
  | nil => exact List.nil_prefix
  | cons x zs => exact absurd hP (h x zs hzs)

theorem Longest.cons (hcons : ∀ zs, P (x :: zs) ↔ Q zs) (h : Longest Q xs all) :
    Longest P (x :: xs) (x :: all) := by
  refine ⟨List.cons_prefix_cons.mpr ⟨rfl, h.front⟩, (hcons xs).mpr h.holds, fun zs hzs hP => ?_⟩
  cases zs with
  | nil => exact List.nil_prefix
  | cons y zs =>
    obtain ⟨rfl, hbehind⟩ := List.cons_prefix_cons.mp hzs
    exact List.cons_prefix_cons.mpr ⟨rfl, h.longest zs hbehind ((hcons zs).mp hP)⟩

end

/-! ## Limits that are not reached -/

/-- Limits that a body of this length is too short to reach. -/
structure MultipartLimits.Unreached (limits : MultipartLimits) (body : Bytes) : Prop where
  parts : body.length ≤ limits.maxParts
  fields : body.length ≤ limits.maxFieldCount
  part : body.length ≤ limits.maxPartBytes
  total : body.length ≤ limits.maxTotalBytes

/-- The least of them. -/
def MultipartLimits.unreached (body : Bytes) : MultipartLimits where
  maxParts := body.length
  maxFieldCount := body.length
  maxPartBytes := body.length
  maxTotalBytes := body.length

theorem MultipartLimits.unreached_unreached (body : Bytes) :
    (MultipartLimits.unreached body).Unreached body :=
  ⟨Nat.le_refl _, Nat.le_refl _, Nat.le_refl _, Nat.le_refl _⟩

/-- What was counted lies in front of the position. -/
structure Totals.Behind (t : Totals) (pos : Nat) : Prop where
  count : t.count ≤ pos
  fields : t.fieldCount ≤ pos
  total : t.totalData ≤ pos

section

variable {body boundary : Bytes} {limits free : MultipartLimits} {pos : Nat} {t : Totals}
  {header data rest : Bytes}

theorem Totals.Behind.admits (ht : t.Behind pos)
    (h : IsPart boundary (body.drop pos) header data rest) (hfree : free.Unreached body) :
    t.Admits free header data := by
  obtain ⟨hstart, horder, hdata, hend, hbody⟩ :=
    blockAt_bounds (blockAt_eq_some_iff.mpr ⟨header, data, rest, h, rfl⟩)
  have hlength : (blockOf pos header data).dataEnd = pos + 2 + header.length + 4 + data.length := rfl
  obtain ⟨hparts, hfields, hpart, htotal⟩ := hfree
  obtain ⟨hcount, hplain, hall⟩ := ht
  exact ⟨by omega, fun _ => by omega, by omega, by omega⟩

theorem Totals.Behind.add (ht : t.Behind pos) (header data boundary : Bytes) :
    (t.add header data).Behind ((blockOf pos header data).dataEnd + 2 + 2 + boundary.length) := by
  have hlength : (blockOf pos header data).dataEnd = pos + 2 + header.length + 4 + data.length := rfl
  obtain ⟨hcount, hplain, hall⟩ := ht
  refine ⟨?_, ?_, ?_⟩
  · show t.count + 1 ≤ _
    omega
  · unfold Totals.add
    dsimp only
    split <;> omega
  · show t.totalData + data.length ≤ _
    omega

/-- The part that stands behind a position. -/
theorem IsPart.part_eq (h : IsPart boundary (body.drop pos) header data rest) :
    (parseHeader header).filename = ((blockOf pos header data).part body).filename ∧
      ((blockOf pos header data).part body).data = data := by
  refine ⟨?_, h.data_eq⟩
  rw [Block.part, h.header_eq]

/-- **A stretch of the loop under two settings of the limits**, one of which is not reached. The
loops part where the first limit is. -/
theorem Totals.blocks_longest (hfree : free.Unreached body) (hfit : t.Fit limits [])
    (ht : t.Behind pos) :
    Longest (t.Fit limits) ((t.blocks body boundary limits pos).map (·.part body))
      ((t.blocks body boundary free pos).map (·.part body)) := by
  induction t, pos using Totals.blocks_induction body boundary limits with
  | stop t pos hstop =>
    -- a longer list begins with the part that stopped the loop
    rw [Totals.blocks_of_stop hstop]
    refine .nil hfit fun p zs hzs hp => ?_
    cases hb : blockAt body boundary pos with
    | none =>
      rw [Totals.blocks_of_none hb] at hzs
      exact absurd hzs.length_le (Nat.not_succ_le_zero _)
    | some b =>
      obtain ⟨header, data, rest, h, rfl⟩ := blockAt_eq_some_iff.mp hb
      rw [Totals.blocks_of_admits h (ht.admits h hfree), List.map_cons] at hzs
      obtain ⟨rfl, -⟩ := List.cons_prefix_cons.mp hzs
      obtain ⟨hadmits, -⟩ := (Totals.fit_cons_iff h.part_eq.1).mp hp
      rw [h.part_eq.2] at hadmits
      exact hstop header data rest h hadmits
  | take t pos header data rest h hadmits ih =>
    -- the part counts in the totals, and the rest has to fit what they leave
    have hcons : ∀ zs, t.Fit limits ((blockOf pos header data).part body :: zs) ↔
        (t.add header data).Fit limits zs := by
      intro zs
      rw [Totals.fit_cons_iff h.part_eq.1, h.part_eq.2]
      exact and_iff_right hadmits
    have hnext : (t.add header data).Fit limits [] := by
      refine ⟨hadmits.parts, ?_, fun p hp => absurd hp List.not_mem_nil, hadmits.total⟩
      unfold Totals.add
      dsimp only
      split
      · next hnone => exact hadmits.fields hnone
      · exact hfit.fields
    rw [Totals.blocks_of_admits h hadmits, Totals.blocks_of_admits h (ht.admits h hfree),
      List.map_cons, List.map_cons]
    exact (ih hnext (ht.add header data boundary)).cons hcons

end

/-! ## The parser -/

/-- The limits have room for a list of parts: their number, the number of those without a filename,
the data of each, and the data of all. -/
structure MultipartLimits.Hold (limits : MultipartLimits) (parts : List Part) : Prop where
  count : parts.length ≤ limits.maxParts
  fields : (parts.filter fun p => p.filename.isNone).length ≤ limits.maxFieldCount
  each : ∀ p ∈ parts, p.data.length ≤ limits.maxPartBytes
  total : (parts.map fun p => p.data.length).sum ≤ limits.maxTotalBytes

theorem Totals.fit_zero_iff {limits : MultipartLimits} {parts : List Part} :
    Totals.zero.Fit limits parts ↔ limits.Hold parts := by
  constructor
  · rintro ⟨hall, hfields, heach, htotal⟩
    rw [show Totals.zero.count = 0 from rfl, Nat.zero_add] at hall
    rw [show Totals.zero.fieldCount = 0 from rfl, Nat.zero_add] at hfields
    rw [show Totals.zero.totalData = 0 from rfl, Nat.zero_add] at htotal
    exact ⟨hall, hfields, heach, htotal⟩
  · rintro ⟨hall, hfields, heach, htotal⟩
    refine ⟨?_, ?_, heach, ?_⟩
    · rwa [show Totals.zero.count = 0 from rfl, Nat.zero_add]
    · rwa [show Totals.zero.fieldCount = 0 from rfl, Nat.zero_add]
    · rwa [show Totals.zero.totalData = 0 from rfl, Nat.zero_add]

theorem MultipartLimits.hold_nil (limits : MultipartLimits) : limits.Hold [] :=
  ⟨Nat.zero_le _, Nat.zero_le _, fun _ hp => absurd hp List.not_mem_nil, Nat.zero_le _⟩

theorem parseMultipartLimited_longest_of_unreached (body boundary : Bytes) (limits : MultipartLimits)
    {free : MultipartLimits} (hfree : free.Unreached body) :
    Longest limits.Hold (parseMultipartLimited body boundary limits)
      (parseMultipartLimited body boundary free) := by
  have hP : Totals.zero.Fit limits = limits.Hold := funext fun parts => propext Totals.fit_zero_iff
  rw [parseMultipartLimited, parseMultipartLimited]
  by_cases hopen : boundary ≠ [] ∧ ∃ rest, body = [minus, minus] ++ (boundary ++ rest)
  · obtain ⟨hne, rest, rfl⟩ := hopen
    rw [multipartBlocks_of_opening hne, multipartBlocks_of_opening hne, ← hP]
    apply Totals.blocks_longest hfree (Totals.fit_zero_iff.mpr limits.hold_nil)
    exact ⟨Nat.zero_le _, Nat.zero_le _, Nat.zero_le _⟩
  · rw [multipartBlocks_eq_nil _ hopen, multipartBlocks_eq_nil _ hopen]
    exact .nil limits.hold_nil fun p zs hzs => absurd hzs.length_le (Nat.not_succ_le_zero _)

/-- **Limits only cut off.** Under any limits the parser returns the longest list at the front of the
parts that it returns under limits that are not reached, for which the limits have room; all limits
that are not reached are the same; and from every state its loop ends, with the parts of the rest. -/
theorem parseMultipartLimited_longest (body boundary : Bytes) (limits : MultipartLimits) :
    Longest limits.Hold (parseMultipartLimited body boundary limits)
      (parseMultipartLimited body boundary (.unreached body)) ∧
    (∀ free : MultipartLimits, free.Unreached body → parseMultipartLimited body boundary free =
      parseMultipartLimited body boundary (.unreached body)) ∧
    (∀ s : PartsLoop, ∃ stop, PartsLoop.Turns body boundary limits s stop ∧
      stop.turn body boundary limits = none ∧
        stop.parts = s.parts ++ s.left body boundary limits) := by
  refine ⟨?_, fun free hfree => ?_, PartsLoop.stops⟩
  · exact parseMultipartLimited_longest_of_unreached body boundary limits
      (MultipartLimits.unreached_unreached body)
  · -- each of the two lists is at the front of the other
    have hfront := (parseMultipartLimited_longest_of_unreached body boundary free
      (MultipartLimits.unreached_unreached body)).front
    have hback := (parseMultipartLimited_longest_of_unreached body boundary (.unreached body)
      hfree).front
    exact hfront.eq_of_length_le hback.length_le

/-! ## The header is not limited, the fields are -/

/-- A file and a field, whose headers have the same length. -/
def shortFile : Part :=
  { name := utf8 "a", filename := some [], contentType := none, data := utf8 "x" }

def longField : Part :=
  { name := utf8 "abcdefghijklmn", filename := none, contentType := none, data := utf8 "x" }

def noFields : MultipartLimits :=
  { maxParts := 1, maxFieldCount := 0, maxPartBytes := 1, maxTotalBytes := 1 }

theorem shortFile_renders : ∀ p ∈ [shortFile], p.Renders (utf8 "B") := by
  refine List.forall_mem_cons.mpr ⟨⟨memmem_eq_none_iff.mp (by decide), ?_, ?_, ?_⟩,
    List.forall_mem_nil _⟩
  all_goals decide

theorem longField_renders : ∀ p ∈ [longField], p.Renders (utf8 "B") := by
  refine List.forall_mem_cons.mpr ⟨⟨memmem_eq_none_iff.mp (by decide), ?_, ?_, ?_⟩,
    List.forall_mem_nil _⟩
  all_goals decide

/-- Two bodies of one part each, of the same header length and the same data: under the same limits
the file is returned and the field is not. -/
theorem parseMultipartLimited_counts_fields :
    (headerText shortFile).length = (headerText longField).length ∧
      shortFile.data = longField.data ∧
      parseMultipartLimited (renderMultipart (utf8 "B") [shortFile]) (utf8 "B") noFields =
        [shortFile] ∧
      parseMultipartLimited (renderMultipart (utf8 "B") [longField]) (utf8 "B") .default =
        [longField] ∧
      parseMultipartLimited (renderMultipart (utf8 "B") [longField]) (utf8 "B") noFields = [] := by
  have hdefault : parseMultipartLimited (renderMultipart (utf8 "B") [longField]) (utf8 "B") .default =
      [longField] := by
    rw [parseMultipartLimited, map_part_renderMultipart (by decide) (by decide) longField_renders
      ⟨by decide, by decide, by decide, by decide⟩]
    decide
  refine ⟨by decide, rfl, ?_, hdefault, ?_⟩
  · rw [parseMultipartLimited, map_part_renderMultipart (by decide) (by decide) shortFile_renders
      ⟨by decide, by decide, by decide, by decide⟩]
    decide
  · have hlongest := parseMultipartLimited_longest_of_unreached
      (renderMultipart (utf8 "B") [longField]) (utf8 "B") noFields
      (show MultipartLimits.default.Unreached _ from
        ⟨by decide, by decide, by decide, by decide⟩)
    rw [hdefault] at hlongest
    rcases List.prefix_cons_iff.mp hlongest.front with hnil | ⟨parts, hparts, -⟩
    · exact hnil
    · -- the field is one too many
      have hfields := hlongest.holds.fields
      rw [hparts, List.filter_cons_of_pos rfl] at hfields
      exact absurd hfields (Nat.not_succ_le_zero _)

end Castrum
