import Castrum.Lib.Checked
import Castrum.Lib.Split
import Castrum.Util.Bytes

/-!
# Castrum — batches of hex strings (`rust/util/validation.rs`)

One verdict byte for each line of the input. A first attempt takes the input for lines of one width
and looks for a newline only where such a line would end; it gives up at the first other byte.

* `lines` / `lineVerdict` — the lines, and the verdict on one of them;
* `strideLoop_cases` — what the attempt comes to on an input of a fitting length;
* `lineByLine_iff` — when the batch gets the verdicts of its lines.

The attempt pushes each verdict as it goes and leaves them in `out` when it gives up, and a newline
inside a line of the assumed width goes unnoticed.
-/

namespace Castrum.HexBatch

/-! ## The checks of one line -/

def newline : UInt8 := 10

/-- `HEX_BATCH_MAX_WIDTH`. -/
def hexBatchMaxWidth : Nat := 4096

/-- `HEX_LUT`. -/
def hexLut (c : UInt8) : Bool :=
  (48 ≤ c && c ≤ 57) || (97 ≤ c && c ≤ 102) || (65 ≤ c && c ≤ 70)

/-- The byte of a verdict, `u8::from`. -/
def verdict (ok : Bool) : UInt8 := if ok then 1 else 0

/-- The verdict of `push_line_verdict`. -/
def lineVerdict (width : Nat) (line : Bytes) : UInt8 :=
  let line := if line.getLast? = some 13 then line.dropLast else line
  verdict (line.length == width && line.all hexLut)

def pushLineVerdict (line : Bytes) (width : Nat) (out : Bytes) : Bytes :=
  out ++ [lineVerdict width line]

/-! ## Lines of one width -/

/-- `needs_sep && input[end] != b'\n'`. -/
def deviates (input : Bytes) (needsSep : Bool) (stop : Nat) : Except (Failure String) Bool :=
  if needsSep then (orFail .panic input[stop]?).map (· != newline) else .ok false

/-- The loop of `try_uniform_stride`, `left` lines before its end. -/
def strideLoop (input : Bytes) (width n : Nat) (hasTrailing : Bool) :
    (left lineIdx pos : Nat) → Bytes → Except (Failure String) (Bool × Bytes)
  | 0, _, _, out => .ok (true, out)
  | left + 1, lineIdx, pos, out => do
    let stop := pos + width
    let needsSep := !(lineIdx + 1 == n && !hasTrailing)
    if ← deviates input needsSep stop then
      return (false, out)
    let line ← sliceOf input pos stop
    strideLoop input width n hasTrailing left (lineIdx + 1) (stop + 1)
      (out ++ [verdict (line.all hexLut)])

/-- Whether the layout was that of lines of one width, and `out` afterwards. -/
def tryUniformStride (input : Bytes) (width : Nat) (out : Bytes) :
    Except (Failure String) (Bool × Bytes) :=
  match input.getLast? with
  | none => .ok (true, out)
  | some last =>
    let stride := min (width + 1) (2 ^ 64 - 1)
    let hasTrailing := last == newline
    if hasTrailing then
      if input.length % stride ≠ 0 then .ok (false, out)
      else strideLoop input width (input.length / stride) true (input.length / stride) 0 0 out
    else if input.length % stride = width then
      strideLoop input width (input.length / stride + 1) false (input.length / stride + 1) 0 0 out
    else .ok (false, out)

/-! ## Line by line -/

/-- The search for newlines in `&input[start..]`. -/
def lineLoop (width : Nat) (rest out : Bytes) : Bytes :=
  match h : cutAt newline rest with
  | some (line, rest') =>
    have := length_behind_lt h
    lineLoop width rest' (pushLineVerdict line width out)
  | none => if rest = [] then out else pushLineVerdict rest width out
termination_by rest.length

def hexBatchValidInto (input : Bytes) (width : Nat) (out : Bytes) :
    Except (Failure String) Bytes := do
  if width = 0 ∨ hexBatchMaxWidth < width then
    throw (.fail "width must be 1..=4096")
  let (fast, out) ← tryUniformStride input width out
  return if fast then out else lineLoop width input out

def hexBatchCount (input : Bytes) : Nat :=
  let lines := input.count newline
  if input.getLast? = some newline then lines
  else lines + if input = [] then 0 else 1

/-! ## What the verdicts are about -/

/-- The lines; a newline at the end opens no further one. -/
def lines (input : Bytes) : List Bytes := pieces newline input

/-- A width that is not rejected. -/
abbrev Width : Type := { width : Nat // 0 < width ∧ width ≤ hexBatchMaxWidth }

/-- The batch appends the verdicts of its lines and as many as were announced, and the attempt
appends nothing when it gives up. -/
def LineByLine (input : Bytes) (width : Nat) (out : Bytes) : Prop :=
  hexBatchValidInto input width out = .ok (out ++ (lines input).map (lineVerdict width)) ∧
    (lines input).length = hexBatchCount input ∧
    ∀ out', tryUniformStride input width out = .ok (false, out') → out' = out

/-- The length is that of lines of this width. -/
def Fits (input : Bytes) (width : Nat) : Prop :=
  input ≠ [] ∧ (width + 1) ∣ (withoutFinal newline input).length + 1

/-- The separator of the first line is missing: the byte where it would stand is another one. -/
def FirstDeviates (input : Bytes) (width : Nat) : Prop :=
  ∃ c, input[width]? = some c ∧ c ≠ newline

/-! ## Lines -/

section

variable {input a b : Bytes} {line : Bytes} {c : UInt8} {width : Nat}

theorem pushLineVerdict_eq (out : Bytes) :
    pushLineVerdict line width out = out ++ [line].map (lineVerdict width) := rfl

/-- **The search for newlines** pushes the verdicts of the lines. -/
theorem lineLoop_eq (width : Nat) (input out : Bytes) :
    lineLoop width input out = out ++ (lines input).map (lineVerdict width) := by
  induction input using splitInduction newline generalizing out with
  | last p hp =>
    rw [lineLoop]
    split
    · next h => cases (cutAt_eq_none_iff.mpr hp).symm.trans h
    · by_cases hnil : p = []
      · rw [if_pos hnil, hnil, lines, pieces_nil, List.map_nil, List.append_nil]
      · rw [if_neg hnil, pushLineVerdict_eq, lines, pieces_of_not_mem hnil hp]
  | piece p q hp ih =>
    rw [lineLoop]
    split
    · next h =>
      cases h.symm.trans (cutAt_append hp q)
      rw [ih, pushLineVerdict_eq, List.append_assoc, ← List.map_append, lines, lines,
        pieces_append, List.splitOn_eq_singleton hp]
    · next h => cases h.symm.trans (cutAt_append hp q)

/-- **The announced number** is that of the lines. -/
theorem length_lines (input : Bytes) : (lines input).length = hexBatchCount input := by
  induction input using splitInduction newline with
  | last p hp =>
    have hlast : p.getLast? ≠ some newline := fun h => hp (List.mem_of_getLast? h)
    rw [hexBatchCount, if_neg hlast, List.count_eq_zero_of_not_mem hp]
    by_cases hnil : p = []
    · rw [if_pos hnil, hnil]
      rfl
    · rw [if_neg hnil, lines, pieces_of_not_mem hnil hp]
      rfl
  | piece p q hp ih =>
    rw [lines, pieces_append, List.length_append, ← lines, ih, List.splitOn_eq_singleton hp, hexBatchCount,
      hexBatchCount, List.count_append, List.count_eq_zero_of_not_mem hp, List.count_cons_self]
    by_cases hq : q = []
    · rw [hq, List.getLast?_concat]
      rfl
    · have hlast : (p ++ newline :: q).getLast? = q.getLast? := by
        rw [show p ++ newline :: q = (p ++ [newline]) ++ q by simp, List.getLast?_append_of_ne_nil _ hq]
      have hne : p ++ newline :: q ≠ [] := List.append_ne_nil_of_right_ne_nil p (List.cons_ne_nil _ _)
      rw [hlast, if_neg hq, if_neg hne]
      split <;> simp only [List.length_singleton] <;> omega

/-! ## The stride of a line and its separator -/

/-- A line with a newline in it has a shorter piece. -/
theorem exists_short (h : newline ∈ a) : ∃ p ∈ a.splitOn newline, p.length < a.length := by
  cases hcut : cutAt newline a with
  | none => exact absurd h (cutAt_eq_none_iff.mp hcut)
  | some cut =>
    obtain ⟨hnot, heq⟩ := cutAt_eq_some_iff.mp hcut
    refine ⟨cut.1, ?_, ?_⟩
    · rw [heq, List.splitOn_append_cons_self_of_not_mem hnot]
      exact List.mem_cons_self
    · rw [heq, List.length_append, List.length_cons]
      omega

/-- On a line of the width no carriage return makes a difference. -/
theorem lineVerdict_of_length (hlen : line.length = width) (hwidth : 0 < width) :
    lineVerdict width line = verdict (line.all hexLut) := by
  unfold lineVerdict
  split
  · next hlast =>
    show verdict (line.dropLast.length == width && line.dropLast.all hexLut) = _
    -- the return is no digit, and the line is too short without it
    have hmem : (13 : UInt8) ∈ line := List.mem_of_getLast? hlast
    have hall : line.all hexLut = false :=
      List.all_eq_false.mpr ⟨13, hmem, by decide⟩
    have hshort : (line.dropLast.length == width) = false := by
      rw [List.length_dropLast, beq_eq_false_iff_ne]
      omega
    rw [hshort, hall, Bool.false_and]
  · show verdict (line.length == width && line.all hexLut) = _
    rw [hlen, beq_self_eq_true, Bool.true_and]

/-- Behind a first line of the width stands a newline, or nothing. -/
theorem newline_of_forall (h : ∀ l ∈ a.splitOn newline, l.length = width) (hc : a[width]? = some c) :
    c = newline := by
  cases hcut : cutAt newline a with
  | none =>
    have hlen := h a (by
      rw [List.splitOn_eq_singleton (cutAt_eq_none_iff.mp hcut)]
      exact List.mem_singleton_self a)
    rw [← hlen, List.getElem?_length] at hc
    cases hc
  | some cut =>
    obtain ⟨hnot, heq⟩ := cutAt_eq_some_iff.mp hcut
    have hlen := h cut.1 (by
      rw [heq, List.splitOn_append_cons_self_of_not_mem hnot]
      exact List.mem_cons_self)
    rw [heq, ← hlen, List.getElem?_append_right (Nat.le_refl _), Nat.sub_self] at hc
    exact (Option.some.inj hc).symm

/-- As many bytes as the width: how many lines there are, and of which width. -/
theorem lines_last (ha : a.length = width) :
    ((a.splitOn newline).length = 1 ↔ ∀ l ∈ a.splitOn newline, l.length = width) ∧
      ((a.splitOn newline).length = 1 → a.splitOn newline = [a]) := by
  rw [length_splitOn a]
  by_cases hmem : newline ∈ a
  · have hpos := List.count_pos_iff.mpr hmem
    refine ⟨iff_of_false (by omega) fun hall => ?_, fun h => by omega⟩
    obtain ⟨p, hp, hlt⟩ := exists_short hmem
    have hlen := hall p hp
    omega
  · rw [List.count_eq_zero_of_not_mem hmem, List.splitOn_eq_singleton hmem,
      List.forall_mem_singleton]
    exact ⟨iff_of_true rfl ha, fun _ => rfl⟩

/-- One line of the width in front of the rest: how many lines there are, and of which width. -/
theorem lines_step {k : Nat} (ha : a.length = width) (hk : k ≤ (b.splitOn newline).length)
    (hiff : (b.splitOn newline).length = k ↔ ∀ l ∈ b.splitOn newline, l.length = width) :
    k + 1 ≤ ((a ++ newline :: b).splitOn newline).length ∧
      (((a ++ newline :: b).splitOn newline).length = k + 1 ↔
        ∀ l ∈ (a ++ newline :: b).splitOn newline, l.length = width) ∧
      (((a ++ newline :: b).splitOn newline).length = k + 1 →
        (a ++ newline :: b).splitOn newline = a :: b.splitOn newline ∧
          (b.splitOn newline).length = k) := by
  rw [List.splitOn_append_cons_self, List.length_append, length_splitOn a]
  by_cases hmem : newline ∈ a
  · have hpos := List.count_pos_iff.mpr hmem
    refine ⟨by omega, iff_of_false (by omega) fun hall => ?_, fun h => by omega⟩
    obtain ⟨p, hp, hlt⟩ := exists_short hmem
    have hlen := hall p (List.mem_append_left _ hp)
    omega
  · rw [List.count_eq_zero_of_not_mem hmem, List.splitOn_eq_singleton hmem]
    refine ⟨by omega, ?_, fun h => ⟨rfl, by omega⟩⟩
    rw [List.forall_mem_append, List.forall_mem_singleton, and_iff_right ha, ← hiff]
    omega

/-- A newline behind `width` bytes is the separator of the first line. -/
theorem not_firstDeviates (ha : a.length = width) : ¬ FirstDeviates (a ++ newline :: b) width := by
  rintro ⟨c, hc, hne⟩
  rw [← ha, List.getElem?_append_right (Nat.le_refl _), Nat.sub_self] at hc
  exact hne (Option.some.inj hc).symm

/-! ## Verdicts on lines of the width -/

/-- `n` verdicts `vs` on a text that may have more lines than that. They are right if it has not. -/
structure Accepts (width n : Nat) (text vs : Bytes) : Prop where
  length : vs.length = n
  le : n ≤ (text.splitOn newline).length
  count_iff : (text.splitOn newline).length = n ↔ ∀ l ∈ text.splitOn newline, l.length = width
  right : (text.splitOn newline).length = n → vs = (text.splitOn newline).map (lineVerdict width)
  first : ¬ FirstDeviates text width

/-- Verdicts `vs` before a byte that is no separator: none if it is that of the first line. -/
structure GivesUp (width : Nat) (text vs : Bytes) : Prop where
  nil_iff : vs = [] ↔ FirstDeviates text width
  not_all : ¬ ∀ l ∈ text.splitOn newline, l.length = width

variable {n : Nat} {vs : Bytes}

theorem Accepts.last (hwidth : 0 < width) (ha : a.length = width) :
    Accepts width 1 a [verdict (a.all hexLut)] := by
  obtain ⟨hiff, hone⟩ := lines_last ha
  refine ⟨rfl, ?_, hiff, fun h => ?_, ?_⟩
  · rw [length_splitOn]
    exact Nat.le_add_left _ _
  · rw [hone h, List.map_singleton, lineVerdict_of_length ha hwidth]
  · rintro ⟨c, hc, -⟩
    rw [← ha, List.getElem?_length] at hc
    cases hc

theorem Accepts.cons (hwidth : 0 < width) (ha : a.length = width) (h : Accepts width n b vs) :
    Accepts width (n + 1) (a ++ newline :: b) (verdict (a.all hexLut) :: vs) := by
  obtain ⟨hle, hiff, hsplit⟩ := lines_step ha h.le h.count_iff
  refine ⟨congrArg (· + 1) h.length, hle, hiff, fun hcount => ?_, not_firstDeviates ha⟩
  obtain ⟨hlines, hrest⟩ := hsplit hcount
  rw [hlines, List.map_cons, lineVerdict_of_length ha hwidth, h.right hrest]

theorem GivesUp.cons (ha : a.length = width) (h : GivesUp width b vs) (v : UInt8) :
    GivesUp width (a ++ newline :: b) (v :: vs) := by
  refine ⟨iff_of_false (List.cons_ne_nil v vs) (not_firstDeviates ha), fun hall => ?_⟩
  refine h.not_all fun l hl => hall l ?_
  rw [List.splitOn_append_cons_self]
  exact List.mem_append_right _ hl

theorem GivesUp.nil (hc : a[width]? = some c) (hne : c ≠ newline) : GivesUp width a [] :=
  ⟨iff_of_true rfl ⟨c, hc, hne⟩, fun hall => hne (newline_of_forall hall hc)⟩

end

/-! ## The attempt -/

section

variable {input out : Bytes} {width n lineIdx pos left : Nat} {hasTrailing : Bool}

/-- A line behind which nothing is required, or a newline stands. -/
theorem strideLoop_line (hroom : pos + width ≤ input.length)
    (hsep : (lineIdx + 1 = n ∧ hasTrailing = false) ∨ input[pos + width]? = some newline) :
    strideLoop input width n hasTrailing (left + 1) lineIdx pos out =
      strideLoop input width n hasTrailing left (lineIdx + 1) (pos + width + 1)
        (out ++ [verdict (((input.drop pos).take width).all hexLut)]) := by
  have hslice : (sliceOf input pos (pos + width) : Except (Failure String) Bytes) =
      .ok ((input.drop pos).take width) := by
    rw [sliceOf, if_pos ⟨Nat.le_add_right _ _, hroom⟩, List.take_drop, Nat.add_comm]
  have hnot : deviates input (!(lineIdx + 1 == n && !hasTrailing)) (pos + width) = .ok false := by
    unfold deviates
    rcases hsep with ⟨hlast, htrailing⟩ | hsep
    · rw [hlast, htrailing, beq_self_eq_true]
      rfl
    · rw [hsep]
      split <;> rfl
  rw [strideLoop, hnot, ok_bind, if_neg Bool.false_ne_true, hslice, ok_bind]

/-- Another byte where a newline is required. -/
theorem strideLoop_deviates {c : UInt8} (hn : lineIdx + 1 ≠ n) (hget : input[pos + width]? = some c)
    (hc : c ≠ newline) :
    strideLoop input width n hasTrailing (left + 1) lineIdx pos out = .ok (false, out) := by
  have hneeds : (!(lineIdx + 1 == n && !hasTrailing)) = true := by
    rw [beq_false_of_ne hn, Bool.false_and, Bool.not_false]
  have hdeviates : deviates input true (pos + width) = .ok true := by
    rw [deviates, if_pos rfl, hget, orFail_some, Except.map, bne_iff_ne.mpr hc]
  rw [strideLoop, hneeds, hdeviates, ok_bind, if_pos rfl]
  rfl

/-- **What the attempt comes to** from `left + 1` lines before its end: verdicts for all of them, or it
gives up. -/
theorem strideLoop_cases (hwidth : 0 < width) (b : Bytes)
    (hinput : input = b ++ if hasTrailing then [newline] else [])
    (hn : lineIdx + (left + 1) = n) (hlen : pos + (left + 1) * (width + 1) = b.length + 1)
    (out : Bytes) :
    (∃ vs, strideLoop input width n hasTrailing (left + 1) lineIdx pos out = .ok (true, out ++ vs) ∧
      Accepts width (left + 1) (b.drop pos) vs) ∨
    (∃ vs, strideLoop input width n hasTrailing (left + 1) lineIdx pos out = .ok (false, out ++ vs) ∧
      GivesUp width (b.drop pos) vs) := by
  -- on the lines that are left; each step puts one more line in front of what the rest comes to
  induction left generalizing lineIdx pos out with
  | zero =>
    left
    have hrest : (b.drop pos).length = width := by
      rw [List.length_drop]
      omega
    have hroom : pos + width = b.length := by omega
    have hline : (input.drop pos).take width = b.drop pos := by
      rw [hinput, List.drop_append_of_le_length (by omega), List.take_append_of_le_length (by omega),
        List.take_of_length_le (by omega)]
    have hsep : (lineIdx + 1 = n ∧ hasTrailing = false) ∨ input[pos + width]? = some newline := by
      cases hasTrailing with
      | false => exact .inl ⟨hn, rfl⟩
      | true =>
        right
        rw [hinput, hroom, List.getElem?_append_right (Nat.le_refl _), Nat.sub_self]
        rfl
    refine ⟨_, ?_, Accepts.last hwidth hrest⟩
    rw [strideLoop_line (by rw [hinput, List.length_append]; omega) hsep, hline, strideLoop]
  | succ left ih =>
    have hmul : (left + 1 + 1) * (width + 1) = (left + 1) * (width + 1) + (width + 1) :=
      Nat.succ_mul _ _
    have hpos : width + 1 ≤ (left + 1) * (width + 1) := Nat.le_mul_of_pos_left _ (Nat.succ_pos left)
    have hlt : pos + width < b.length := by omega
    obtain ⟨c, hc⟩ : ∃ c, b[pos + width]? = some c := ⟨_, List.getElem?_eq_getElem hlt⟩
    have hget : input[pos + width]? = some c := by
      rw [hinput, List.getElem?_append_left hlt, hc]
    by_cases hnewline : c = newline
    · subst hnewline
      obtain ⟨line, hline, hlength, hrest⟩ : ∃ line, (input.drop pos).take width = line ∧
          line.length = width ∧ b.drop pos = line ++ newline :: b.drop (pos + width + 1) := by
        refine ⟨(b.drop pos).take width, ?_, ?_, ?_⟩
        · rw [hinput, List.drop_append_of_le_length (by omega),
            List.take_append_of_le_length (by rw [List.length_drop]; omega)]
        · rw [List.length_take, List.length_drop]
          omega
        · conv_lhs => rw [← List.take_append_drop width (b.drop pos)]
          rw [List.drop_drop, List.drop_eq_getElem_cons hlt,
            Option.some.inj ((List.getElem?_eq_getElem hlt).symm.trans hc)]
      rw [strideLoop_line (by rw [hinput, List.length_append]; omega) (.inr hget), hline, hrest]
      rcases ih (show lineIdx + 1 + (left + 1) = n by omega)
          (show pos + width + 1 + (left + 1) * (width + 1) = b.length + 1 by omega)
          (out ++ [verdict (line.all hexLut)]) with
        ⟨vs, hloop, haccepts⟩ | ⟨vs, hloop, hgivesUp⟩
      · refine .inl ⟨_, ?_, haccepts.cons hwidth hlength⟩
        rw [hloop, List.append_assoc, List.singleton_append]
      · refine .inr ⟨_, ?_, hgivesUp.cons hlength (verdict (line.all hexLut))⟩
        rw [hloop, List.append_assoc, List.singleton_append]
    · -- another byte stands where the line would end
      have hget' : (b.drop pos)[width]? = some c := by
        rw [List.getElem?_drop, hc]
      refine .inr ⟨[], ?_, GivesUp.nil hget' hnewline⟩
      rw [strideLoop_deviates (by omega) hget hnewline, List.append_nil]

end

/-! ## The batch -/

theorem firstDeviates_withoutFinal (input : Bytes) (width : Nat) :
    FirstDeviates (withoutFinal newline input) width ↔ FirstDeviates input width := by
  refine ⟨fun ⟨c, hc, hne⟩ => ⟨c, ?_, hne⟩, fun ⟨c, hc, hne⟩ => ⟨c, ?_, hne⟩⟩
  · rw [withoutFinal_append_tail newline input, List.getElem?_append_left (List.getElem?_eq_some_iff.mp hc).1, hc]
  · rw [withoutFinal_append_tail newline input] at hc
    by_cases hlt : width < (withoutFinal newline input).length
    · rwa [List.getElem?_append_left hlt] at hc
    · rw [List.getElem?_append_right (Nat.not_lt.mp hlt)] at hc
      split at hc
      · have hmem := List.mem_of_getElem? hc
        exact absurd (List.mem_singleton.mp hmem) hne
      · rw [List.getElem?_nil] at hc
        cases hc

theorem length_withoutFinal {input : Bytes} {last : UInt8} (hlast : input.getLast? = some last) :
    (withoutFinal newline input).length = if last = newline then input.length - 1 else input.length := by
  rw [withoutFinal, hlast]
  simp only [Option.some.injEq]
  split
  · rw [List.length_dropLast]
  · rfl

theorem stride_eq (width : Width) : min (width.1 + 1) (2 ^ 64 - 1) = width.1 + 1 := by
  have hle := width.2.2
  unfold hexBatchMaxWidth at hle
  omega

/-- The two tests of the length. -/
theorem fits_iff {input : Bytes} (width : Width) {last : UInt8} (hlast : input.getLast? = some last) :
    Fits input width.1 ↔ if last = newline then input.length % (width.1 + 1) = 0
      else input.length % (width.1 + 1) = width.1 := by
  have hne : input ≠ [] := fun h => by rw [h] at hlast; cases hlast
  have hpos := List.length_pos_iff.mpr hne
  rw [Fits, and_iff_right hne, length_withoutFinal hlast]
  split
  · rw [Nat.sub_add_cancel hpos, Nat.dvd_iff_mod_eq_zero]
  · -- without a newline at the end the last line is one byte shorter than a stride
    have hlt : input.length % (width.1 + 1) < width.1 + 1 := Nat.mod_lt _ (Nat.succ_pos _)
    have hdvd : width.1 + 1 ∣ input.length + 1 ↔
        width.1 + 1 ∣ input.length % (width.1 + 1) + 1 := by
      conv_lhs => rw [← Nat.div_add_mod input.length (width.1 + 1), Nat.add_assoc]
      exact Nat.dvd_add_right (Nat.dvd_mul_right _ _)
    rw [hdvd]
    constructor
    · intro h
      have hle := Nat.le_of_dvd (Nat.succ_pos _) h
      omega
    · intro h
      rw [h]

/-- Any other length: the attempt gives up at once. -/
theorem tryUniformStride_of_not_fits {input : Bytes} (width : Width) (hne : input ≠ [])
    (h : ¬ Fits input width.1) (out : Bytes) :
    tryUniformStride input width.1 out = .ok (false, out) := by
  obtain ⟨last, hlast⟩ : ∃ last, input.getLast? = some last :=
    ⟨_, List.getLast?_eq_some_getLast hne⟩
  rw [fits_iff width hlast] at h
  simp only [tryUniformStride, hlast, stride_eq, beq_iff_eq]
  split
  · next heq => rw [if_pos heq] at h; rw [if_pos h]
  · next heq => rw [if_neg heq] at h; rw [if_neg h]

/-- A length that fits: the loop, for one line at least. -/
theorem tryUniformStride_of_fits {input : Bytes} (width : Width) (h : Fits input width.1)
    (out : Bytes) : ∃ left, (left + 1) * (width.1 + 1) = (withoutFinal newline input).length + 1 ∧
      tryUniformStride input width.1 out =
        strideLoop input width.1 (left + 1) (input.getLast? = some newline) (left + 1) 0 0 out := by
  have hne := h.1
  have hpos := List.length_pos_iff.mpr hne
  obtain ⟨last, hlast⟩ : ∃ last, input.getLast? = some last :=
    ⟨_, List.getLast?_eq_some_getLast hne⟩
  rw [fits_iff width hlast] at h
  have hbody := length_withoutFinal hlast
  have hdiv := Nat.div_add_mod input.length (width.1 + 1)
  simp only [tryUniformStride, hlast, stride_eq, beq_iff_eq, Option.some.injEq]
  by_cases heq : last = newline
  · rw [if_pos heq] at h hbody
    rw [if_pos heq, if_neg (not_not.mpr h)]
    -- no input of length 0 comes here, so that there is a first line
    obtain ⟨left, hleft⟩ : ∃ left, input.length / (width.1 + 1) = left + 1 := by
      refine ⟨input.length / (width.1 + 1) - 1, (Nat.sub_add_cancel ?_).symm⟩
      rw [Nat.one_le_iff_ne_zero]
      intro hzero
      rw [hzero, h] at hdiv
      omega
    refine ⟨left, ?_, ?_⟩
    · rw [hbody, ← hleft, Nat.mul_comm]
      omega
    · rw [hleft, decide_eq_true heq]
  · rw [if_neg heq] at h hbody
    rw [if_neg heq, if_pos h]
    refine ⟨input.length / (width.1 + 1), ?_, ?_⟩
    · rw [hbody, Nat.add_mul, Nat.mul_comm]
      omega
    · rw [decide_eq_false heq]

/-- The batch behind the attempt. -/
theorem hexBatchValidInto_eq {input out out' : Bytes} {fast : Bool} (width : Width)
    (h : tryUniformStride input width.1 out = .ok (fast, out')) :
    hexBatchValidInto input width.1 out =
      .ok (out' ++ if fast then [] else (lines input).map (lineVerdict width.1)) := by
  have hwidth : ¬ (width.1 = 0 ∨ hexBatchMaxWidth < width.1) :=
    not_or.mpr ⟨width.2.1.ne', Nat.not_lt.mpr width.2.2⟩
  rw [hexBatchValidInto, if_neg hwidth, h]
  cases fast with
  | true => exact congrArg Except.ok (List.append_nil _).symm
  | false => exact congrArg Except.ok (lineLoop_eq _ _ _)

theorem lines_of_ne_nil {input : Bytes} (hne : input ≠ []) :
    lines input = (withoutFinal newline input).splitOn newline := if_neg hne

/-- Verdicts that are not looked at again: they are right if all lines have the width. -/
theorem lineByLine_of_accepts {input vs out : Bytes} {n : Nat} (width : Width) (hne : input ≠ [])
    (htry : tryUniformStride input width.1 out = .ok (true, out ++ vs))
    (h : Accepts width.1 n (withoutFinal newline input) vs) :
    LineByLine input width.1 out ↔ ∀ line ∈ lines input, line.length = width.1 := by
  have hlines := lines_of_ne_nil hne
  have hcount := h.count_iff
  have hright := h.right
  have hle := h.le
  rw [← hlines] at hcount hright hle
  rw [← hcount, LineByLine, hexBatchValidInto_eq width htry, if_pos rfl, List.append_nil]
  constructor
  · intro hbatch
    have hlength := congrArg List.length (Except.ok.inj hbatch.1)
    rw [List.length_append, List.length_append, List.length_map, h.length] at hlength
    omega
  · intro hn
    refine ⟨by rw [← hright hn], length_lines input, fun out' hfalse => ?_⟩
    cases hfalse.symm.trans htry

/-- Verdicts before those of the lines: there are none if the first separator is missing. -/
theorem lineByLine_of_givesUp {input vs out : Bytes} (width : Width)
    (htry : tryUniformStride input width.1 out = .ok (false, out ++ vs))
    (h : GivesUp width.1 (withoutFinal newline input) vs) :
    LineByLine input width.1 out ↔ FirstDeviates input width.1 := by
  have hnil := h.nil_iff
  rw [firstDeviates_withoutFinal] at hnil
  rw [← hnil, LineByLine, hexBatchValidInto_eq width htry, if_neg Bool.false_ne_true]
  constructor
  · intro hbatch
    exact List.append_right_eq_self.mp (hbatch.2.2 _ htry)
  · intro hvs
    rw [hvs, List.append_nil] at htry ⊢
    refine ⟨rfl, length_lines input, fun out' hfalse => ?_⟩
    cases hfalse.symm.trans htry
    rfl

/-- **When the batch gets the verdicts of its lines**: when the length is not that of lines of this
width, when the first line has another one, and when all lines have it. -/
theorem lineByLine_iff (input : Bytes) (width : Width) (out : Bytes) :
    LineByLine input width.1 out ↔
      ¬ Fits input width.1 ∨ FirstDeviates input width.1 ∨
        ∀ line ∈ lines input, line.length = width.1 := by
  by_cases hne : input = []
  · subst hne
    have htry : tryUniformStride [] width.1 out = .ok (true, out) := rfl
    refine iff_of_true ⟨hexBatchValidInto_eq width htry, length_lines [], fun out' h => ?_⟩
      (.inl fun h => h.1 rfl)
    cases h
  -- where the length does not fit, the fast path is not taken at all
  by_cases hfits : Fits input width.1
  · rw [or_iff_right (not_not.mpr hfits)]
    obtain ⟨left, hlen, htry⟩ := tryUniformStride_of_fits width hfits out
    have hinput : input = withoutFinal newline input ++
        if decide (input.getLast? = some newline) then [newline] else [] := by
      simp only [decide_eq_true_eq]
      exact withoutFinal_append_tail newline input
    -- the attempt leaves verdicts for all lines, or for those before the one where it gave up
    rcases strideLoop_cases width.2.1 (withoutFinal newline input) hinput (Nat.zero_add _)
      ((Nat.zero_add _).trans hlen) out with ⟨vs, hloop, haccepts⟩ | ⟨vs, hloop, hgivesUp⟩
    · have hfirst := haccepts.first
      rw [List.drop_zero, firstDeviates_withoutFinal] at hfirst
      rw [or_iff_right hfirst]
      exact lineByLine_of_accepts width hne (htry.trans hloop) haccepts
    · have hall := hgivesUp.not_all
      rw [List.drop_zero, ← lines_of_ne_nil hne] at hall
      rw [or_iff_left hall]
      exact lineByLine_of_givesUp width (htry.trans hloop) hgivesUp
  · have htry := tryUniformStride_of_not_fits width hne hfits out
    refine iff_of_true ⟨hexBatchValidInto_eq width htry, length_lines input, fun out' h => ?_⟩ (.inl hfits)
    cases h.symm.trans htry
    rfl

/-- `a`, a newline, `b`, a newline: two lines of one byte, and one of three to the attempt; and three
lines that it gives up on in the second, behind a verdict on the first. -/
theorem lineByLine_inner_newline :
    hexBatchValidInto [97, 10, 98, 10] 3 [] = .ok [0] ∧ hexBatchCount [97, 10, 98, 10] = 2 ∧
      tryUniformStride [97, 98, 10, 97, 98, 99, 100, 101, 10] 2 [] = .ok (false, [1]) ∧
      ¬ LineByLine [97, 10, 98, 10] 3 [] ∧
      ¬ LineByLine [97, 98, 10, 97, 98, 99, 100, 101, 10] 2 [] := by
  have hone : hexBatchValidInto [97, 10, 98, 10] 3 [] = .ok [0] := by decide
  have htouched : tryUniformStride [97, 98, 10, 97, 98, 99, 100, 101, 10] 2 [] = .ok (false, [1]) := by
    decide
  refine ⟨hone, by decide, htouched, fun h => ?_, fun h => nomatch h.2.2 _ htouched⟩
  have hlength := congrArg List.length (Except.ok.inj (hone.symm.trans h.1))
  rw [List.length_append, List.length_map, h.2.1] at hlength
  exact absurd hlength (by decide)

end Castrum.HexBatch
