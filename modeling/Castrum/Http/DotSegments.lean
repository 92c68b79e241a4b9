import Castrum.Http.UrlJoin

/-!
# Castrum — dot segments (`rust/http/url_join.rs`)

`remove_dot_segments` names the algorithm of RFC 3986, section 5.2.4, and computes it on a stack of
segments. The algorithm itself rewrites an input buffer and moves segments to an output buffer. A dot
segment at the end leaves its slash in the input there, and so an empty segment in the output; on the
stack it leaves nothing.

* `Rfc3986.turn` / `Rfc3986.run` — the algorithm as it is written;
* `Rfc3986.run_slashed` — the algorithm by segments;
* `removeDotSegments_idempotent` — the stack needs no second pass;
* `removeDotSegments_rfc_iff` — exactly when the two agree.
-/

namespace Castrum

/-! ## The algorithm -/

namespace Rfc3986

/-- "Remove the last segment and its preceding `/` (if any) from the output buffer." -/
def dropLastSegment (output : Str) : Str := (output.reverse.dropWhile (· ≠ '/')).tail.reverse

/-- One turn of step 2, on the input and the output buffer. -/
def turn (input output : Str) : Str × Str :=
  -- 2A
  if ['.', '.', '/'] <+: input then (input.drop 3, output)
  else if ['.', '/'] <+: input then (input.drop 2, output)
  -- 2B
  else if ['/', '.', '/'] <+: input then ('/' :: input.drop 3, output)
  else if input = ['/', '.'] then (['/'], output)
  -- 2C
  else if ['/', '.', '.', '/'] <+: input then ('/' :: input.drop 4, dropLastSegment output)
  else if input = ['/', '.', '.'] then (['/'], dropLastSegment output)
  -- 2D
  else if input = ['.'] ∨ input = ['.', '.'] then ([], output)
  -- 2E: the first segment, with the slash in front of it
  else ((input.drop 1).dropWhile (· ≠ '/'),
    output ++ (input.take 1 ++ (input.drop 1).takeWhile (· ≠ '/')))

/-- Each turn shortens the input. -/
theorem length_turn {input : Str} (h : input ≠ []) (output : Str) :
    (turn input output).1.length < input.length := by
  have hpos := List.length_pos_iff.mpr h
  unfold turn
  -- One case for each rule, A to E, in their order.
  split
  · rw [List.length_drop]
    omega
  split
  · rw [List.length_drop]
    omega
  split
  · next hpre =>
    have hlen := hpre.length_le
    simp only [List.length_cons, List.length_nil, List.length_drop] at hlen ⊢
    omega
  split
  · next heq =>
    rw [heq]
    exact Nat.lt_succ_self 1
  split
  · next hpre =>
    have hlen := hpre.length_le
    simp only [List.length_cons, List.length_nil, List.length_drop] at hlen ⊢
    omega
  split
  · next heq =>
    rw [heq]
    show 1 < 3
    decide
  split
  · exact hpos
  · have hle := (List.dropWhile_sublist (l := input.drop 1) (· ≠ '/')).length_le
    rw [List.length_drop] at hle
    show ((input.drop 1).dropWhile (· ≠ '/')).length < _
    omega

/-- Step 2, until the input is empty. -/
def run (input output : Str) : Str :=
  if h : input = [] then output
  else
    have := length_turn h output
    run (turn input output).1 (turn input output).2
termination_by input.length

def removeDotSegments (path : Str) : Str := run path []

end Rfc3986

/-! ## Paths by their segments -/

/-- Segments, each behind a slash. -/
def slashed (segs : List Str) : Str := segs.flatMap fun seg => '/' :: seg

theorem slashed_cons (seg : Str) (segs : List Str) :
    slashed (seg :: segs) = '/' :: (seg ++ slashed segs) := rfl

theorem slashed_concat (segs : List Str) (seg : Str) :
    slashed (segs ++ [seg]) = slashed segs ++ '/' :: seg := by
  rw [slashed, List.flatMap_append, List.flatMap_singleton]
  rfl

theorem slashed_eq {segs : List Str} (h : segs ≠ []) :
    slashed segs = '/' :: ['/'].intercalate segs := by
  induction segs with
  | nil => exact absurd rfl h
  | cons seg segs ih =>
    cases segs with
    | nil =>
      rw [slashed_cons, List.intercalate_singleton]
      exact congrArg _ (List.append_nil seg)
    | cons next segs =>
      rw [slashed_cons, ih (List.cons_ne_nil _ _), List.intercalate_cons_cons, List.append_assoc]
      rfl

/-- A path that begins with the slash is its segments. -/
theorem slashed_splitOn (rest : Str) : slashed (rest.splitOn '/') = '/' :: rest := by
  rw [slashed_eq (List.splitOn_ne_nil _ _), List.intercalate_splitOn]

theorem ne_slash_of_not_mem {p : Str} (hp : '/' ∉ p) : ∀ c ∈ p, decide (c ≠ '/') = true := by
  intro c hc
  simpa using fun heq : c = '/' => hp (heq ▸ hc)

section

variable {seg : Str} {segs stack : List Str}

/-- What is behind a segment is empty or begins with a slash. -/
theorem takeWhile_segment (hseg : '/' ∉ seg) (segs : List Str) :
    (seg ++ slashed segs).takeWhile (· ≠ '/') = seg ∧
      (seg ++ slashed segs).dropWhile (· ≠ '/') = slashed segs := by
  have hall := ne_slash_of_not_mem hseg
  rw [List.takeWhile_append_of_pos hall, List.dropWhile_append_of_pos hall]
  cases segs with
  | nil => exact ⟨List.append_nil seg, rfl⟩
  | cons next segs => exact ⟨List.append_nil seg, rfl⟩

/-- A complete segment at the front is the first one. -/
theorem prefix_segment_iff (hseg : '/' ∉ seg) {p : Str} (hp : '/' ∉ p) :
    p ++ ['/'] <+: seg ++ slashed segs ↔ seg = p ∧ segs ≠ [] := by
  constructor
  · rintro ⟨behind, h⟩
    rw [List.append_assoc, List.singleton_append] at h
    have hfirst : seg = p := by
      rw [← (takeWhile_segment hseg segs).1, ← h,
        List.takeWhile_append_of_pos (ne_slash_of_not_mem hp)]
      exact List.append_nil p
    refine ⟨hfirst, ?_⟩
    rintro rfl
    rw [hfirst] at h
    exact absurd (List.append_cancel_left h) (List.cons_ne_nil _ _)
  · rintro ⟨rfl, hne⟩
    rw [slashed_eq hne]
    exact ⟨['/'].intercalate segs, by rw [List.append_assoc]; rfl⟩

theorem segment_eq_iff {p : Str} (hp : '/' ∉ p) :
    seg ++ slashed segs = p ↔ seg = p ∧ segs = [] := by
  constructor
  · intro h
    cases segs with
    | nil => exact ⟨by rwa [show slashed [] = [] from rfl, List.append_nil] at h, rfl⟩
    | cons next segs =>
      rw [← h] at hp
      exact absurd (List.mem_append_right _ List.mem_cons_self) hp
  · rintro ⟨rfl, rfl⟩
    exact List.append_nil seg

/-- The last segment of the output and its slash. -/
theorem dropLastSegment_slashed (hstack : ∀ seg ∈ stack, '/' ∉ seg) :
    Rfc3986.dropLastSegment (slashed stack) = slashed stack.dropLast := by
  rcases List.eq_nil_or_concat' stack with rfl | ⟨front, seg, rfl⟩
  · rfl
  · have hseg : '/' ∉ seg := hstack seg (List.mem_append_right _ List.mem_cons_self)
    have hall := ne_slash_of_not_mem fun hslash => hseg (List.mem_reverse.mp hslash)
    rw [slashed_concat, List.dropLast_concat, Rfc3986.dropLastSegment, List.reverse_append,
      List.reverse_cons, List.append_assoc, List.dropWhile_append_of_pos hall]
    exact List.reverse_reverse (slashed front)

end

/-! ## The algorithm by segments -/

def IsDots (seg : Str) : Prop := seg = ['.'] ∨ seg = ['.', '.']

instance (seg : Str) : Decidable (IsDots seg) := inferInstanceAs (Decidable (_ ∨ _))

/-- The last segment is a dot segment. -/
def endsInDots (segs : List Str) : Bool := segs.getLast?.any fun seg => IsDots seg

/-- How many ordinary segments are left open. -/
def depth (segs : List Str) : Nat :=
  segs.foldl (fun n seg => if seg = ['.'] then n else if seg = ['.', '.'] then n - 1 else n + 1) 0

namespace Rfc3986

variable {seg : Str} {segs stack : List Str}

/-- **One turn** takes the first segment, and does with it what the stack does. A dot segment leaves a
slash behind if it is the last. -/
theorem turn_slashed (hseg : '/' ∉ seg) (hstack : ∀ seg ∈ stack, '/' ∉ seg) (segs : List Str) :
    turn (slashed (seg :: segs)) (slashed stack) =
      (if IsDots seg ∧ segs = [] then ['/'] else slashed segs,
        slashed (pushSegment stack seg)) := by
  have hdot : ['/', '.', '/'] <+: slashed (seg :: segs) ↔ seg = ['.'] ∧ segs ≠ [] := by
    rw [slashed_cons, List.cons_prefix_cons, and_iff_right rfl]
    exact prefix_segment_iff hseg (p := ['.']) (by decide)
  have hdots : ['/', '.', '.', '/'] <+: slashed (seg :: segs) ↔
      seg = ['.', '.'] ∧ segs ≠ [] := by
    rw [slashed_cons, List.cons_prefix_cons, and_iff_right rfl]
    exact prefix_segment_iff hseg (p := ['.', '.']) (by decide)
  have hlastDot : slashed (seg :: segs) = ['/', '.'] ↔ seg = ['.'] ∧ segs = [] := by
    rw [slashed_cons, List.cons_inj_right]
    exact segment_eq_iff (by decide)
  have hlastDots : slashed (seg :: segs) = ['/', '.', '.'] ↔ seg = ['.', '.'] ∧ segs = [] := by
    rw [slashed_cons, List.cons_inj_right]
    exact segment_eq_iff (by decide)
  have hup : ¬ ['.', '.', '/'] <+: slashed (seg :: segs) := by
    rw [slashed_cons, List.cons_prefix_cons]
    exact fun h => absurd h.1 (by decide)
  have hhere : ¬ ['.', '/'] <+: slashed (seg :: segs) := by
    rw [slashed_cons, List.cons_prefix_cons]
    exact fun h => absurd h.1 (by decide)
  rw [turn, if_neg hup, if_neg hhere]
  by_cases hone : seg = ['.']
  · rw [pushSegment, if_pos hone]
    by_cases hsegs : segs = []
    · rw [if_neg fun h => (hdot.mp h).2 hsegs, if_pos (hlastDot.mpr ⟨hone, hsegs⟩),
        if_pos ⟨.inl hone, hsegs⟩]
    · rw [if_pos (hdot.mpr ⟨hone, hsegs⟩), if_neg fun h => hsegs h.2, slashed_cons, hone,
        slashed_eq hsegs]
      rfl
  rw [if_neg fun h => hone (hdot.mp h).1, if_neg fun h => hone (hlastDot.mp h).1]
  by_cases htwo : seg = ['.', '.']
  · rw [pushSegment, if_neg hone, if_pos htwo, dropLastSegment_slashed hstack]
    by_cases hsegs : segs = []
    · rw [if_neg fun h => (hdots.mp h).2 hsegs, if_pos (hlastDots.mpr ⟨htwo, hsegs⟩),
        if_pos ⟨.inr htwo, hsegs⟩]
    · rw [if_pos (hdots.mpr ⟨htwo, hsegs⟩), if_neg fun h => hsegs h.2, slashed_cons, htwo,
        slashed_eq hsegs]
      rfl
  -- an ordinary segment
  have hslash : ¬ (slashed (seg :: segs) = ['.'] ∨ slashed (seg :: segs) = ['.', '.']) := by
    rw [slashed_cons]
    rintro (h | h)
    · exact absurd (List.head_eq_of_cons_eq h) (by decide)
    · exact absurd (List.head_eq_of_cons_eq h) (by decide)
  obtain ⟨htake, hdrop⟩ := takeWhile_segment hseg segs
  rw [if_neg fun h => htwo (hdots.mp h).1, if_neg fun h => htwo (hlastDots.mp h).1, if_neg hslash,
    if_neg fun h => h.1.elim hone htwo, pushSegment, if_neg hone, if_neg htwo, slashed_concat,
    slashed_cons]
  show ((seg ++ slashed segs).dropWhile _, _ ++ (['/'] ++ (seg ++ slashed segs).takeWhile _)) = _
  rw [htake, hdrop]
  rfl

theorem run_of_ne {input : Str} (h : input ≠ []) (output : Str) :
    run input output = run (turn input output).1 (turn input output).2 := by
  conv_lhs => rw [run]
  exact dif_neg h

theorem run_nil (output : Str) : run [] output = output := by
  rw [run]
  exact dif_pos rfl

theorem turn_slash (output : Str) : turn ['/'] output = ([], output ++ ['/']) := rfl

theorem mem_pushSegment {s : Str} (h : s ∈ pushSegment stack seg) : s ∈ stack ∨ s = seg := by
  unfold pushSegment at h
  split at h
  · exact .inl h
  split at h
  · exact .inl (List.dropLast_subset _ h)
  · rcases List.mem_append.mp h with h | h
    · exact .inl h
    · exact .inr (List.mem_singleton.mp h)

/-- **The algorithm by segments**: the stack, and an empty segment where a dot segment was the last.
Induction on the segments. -/
theorem run_slashed (hsegs : ∀ seg ∈ segs, '/' ∉ seg) (hstack : ∀ seg ∈ stack, '/' ∉ seg) :
    run (slashed segs) (slashed stack) =
      slashed (segs.foldl pushSegment stack ++ if endsInDots segs then [[]] else []) := by
  induction segs generalizing stack with
  | nil =>
    rw [show slashed [] = [] from rfl, run_nil]
    exact congrArg slashed (List.append_nil stack).symm
  | cons seg segs ih =>
    obtain ⟨hseg, hrest⟩ := List.forall_mem_cons.mp hsegs
    have hpush : ∀ s ∈ pushSegment stack seg, '/' ∉ s := by
      intro s hs
      rcases mem_pushSegment hs with hs | rfl
      · exact hstack s hs
      · exact hseg
    have hne : slashed (seg :: segs) ≠ [] := List.cons_ne_nil _ _
    rw [run_of_ne hne, turn_slashed hseg hstack, List.foldl_cons]
    dsimp only
    cases segs with
    | nil =>
      by_cases hdots : IsDots seg
      · -- the slash that is left is a segment of its own
        have hends : endsInDots [seg] = true := decide_eq_true hdots
        rw [if_pos ⟨hdots, rfl⟩, if_pos hends, run_of_ne (List.cons_ne_nil _ _), turn_slash, run_nil,
          List.foldl_nil, slashed_concat]
      · have hends : ¬ endsInDots [seg] = true := fun h => hdots (of_decide_eq_true h)
        rw [if_neg fun h => hdots h.1, if_neg hends, show slashed [] = [] from rfl, run_nil,
          List.foldl_nil, List.append_nil]
    | cons next segs =>
      have hends : endsInDots (seg :: next :: segs) = endsInDots (next :: segs) := rfl
      rw [if_neg fun h => List.cons_ne_nil _ _ h.2, ih hrest hpush, hends]

end Rfc3986

/-! ## The two -/

theorem removeDotSegments_slash (rest : Str) :
    removeDotSegments ('/' :: rest) =
      '/' :: ['/'].intercalate ((rest.splitOn '/').foldl pushSegment []) := by
  have hparts : ('/' :: rest).splitOn '/' = [] :: rest.splitOn '/' :=
    List.splitOn_append_cons_self [] rest
  rw [removeDotSegments, hparts]
  rfl

theorem rfc_slash (rest : Str) :
    Rfc3986.removeDotSegments ('/' :: rest) =
      slashed ((rest.splitOn '/').foldl pushSegment [] ++
        if endsInDots (rest.splitOn '/') then [[]] else []) := by
  rw [Rfc3986.removeDotSegments, ← slashed_splitOn rest]
  exact Rfc3986.run_slashed (fun seg hseg => not_mem_of_mem_splitOn hseg)
    fun seg hseg => absurd hseg List.not_mem_nil

/-- The stack is as deep as the segments. -/
theorem length_foldl_pushSegment (segs : List Str) :
    (segs.foldl pushSegment []).length = depth segs := by
  have hloop : ∀ (segs stack : List Str), (segs.foldl pushSegment stack).length =
      segs.foldl (fun n seg => if seg = ['.'] then n else if seg = ['.', '.'] then n - 1 else n + 1)
        stack.length := by
    intro segs
    induction segs with
    | nil =>
      intro stack
      rfl
    | cons seg segs ih =>
      intro stack
      rw [List.foldl_cons, List.foldl_cons, ih, pushSegment]
      congr 1
      split
      · rfl
      split
      · exact List.length_dropLast
      · rw [List.length_append, List.length_singleton]
  exact hloop segs []

/-- A segment that is not a dot segment stays on the stack if it is the last. -/
theorem foldl_pushSegment_ne_nil {segs : List Str} (hne : segs ≠ [])
    (hends : ¬ endsInDots segs = true) : segs.foldl pushSegment [] ≠ [] := by
  rcases List.eq_nil_or_concat' segs with rfl | ⟨front, seg, rfl⟩
  · exact absurd rfl hne
  · have hdots : ¬ IsDots seg := by
      intro h
      apply hends
      rw [endsInDots, List.getLast?_concat]
      exact decide_eq_true h
    rw [List.foldl_append, List.foldl_cons, List.foldl_nil, pushSegment,
      if_neg fun h => hdots (.inl h), if_neg fun h => hdots (.inr h)]
    exact List.append_ne_nil_of_right_ne_nil _ (List.cons_ne_nil _ _)

/-- A stack of ordinary segments is pushed as it is. -/
theorem foldl_pushSegment_of_ordinary {segs : List Str} (h : ∀ seg ∈ segs, ¬ IsDots seg)
    (stack : List Str) : segs.foldl pushSegment stack = stack ++ segs := by
  induction segs generalizing stack with
  | nil => exact (List.append_nil stack).symm
  | cons seg segs ih =>
    obtain ⟨hseg, hrest⟩ := List.forall_mem_cons.mp h
    rw [List.foldl_cons, ih hrest, pushSegment, if_neg fun h => hseg (.inl h),
      if_neg fun h => hseg (.inr h), List.append_assoc, List.singleton_append]

theorem ordinary_foldl_pushSegment (segs : List Str) {stack : List Str}
    (hstack : ∀ seg ∈ stack, ¬ IsDots seg) :
    ∀ seg ∈ segs.foldl pushSegment stack, ¬ IsDots seg := by
  induction segs generalizing stack with
  | nil => exact hstack
  | cons seg segs ih =>
    apply ih
    intro s hs
    unfold pushSegment at hs
    split at hs
    · exact hstack s hs
    next hone =>
    split at hs
    · exact hstack s (List.dropLast_subset _ hs)
    next htwo =>
    rcases List.mem_append.mp hs with hs | hs
    · exact hstack s hs
    · rw [List.mem_singleton.mp hs]
      exact fun h => h.elim hone htwo

/-- **A second pass changes nothing.** -/
theorem removeDotSegments_idempotent (rest : Str) :
    removeDotSegments (removeDotSegments ('/' :: rest)) = removeDotSegments ('/' :: rest) := by
  rw [removeDotSegments_slash rest, removeDotSegments_slash]
  congr 1
  by_cases hnil : (rest.splitOn '/').foldl pushSegment [] = []
  · rw [hnil]
    rfl
  · have hslash : ∀ seg ∈ (rest.splitOn '/').foldl pushSegment [], '/' ∉ seg := by
      intro seg hseg
      rcases mem_foldl_pushSegment hseg with hseg | hseg
      · exact not_mem_of_mem_splitOn hseg
      · exact absurd hseg List.not_mem_nil
    have hordinary : ∀ seg ∈ (rest.splitOn '/').foldl pushSegment [], ¬ IsDots seg :=
      ordinary_foldl_pushSegment _ fun seg hseg => absurd hseg List.not_mem_nil
    rw [List.splitOn_intercalate '/' hslash hnil, foldl_pushSegment_of_ordinary hordinary,
      List.nil_append]

/-- **When the stack computes what the algorithm does**, for an absolute path: unless the last segment
is a dot segment and an ordinary one is still open in front of it. -/
theorem removeDotSegments_rfc_iff (rest : Str) :
    (removeDotSegments ('/' :: rest) = Rfc3986.removeDotSegments ('/' :: rest) ∧
      removeDotSegments (removeDotSegments ('/' :: rest)) = removeDotSegments ('/' :: rest)) ↔
      (endsInDots (rest.splitOn '/') = true → depth (rest.splitOn '/') = 0) := by
  rw [and_iff_left (removeDotSegments_idempotent rest), removeDotSegments_slash, rfc_slash,
    ← length_foldl_pushSegment]
  by_cases hends : endsInDots (rest.splitOn '/') = true
  · rw [if_pos hends, slashed_concat, List.length_eq_zero_iff]
    constructor
    · intro h _
      by_contra hne
      -- the empty segment is one slash more
      rw [slashed_eq hne] at h
      have hlength := congrArg List.length h
      rw [List.length_append, List.length_singleton] at hlength
      exact Nat.succ_ne_self _ hlength.symm
    · intro h
      rw [h hends]
      rfl
  · have hne := foldl_pushSegment_ne_nil (List.splitOn_ne_nil '/' rest) hends
    rw [if_neg hends, List.append_nil, slashed_eq hne]
    exact iff_of_true rfl fun h => absurd h hends

/-- The directory of a path, written with a dot, loses its slash. -/
theorem removeDotSegments_loses_slash :
    removeDotSegments "/a/.".toList = "/a".toList ∧
      Rfc3986.removeDotSegments "/a/.".toList = "/a/".toList := by
  refine ⟨by decide +kernel, ?_⟩
  exact (rfc_slash "a/.".toList).trans (by decide +kernel)

end Castrum
