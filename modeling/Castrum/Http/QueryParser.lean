import Castrum.Http.FormDecode
import Castrum.Json.Pairs

/-!
# Castrum — packed query parsing (`rust/http/query_parser.rs`)

A query is cut at `&` and each non-empty segment at its first `=`; both parts are decoded and
written behind their lengths: `[u32 count]`, then `[u32 len][name][u32 len][value]` for each pair.

* `queryPairs` — the pairs of a query;
* `packedText` — their packed form, with 32-bit counts and lengths;
* `packInto_eq` / `packInto_overflow` — a writer of counted texts, up to `2 ^ 32` of them and beyond;
* `queryParsePackedVec_eq` — the parser gives it, as long as the count fits.
-/

namespace Castrum

/-! ## The pairs of a query -/

def queryPair (pair : Bytes) : Bytes × Bytes :=
  (formDecode (cutPair pair).1, formDecode (cutPair pair).2)

/-- An empty segment is no pair. -/
def segments (pairs : List Bytes) : List Bytes := pairs.filter (· ≠ [])

/-- The decoded pairs, in order. -/
def queryPairs (query : Bytes) : List (Bytes × Bytes) :=
  (segments (query.splitOn 38)).map queryPair

def packedPairs (ps : List (Bytes × Bytes)) : Bytes :=
  ps.flatMap fun p => packedComponent p.1 ++ packedComponent p.2

def packedText (ps : List (Bytes × Bytes)) : Bytes := le32 ps.length ++ packedPairs ps

/-- The packed form has room for these pairs: its counts and lengths are 32 bits wide. -/
def Packable (ps : List (Bytes × Bytes)) : Prop :=
  ps.length < 2 ^ 32 ∧ ∀ p ∈ ps, p.1.length < 2 ^ 32 ∧ p.2.length < 2 ^ 32

/-! ## The source functions -/

def packedTooSmall : String := "packed output: buffer too small"

/-- The length is filled in once the component is decoded. -/
def writeDecodedFormComponent (src : Bytes) (out : Out UInt8) :
    Except (Failure String) (Out UInt8) :=
  match out.put (le32 0) with
  | none => .error (.fail packedTooSmall)
  | some out₁ =>
    match decodeFormComponentInto src out₁.room with
    | .error _ => .error (.fail packedTooSmall)
    | .ok part =>
      orFail .panic (Out.patch { written := out₁.written ++ part.written, room := part.room }
        out.pos (le32 part.pos))

/-- The loop over the segments. The count is a `u32`, and overflow is checked. -/
def packQueryFrom : List Bytes → Out UInt8 → Nat → Except (Failure String) (Out UInt8 × Nat)
  | [], out, count => .ok (out, count)
  | pair :: pairs, out, count =>
    if pair = [] then packQueryFrom pairs out count
    else do
      let out ← writeDecodedFormComponent (cutPair pair).1 out
      let out ← writeDecodedFormComponent (cutPair pair).2 out
      if count + 1 < 2 ^ 32 then packQueryFrom pairs out (count + 1) else .error .panic

def queryParsePackedIntoSlice (input out : Bytes) : Except (Failure String) (Out UInt8) := do
  let out ← orFail (.fail packedTooSmall) ((Out.new out).put (le32 0))
  let (out, count) ← packQueryFrom (input.splitOn 38) out 0
  orFail .panic (out.patch 0 (le32 count))

def queryParsePackedVec (input : Bytes) : Except (Failure String) Bytes :=
  (queryParsePackedIntoSlice input (List.replicate (input.length * 9 + 16) 0)).map (·.written)

/-! ## Writing and counting

A parser of pairs writes the text of one pair after the other behind the room for their count, and
fills the count in at the end. It counts in 32 bits. -/

section

variable {α : Type} (write : α → Out UInt8 → Except (Failure String) (Out UInt8))

def packFrom : List α → Out UInt8 → Nat → Except (Failure String) (Out UInt8 × Nat)
  | [], out, count => .ok (out, count)
  | x :: xs, out, count => do
    let out ← write x out
    if count + 1 < 2 ^ 32 then packFrom xs out (count + 1) else .error .panic

def packInto (xs : List α) (out : Bytes) : Except (Failure String) (Out UInt8) := do
  let out ← orFail (.fail packedTooSmall) ((Out.new out).put (le32 0))
  let (out, count) ← packFrom write xs out 0
  orFail .panic (out.patch 0 (le32 count))

variable {write} {text : α → Bytes}
  (hwrite : ∀ x out, write x out = orFail (.fail packedTooSmall) (out.put (text x)))

include hwrite

theorem packFrom_eq (xs : List α) (out : Out UInt8) {count : Nat}
    (hcount : count + xs.length < 2 ^ 32) :
    packFrom write xs out count =
      (orFail (.fail packedTooSmall) (out.put (xs.flatMap text))).map
        fun out' => (out', count + xs.length) := by
  induction xs generalizing out count with
  | nil =>
    rw [packFrom, List.flatMap_nil, Out.put_nil]
    rfl
  | cons x xs ih =>
    rw [List.length_cons] at hcount ⊢
    rw [packFrom, hwrite, List.flatMap_cons, ← Out.put_put]
    cases out.put (text x) with
    | none => rfl
    | some out₁ =>
      rw [orFail_some, ok_bind, if_pos (by omega), ih out₁ (by omega), Option.bind_some,
        show count + (xs.length + 1) = count + 1 + xs.length by omega]

/-- **Too many to count**: the loop never ends well, and where all texts have room it panics. -/
theorem packFrom_overflow (xs : List α) (out : Out UInt8) {count : Nat} (hlt : count < 2 ^ 32)
    (hcount : 2 ^ 32 ≤ count + xs.length) :
    (∀ r, packFrom write xs out count ≠ .ok r) ∧
      ((xs.flatMap text).length ≤ out.room.length →
        packFrom write xs out count = .error .panic) := by
  induction xs generalizing out count with
  | nil =>
    rw [List.length_nil] at hcount
    omega
  | cons x xs ih =>
    rw [List.length_cons] at hcount
    rw [packFrom, hwrite, List.flatMap_cons, List.length_append]
    cases hput : out.put (text x) with
    | none =>
      have hshort := Out.put_eq_none_iff.mp hput
      exact ⟨nofun, fun hroom => by omega⟩
    | some out₁ =>
      obtain ⟨-, -, hroom₁⟩ := Out.put_eq_some_iff.mp hput
      rw [orFail_some, ok_bind]
      by_cases hnext : count + 1 < 2 ^ 32
      · rw [if_pos hnext]
        obtain ⟨hok, hpanic⟩ := ih out₁ hnext (by omega)
        refine ⟨hok, fun hroom => hpanic ?_⟩
        rw [hroom₁, List.length_drop]
        omega
      · rw [if_neg hnext]
        exact ⟨nofun, fun _ => rfl⟩

theorem packInto_eq {xs : List α} (hcount : xs.length < 2 ^ 32) (out : Bytes) :
    packInto write xs out =
      orFail (.fail packedTooSmall) ((Out.new out).put (le32 xs.length ++ xs.flatMap text)) := by
  unfold packInto
  rw [← Out.put_patch (Out.new out) (show (le32 0).length = (le32 xs.length).length from rfl),
    ← Out.put_put]
  cases hput : (Out.new out).put (le32 0) with
  | none => rfl
  | some out₁ =>
    obtain ⟨-, hwritten₁, -⟩ := Out.put_eq_some_iff.mp hput
    rw [orFail_some, ok_bind, packFrom_eq hwrite xs out₁ (by rw [Nat.zero_add]; exact hcount),
      Nat.zero_add, Option.bind_some]
    cases hrest : out₁.put (xs.flatMap text) with
    | none => rfl
    | some out₂ =>
      obtain ⟨-, hwritten₂, -⟩ := Out.put_eq_some_iff.mp hrest
      show orFail _ (out₂.patch 0 _) = orFail _ (out₂.patch 0 _)
      obtain ⟨written, room⟩ := out₂
      dsimp only at hwritten₂
      rw [hwritten₂, hwritten₁]
      have hpatch := Out.patch_append [] (xs.flatMap text) room
        (show (le32 xs.length).length = (le32 0).length from rfl)
      simp only [List.nil_append, List.length_nil] at hpatch
      rw [show (Out.new out).written = [] from rfl, List.nil_append, hpatch]
      rfl

theorem packInto_overflow {xs : List α} (hcount : 2 ^ 32 ≤ xs.length) (out : Bytes) :
    (∀ o, packInto write xs out ≠ .ok o) ∧
      ((le32 xs.length ++ xs.flatMap text).length ≤ out.length →
        packInto write xs out = .error .panic) := by
  unfold packInto
  rw [List.length_append, length_le32]
  cases hput : (Out.new out).put (le32 0) with
  | none =>
    have hshort : out.length < 4 := Out.put_eq_none_iff.mp hput
    exact ⟨nofun, fun hroom => by omega⟩
  | some out₁ =>
    obtain ⟨-, -, hroom₁⟩ := Out.put_eq_some_iff.mp hput
    obtain ⟨hok, hpanic⟩ := packFrom_overflow hwrite xs out₁ (show 0 < 2 ^ 32 by decide)
      (by rw [Nat.zero_add]; exact hcount)
    rw [orFail_some, ok_bind]
    refine ⟨?_, fun hroom => ?_⟩
    · intro o ho
      obtain ⟨r, hr, -⟩ := bind_eq_ok_iff.mp ho
      exact hok r hr
    · rw [hpanic]
      · rfl
      · rw [hroom₁, List.length_drop]
        show _ ≤ out.length - (le32 0).length
        rw [length_le32]
        omega

end

/-! ## What they give -/

theorem writeDecodedFormComponent_eq (src : Bytes) (out : Out UInt8) :
    writeDecodedFormComponent src out =
      orFail (.fail packedTooSmall) (out.put (packedComponent (formDecode src))) := by
  unfold writeDecodedFormComponent packedComponent
  rw [← Out.put_patch out (show (le32 0).length = (le32 (formDecode src).length).length from rfl),
    ← Out.put_put]
  cases hlen : out.put (le32 0) with
  | none => rfl
  | some out₁ =>
    obtain ⟨-, hwritten₁, -⟩ := Out.put_eq_some_iff.mp hlen
    simp only [decodeFormComponentInto_eq, Option.bind_some, Out.put_eq_map_new out₁]
    cases hput : (Out.new out₁.room).put (formDecode src) with
    | none => rfl
    | some part =>
      obtain ⟨-, hwritten, -⟩ := Out.put_eq_some_iff.mp hput
      have hpos : part.pos = (formDecode src).length := congrArg List.length hwritten
      simp only [orFail_some, Option.map_some, Option.bind_some, hpos]
      rw [hwritten₁, List.append_assoc, Out.pos, Out.patch_append _ _ _
        (show (le32 (formDecode src).length).length = (le32 0).length from rfl)]
      rfl

/-- The parts of one segment. -/
def writePair (pair : Bytes) (out : Out UInt8) : Except (Failure String) (Out UInt8) := do
  let out ← writeDecodedFormComponent (cutPair pair).1 out
  writeDecodedFormComponent (cutPair pair).2 out

/-- The packed form of one pair. -/
def packedPair (p : Bytes × Bytes) : Bytes := packedComponent p.1 ++ packedComponent p.2

theorem writePair_eq (pair : Bytes) (out : Out UInt8) :
    writePair pair out =
      orFail (.fail packedTooSmall) (out.put (packedPair (queryPair pair))) := by
  unfold writePair packedPair queryPair
  rw [writeDecodedFormComponent_eq, ← Out.put_put]
  cases out.put (packedComponent (formDecode (cutPair pair).1)) with
  | none => rfl
  | some out₁ =>
    rw [orFail_some, ok_bind, writeDecodedFormComponent_eq]
    rfl

/-- The loop over the segments skips the empty ones. -/
theorem packQueryFrom_eq_packFrom (pairs : List Bytes) (out : Out UInt8) (count : Nat) :
    packQueryFrom pairs out count = packFrom writePair (segments pairs) out count := by
  induction pairs generalizing out count with
  | nil => rfl
  | cons pair pairs ih =>
    rw [packQueryFrom]
    by_cases hpair : pair = []
    · have hskip : segments (pair :: pairs) = segments pairs :=
        List.filter_cons_of_neg (by simpa using hpair)
      rw [if_pos hpair, hskip, ih]
    · have hkeep : segments (pair :: pairs) = pair :: segments pairs :=
        List.filter_cons_of_pos (by simpa using hpair)
      simp only [if_neg hpair, hkeep, packFrom, writePair, ih, bind_assoc]

theorem queryParsePackedIntoSlice_eq_packInto (input out : Bytes) :
    queryParsePackedIntoSlice input out = packInto writePair (segments (input.splitOn 38)) out := by
  unfold queryParsePackedIntoSlice packInto
  simp only [packQueryFrom_eq_packFrom]

theorem packedText_queryPairs (input : Bytes) :
    packedText (queryPairs input) = le32 (segments (input.splitOn 38)).length ++
      (segments (input.splitOn 38)).flatMap fun pair => packedPair (queryPair pair) := by
  rw [packedText, queryPairs, List.length_map, packedPairs, List.flatMap_map]
  rfl

theorem queryParsePackedIntoSlice_eq (input out : Bytes)
    (hcount : (queryPairs input).length < 2 ^ 32) :
    queryParsePackedIntoSlice input out =
      orFail (.fail packedTooSmall) ((Out.new out).put (packedText (queryPairs input))) := by
  rw [queryPairs, List.length_map] at hcount
  rw [queryParsePackedIntoSlice_eq_packInto, packInto_eq writePair_eq hcount,
    packedText_queryPairs]

/-! ## The upper bound of the allocating parser -/

theorem length_cutPair_le (pair : Bytes) :
    (cutPair pair).1.length + (cutPair pair).2.length ≤ pair.length := by
  unfold cutPair
  cases hcut : cutAt 61 pair with
  | none => exact Nat.le_refl _
  | some r =>
    obtain ⟨-, heq⟩ := cutAt_eq_some_iff.mp hcut
    have hlen := congrArg List.length heq
    rw [List.length_append, List.length_cons] at hlen
    rw [Option.getD_some]
    omega

/-- A pair that is cut out of a segment: the segment is not empty, and the parts are no longer. -/
def CutsPairs (f : Bytes → Option (Bytes × Bytes)) : Prop :=
  ∀ seg p, f seg = some p → seg ≠ [] ∧ p.1.length + p.2.length ≤ seg.length

/-- A pair takes eight bytes more than its segment, which has at least one. -/
theorem length_packedPairs_le {f : Bytes → Option (Bytes × Bytes)} (hf : CutsPairs f)
    (segs : List Bytes) : (packedPairs (segs.filterMap f)).length ≤ segs.flatten.length * 9 := by
  induction segs with
  | nil => exact Nat.le_refl _
  | cons seg segs ih =>
    rw [List.flatten_cons, List.length_append]
    cases hseg : f seg with
    | none =>
      rw [List.filterMap_cons_none hseg]
      omega
    | some p =>
      obtain ⟨hne, hle⟩ := hf seg p hseg
      have hpos := List.length_pos_iff.mpr hne
      rw [List.filterMap_cons_some hseg]
      rw [packedPairs] at ih ⊢
      rw [List.flatMap_cons, List.length_append, List.length_append]
      simp only [packedComponent, List.length_append, length_le32] at ih ⊢
      omega

/-- An empty segment is no pair, any other one is. -/
def queryPair? (seg : Bytes) : Option (Bytes × Bytes) :=
  if seg = [] then none else some (queryPair seg)

theorem queryPairs_eq_filterMap (query : Bytes) :
    queryPairs query = (query.splitOn 38).filterMap queryPair? := by
  rw [queryPairs, segments]
  induction query.splitOn 38 with
  | nil => rfl
  | cons seg segs ih =>
    by_cases hseg : seg = []
    · rw [List.filter_cons_of_neg (by simpa using hseg), ih]
      simp only [List.filterMap_cons, queryPair?, if_pos hseg]
    · rw [List.filter_cons_of_pos (by simpa using hseg), List.map_cons, ih]
      simp only [List.filterMap_cons, queryPair?, if_neg hseg]

theorem cutsPairs_queryPair? : CutsPairs queryPair? := by
  intro seg p hp
  unfold queryPair? at hp
  split at hp
  · nomatch hp
  · next hne =>
    obtain rfl := Option.some.inj hp
    have hcut := length_cutPair_le seg
    have hname := formDecode_length_le (cutPair seg).1
    have hvalue := formDecode_length_le (cutPair seg).2
    exact ⟨hne, by show (formDecode _).length + (formDecode _).length ≤ _; omega⟩

theorem length_packedText_le {f : Bytes → Option (Bytes × Bytes)} (hf : CutsPairs f) (c : UInt8)
    (input : Bytes) :
    (packedText ((input.splitOn c).filterMap f)).length ≤ input.length * 9 + 16 := by
  have hpairs := length_packedPairs_le hf (input.splitOn c)
  have hsplit := length_flatten_splitOn_le (c := c) input
  rw [packedText, List.length_append, length_le32]
  omega

/-- **The allocating parser** gives the packed form of the pairs. -/
theorem queryParsePackedVec_eq (input : Bytes) (hcount : (queryPairs input).length < 2 ^ 32) :
    queryParsePackedVec input = .ok (packedText (queryPairs input)) := by
  have hbound := length_packedText_le cutsPairs_queryPair? 38 input
  rw [← queryPairs_eq_filterMap] at hbound
  rw [queryParsePackedVec, queryParsePackedIntoSlice_eq _ _ hcount, Out.put_of_le (by
    show _ ≤ (List.replicate _ _).length
    rw [List.length_replicate]
    exact hbound)]
  rfl

/-! ## The pairs of a short input -/

/-- Pairs that are cut out of segments have room in the packed form, if the segments have. -/
theorem packable_filterMap {f : Bytes → Option (Bytes × Bytes)} (hf : CutsPairs f)
    {segs : List Bytes} (h : segs.flatten.length < 2 ^ 32) : Packable (segs.filterMap f) := by
  have hcount : (segs.filterMap f).length ≤ segs.flatten.length := by
    clear h
    induction segs with
    | nil => exact Nat.le_refl _
    | cons seg segs ih =>
      rw [List.flatten_cons, List.length_append]
      cases hseg : f seg with
      | none =>
        rw [List.filterMap_cons_none hseg]
        omega
      | some p =>
        have hpos := List.length_pos_iff.mpr (hf seg p hseg).1
        rw [List.filterMap_cons_some hseg, List.length_cons]
        omega
  refine ⟨by omega, ?_⟩
  intro p hp
  obtain ⟨seg, hmem, hseg⟩ := List.mem_filterMap.mp hp
  have hparts := (hf seg p hseg).2
  have hle := (List.sublist_flatten_of_mem hmem).length_le
  exact ⟨by omega, by omega⟩

theorem packable_queryPairs {query : Bytes} (h : query.length < 2 ^ 32) :
    Packable (queryPairs query) := by
  rw [queryPairs_eq_filterMap]
  exact packable_filterMap cutsPairs_queryPair?
    (Nat.lt_of_le_of_lt (length_flatten_splitOn_le query) h)

theorem length_unquote_le (value : Bytes) : (unquote value).length ≤ value.length := by
  unfold unquote
  split
  · rw [List.length_dropLast, List.length_drop]
    omega
  · exact Nat.le_refl _

theorem cutsPairs_cookiePair : CutsPairs cookiePair := by
  intro raw p hp
  unfold cookiePair at hp
  dsimp only at hp
  split at hp
  · exact nomatch hp
  split at hp
  · exact nomatch hp
  · next hpair hname =>
    rw [Option.some.injEq] at hp
    have htrim := length_trimAsciiWhitespace_le raw
    have hcut := length_cutPair_le (trimAsciiWhitespace raw)
    have hfst := length_trimAsciiWhitespace_le (cutPair (trimAsciiWhitespace raw)).1
    have hsnd := length_trimAsciiWhitespace_le (cutPair (trimAsciiWhitespace raw)).2
    have hvalue := length_unquote_le (trimAsciiWhitespace (cutPair (trimAsciiWhitespace raw)).2)
    have hpos := List.length_pos_iff.mpr hpair
    rw [← hp]
    refine ⟨List.ne_nil_of_length_pos (by omega), ?_⟩
    show (trimAsciiWhitespace _).length + (unquote _).length ≤ _
    omega

theorem packable_cookiePairs {cookie : Bytes} (h : cookie.length < 2 ^ 32) :
    Packable (cookiePairs cookie) :=
  packable_filterMap cutsPairs_cookiePair
    (Nat.lt_of_le_of_lt (length_flatten_splitOn_le cookie) h)

end Castrum
