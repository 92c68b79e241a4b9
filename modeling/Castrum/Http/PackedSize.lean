import Castrum.Http.QueryParser
import Castrum.Util.BatchFrames

/-!
# Castrum — how much room packed pairs need (`rust/http/query_parser.rs`, `rust/http/cookie_parser.rs`)

A caller who has guessed a buffer too small asks for the size and parses again; the allocating
parsers and the batches take nine bytes for each byte of input, and 16. The size is counted in a pass
of its own, which counts a component that decodes to a byte above `0x7F` as if it stayed raw.

* `length_formDecode_le_len` — the length pass never counts too little;
* `PairFormat.parseInto_eq` — what the parsers write, up to `2 ^ 32` pairs and from there on;
* `parsePairsBatch_eq` — what a batch of them writes;
* `pairParsers_sizing` — sizes, results and bounds of both parsers and of their batches.
-/

namespace Castrum

open Packed

/-! ## The source functions -/

/-- The loop of `decode_form_component_len`, on what is left of the component: the bytes counted,
and whether one of them is above `0x7F`. `none` for a malformed escape. -/
def formLenFrom : Nat → Bytes → Nat → Bool → Option (Nat × Bool)
  | 0, _, written, sawHigh => some (written, sawHigh)
  | n + 1, rest, written, sawHigh =>
    if rest = [] then some (written, sawHigh)
    else
      match memchr2 rest with
      | some rel =>
        match decodeSpecialAt rest rel with
        | none => none
        | some (b, next) =>
          formLenFrom n (rest.drop next) (written + rel + 1)
            (sawHigh || anyHigh (rest.take rel) || anyHigh [b])
      | none => some (written + rest.length, sawHigh || anyHigh rest)

def decodeFormComponentLen (src : Bytes) : Nat :=
  if (memchr2 src).isNone then src.length
  else
    match formLenFrom src.length src 0 false with
    | none => src.length
    | some (written, sawHigh) => if sawHigh then src.length else written

def queryParsePackedSize (input : Bytes) : Nat :=
  (input.splitOn 38).foldl (fun size pair =>
    if pair = [] then size
    else size + (4 + decodeFormComponentLen (cutPair pair).1) +
      (4 + decodeFormComponentLen (cutPair pair).2)) 4

/-- `write_u32_le` or `write_bytes`. -/
def writeBytes (out : Out UInt8) (bytes : Bytes) : Except (Failure String) (Out UInt8) :=
  orFail (.fail packedTooSmall) (out.put bytes)

/-- The loop over the cookies. -/
def packCookiesFrom : List (Bytes × Bytes) → Out UInt8 → Nat →
    Except (Failure String) (Out UInt8 × Nat)
  | [], out, count => .ok (out, count)
  | (name, value) :: pairs, out, count => do
    let out ← writeBytes out (le32 name.length)
    let out ← writeBytes out name
    let out ← writeBytes out (le32 value.length)
    let out ← writeBytes out value
    if count + 1 < 2 ^ 32 then packCookiesFrom pairs out (count + 1) else .error .panic

def cookieParsePackedIntoSlice (input out : Bytes) : Except (Failure String) (Out UInt8) := do
  let out ← writeBytes (Out.new out) (le32 0)
  let (out, count) ← packCookiesFrom (cookiePairs input) out 0
  orFail .panic (out.patch 0 (le32 count))

def cookieParsePackedSize (input : Bytes) : Nat :=
  (cookiePairs input).foldl (fun size p => size + (4 + p.1.length) + (4 + p.2.length)) 4

def cookieParsePackedVec (input : Bytes) : Except (Failure String) Bytes :=
  (cookieParsePackedIntoSlice input (List.replicate (input.length * 9 + 16) 0)).map (·.written)

/-- The two formats of pairs. -/
inductive PairFormat where
  | query
  | cookie
  deriving DecidableEq, Repr

namespace PairFormat

def parseInto : PairFormat → PairsParser
  | query => queryParsePackedIntoSlice
  | cookie => cookieParsePackedIntoSlice

def packedSize : PairFormat → Bytes → Nat
  | query => queryParsePackedSize
  | cookie => cookieParsePackedSize

def packedVec : PairFormat → Bytes → Except (Failure String) Bytes
  | query => queryParsePackedVec
  | cookie => cookieParsePackedVec

def pairs : PairFormat → Bytes → List (Bytes × Bytes)
  | query => queryPairs
  | cookie => cookiePairs

end PairFormat

/-! ## The length pass -/

theorem formLenFrom_eq {n : Nat} {rest : Bytes} (h : rest.length ≤ n) (written : Nat)
    (sawHigh : Bool) :
    formLenFrom n rest written sawHigh =
      (percentDecode rest).map fun d => (written + d.length, sawHigh || anyHigh d) := by
  have empty : ∀ {written : Nat} {sawHigh : Bool}, some (written, sawHigh) =
      (percentDecode []).map fun d => (written + d.length, sawHigh || anyHigh d) := by
    intro written sawHigh
    simp [percentDecode, anyHigh]
  -- Each turn goes behind one escape or plus, so the input left is shorter.
  induction n generalizing rest written sawHigh with
  | zero =>
    rw [List.eq_nil_of_length_eq_zero (Nat.le_zero.mp h)]
    exact empty
  | succ n ih =>
    rw [formLenFrom]
    by_cases hnil : rest = []
    · rw [if_pos hnil, hnil]
      exact empty
    rw [if_neg hnil]
    cases hfind : memchr2 rest with
    | none =>
      rw [percentDecode_plain hfind]
      rfl
    | some k =>
      obtain ⟨-, -, -, -, hlt⟩ := findIdx?_eq_some_cut hfind
      rw [percentDecode_cut hfind]
      dsimp only
      cases hspecial : decodeSpecialAt rest k with
      | none => rfl
      | some r =>
        obtain ⟨b, next⟩ := r
        obtain ⟨hlow, hhigh⟩ := decodeSpecialAt_bounds hlt hspecial
        dsimp only
        rw [ih (by rw [List.length_drop]; omega), Option.bind_some, Option.map_map, Option.map_map]
        congr 1
        funext d
        have hlen : (rest.take k ++ b :: d).length = k + 1 + d.length := by
          rw [List.length_append, List.length_take_of_le (by omega), List.length_cons]
          omega
        have hany : anyHigh (rest.take k ++ b :: d) =
            (anyHigh (rest.take k) || (anyHigh [b] || anyHigh d)) := by
          rw [anyHigh_append, ← List.singleton_append, anyHigh_append]
        simp only [Function.comp_apply, hlen, hany, Bool.or_assoc, Nat.add_assoc]

/-- **The length pass** never counts too little. -/
theorem length_formDecode_le_len (src : Bytes) :
    (formDecode src).length ≤ decodeFormComponentLen src := by
  have hle := formDecode_length_le src
  unfold decodeFormComponentLen
  by_cases hplain : (memchr2 src).isNone = true
  · rwa [if_pos hplain]
  rw [if_neg hplain, formLenFrom_eq (Nat.le_refl _)]
  cases hd : percentDecode src with
  | none => exact hle
  | some d =>
    simp only [Option.map_some, Bool.false_or, Nat.zero_add]
    split
    · exact hle
    · next hascii =>
      -- nothing but ASCII was counted, so the component is not answered raw
      have hvalid : validUtf8 d = true := by
        apply validUtf8_ascii
        intro b hb
        by_contra hge
        exact hascii (List.any_eq_true.mpr ⟨b, hb, by simpa using hge⟩)
      rw [formDecode, if_neg (mt (memchr2_isNone_iff src).mpr hplain), hd]
      dsimp only
      rw [if_pos hvalid]

/-! ## The size passes -/

theorem foldl_size {α : Type} (cost : α → Nat) (xs : List α) (size : Nat) :
    xs.foldl (fun size x => size + cost x) size = size + (xs.map cost).sum := by
  induction xs generalizing size with
  | nil => rfl
  | cons x xs ih => rw [List.foldl_cons, ih, List.map_cons, List.sum_cons, Nat.add_assoc]

theorem length_packedPair (p : Bytes × Bytes) :
    (packedPair p).length = 4 + p.1.length + (4 + p.2.length) := by
  rw [packedPair, List.length_append, packedComponent, packedComponent, List.length_append,
    List.length_append, length_le32, length_le32]

theorem length_flatMap_le {α : Type} {text : α → Bytes} {cost : α → Nat}
    (h : ∀ x, (text x).length ≤ cost x) (xs : List α) :
    (xs.flatMap text).length ≤ (xs.map cost).sum := by
  induction xs with
  | nil => exact Nat.le_refl _
  | cons x xs ih =>
    rw [List.flatMap_cons, List.length_append, List.map_cons, List.sum_cons]
    exact Nat.add_le_add (h x) ih

/-- The size of a query may be more than what is written: its components may decode to less. -/
theorem length_packedText_le_querySize (input : Bytes) :
    (packedText (queryPairs input)).length ≤ queryParsePackedSize input := by
  let cost (pair : Bytes) : Nat := 4 + decodeFormComponentLen (cutPair pair).1 +
    (4 + decodeFormComponentLen (cutPair pair).2)
  have hfold : queryParsePackedSize input =
      (segments (input.splitOn 38)).foldl (fun size pair => size + cost pair) 4 := by
    rw [segments, List.foldl_filter]
    unfold queryParsePackedSize
    congr 1
    funext size pair
    by_cases hpair : pair = []
    · simp [hpair]
    · simp only [hpair, if_false, cost, ne_eq, not_false_eq_true, decide_true, if_true]
      omega
  have hpair : ∀ pair, (packedPair (queryPair pair)).length ≤ cost pair := by
    intro pair
    have hname := length_formDecode_le_len (cutPair pair).1
    have hvalue := length_formDecode_le_len (cutPair pair).2
    rw [length_packedPair]
    show 4 + (formDecode _).length + (4 + (formDecode _).length) ≤
      4 + decodeFormComponentLen _ + (4 + decodeFormComponentLen _)
    omega
  have hsum := length_flatMap_le hpair (segments (input.splitOn 38))
  rw [hfold, foldl_size, packedText_queryPairs, List.length_append, length_le32]
  omega

/-- The size of cookies is exact. -/
theorem length_packedText_cookiePairs (input : Bytes) :
    (packedText (cookiePairs input)).length = cookieParsePackedSize input := by
  have hfold : cookieParsePackedSize input =
      (cookiePairs input).foldl (fun size p => size + (packedPair p).length) 4 := by
    unfold cookieParsePackedSize
    congr 1
    funext size p
    rw [length_packedPair, Nat.add_assoc]
  rw [hfold, foldl_size, packedText, List.length_append, length_le32, packedPairs,
    List.length_flatMap]
  rfl

/-! ## The cookie parser -/

/-- The four writes of one cookie. -/
def writeCookie (p : Bytes × Bytes) (out : Out UInt8) : Except (Failure String) (Out UInt8) := do
  let out ← writeBytes out (le32 p.1.length)
  let out ← writeBytes out p.1
  let out ← writeBytes out (le32 p.2.length)
  writeBytes out p.2

theorem writeBytes_bind (out : Out UInt8) (w v : Bytes) :
    (writeBytes out w >>= fun out => writeBytes out v) = writeBytes out (w ++ v) := by
  rw [writeBytes, writeBytes, ← Out.put_put]
  cases out.put w <;> rfl

theorem writeCookie_eq (p : Bytes × Bytes) (out : Out UInt8) :
    writeCookie p out = orFail (.fail packedTooSmall) (out.put (packedPair p)) := by
  unfold writeCookie
  simp only [writeBytes_bind]
  rw [packedPair, packedComponent, packedComponent, List.append_assoc]
  rfl

theorem packCookiesFrom_eq_packFrom (pairs : List (Bytes × Bytes)) (out : Out UInt8)
    (count : Nat) : packCookiesFrom pairs out count = packFrom writeCookie pairs out count := by
  induction pairs generalizing out count with
  | nil => rfl
  | cons p pairs ih =>
    simp only [packCookiesFrom, packFrom, writeCookie, ih, bind_assoc]

theorem cookieParsePackedIntoSlice_eq_packInto (input out : Bytes) :
    cookieParsePackedIntoSlice input out = packInto writeCookie (cookiePairs input) out := by
  unfold cookieParsePackedIntoSlice packInto
  simp only [packCookiesFrom_eq_packFrom, writeBytes]

namespace PairFormat

/-! ## Both parsers -/

/-- **What is parsed** where the pairs can be counted: their packed form, if it fits. -/
theorem parseInto_eq (p : PairFormat) {input : Bytes} (hcount : (p.pairs input).length < 2 ^ 32)
    (out : Bytes) :
    p.parseInto input out =
      orFail (.fail packedTooSmall) ((Out.new out).put (packedText (p.pairs input))) := by
  cases p with
  | query => exact queryParsePackedIntoSlice_eq input out hcount
  | cookie =>
    exact (cookieParsePackedIntoSlice_eq_packInto input out).trans
      (packInto_eq writeCookie_eq hcount out)

theorem parseInto_overflow (p : PairFormat) {input : Bytes}
    (hcount : 2 ^ 32 ≤ (p.pairs input).length) (out : Bytes) :
    (∀ o, p.parseInto input out ≠ .ok o) ∧
      ((packedText (p.pairs input)).length ≤ out.length →
        p.parseInto input out = .error .panic) := by
  cases p with
  | query =>
    have hsegments : 2 ^ 32 ≤ (segments (input.splitOn 38)).length := by
      rwa [pairs, queryPairs, List.length_map] at hcount
    rw [parseInto, pairs, packedText_queryPairs, queryParsePackedIntoSlice_eq_packInto]
    exact packInto_overflow writePair_eq hsegments out
  | cookie =>
    rw [parseInto, cookieParsePackedIntoSlice_eq_packInto]
    exact packInto_overflow writeCookie_eq hcount out

theorem length_packedText_le_size (p : PairFormat) (input : Bytes) :
    (packedText (p.pairs input)).length ≤ p.packedSize input := by
  cases p with
  | query => exact length_packedText_le_querySize input
  | cookie => exact (length_packedText_cookiePairs input).le

theorem length_packedText_le_bound (p : PairFormat) (input : Bytes) :
    (packedText (p.pairs input)).length ≤ input.length * 9 + 16 := by
  cases p with
  | query =>
    rw [pairs, queryPairs_eq_filterMap]
    exact length_packedText_le cutsPairs_queryPair? 38 input
  | cookie => exact length_packedText_le cutsPairs_cookiePair 59 input

theorem packedVec_eq (p : PairFormat) (input : Bytes) :
    p.packedVec input =
      (p.parseInto input (List.replicate (input.length * 9 + 16) 0)).map (·.written) := by
  cases p <;> rfl

theorem packable_pairs (p : PairFormat) {input : Bytes} (h : input.length < 2 ^ 32) :
    Packable (p.pairs input) := by
  cases p with
  | query => exact packable_queryPairs h
  | cookie => exact packable_cookiePairs h

end PairFormat

/-! ## Batches -/

/-- One item of a batch: its packed pairs, in a buffer that is always large enough. -/
theorem parsePairsItem_eq (p : PairFormat) {item : Bytes} (hitem : item.length < 2 ^ 32)
    (out scratch : Bytes) :
    ∃ scratch', parsePairsItem p.parseInto (out, scratch) item =
      .ok (out ++ packedComponent (packedText (p.pairs item)), scratch') := by
  have hbound := p.length_packedText_le_bound item
  unfold parsePairsItem
  dsimp only
  generalize hbuf : scratch ++ List.replicate
    (saturatingAddSize (saturatingMulSize item.length 9) 16 - scratch.length) 0 = buf
  have hfits : (packedText (p.pairs item)).length ≤ buf.length := by
    have hcap : saturatingAddSize (saturatingMulSize item.length 9) 16 = item.length * 9 + 16 := by
      unfold saturatingAddSize saturatingMulSize
      omega
    rw [← hbuf, hcap, List.length_append, List.length_replicate]
    omega
  rw [p.parseInto_eq (p.packable_pairs hitem).1, Out.put_of_le hfits]
  exact ⟨_, rfl⟩

/-- **A batch of queries or cookies** gives the packed pairs of each item: no item runs out of the
scratch buffer. -/
theorem parsePairsBatch_eq (p : PairFormat) {data : Bytes} {it : PackedIter}
    (hnew : PackedIter.new data = .ok it) :
    parsePairsBatch data p.parseInto =
      .ok (le32 (declared data) ++
        (items data).flatMap fun item => packedComponent (packedText (p.pairs item))) := by
  have hloop : ∀ (xs : List Bytes) (out scratch : Bytes), Packs xs → ∃ scratch',
      xs.foldlM (parsePairsItem p.parseInto) (out, scratch) = .ok (out ++
        xs.flatMap fun item => packedComponent (packedText (p.pairs item)), scratch') := by
    intro xs
    induction xs with
    | nil => exact fun out scratch _ => ⟨scratch, by rw [List.flatMap_nil, List.append_nil]; rfl⟩
    | cons item xs ih =>
      intro out scratch hpacks
      obtain ⟨hitem, hitems⟩ := List.forall_mem_cons.mp hpacks
      obtain ⟨scratch₁, hfirst⟩ := parsePairsItem_eq p hitem out scratch
      obtain ⟨scratch₂, hrest⟩ :=
        ih (out ++ packedComponent (packedText (p.pairs item))) scratch₁ hitems
      refine ⟨scratch₂, ?_⟩
      rw [List.foldlM_cons, hfirst, ok_bind, hrest, List.flatMap_cons, List.append_assoc]
  obtain ⟨-, -, rfl⟩ := PackedIter.new_eq_ok_iff.mp hnew
  obtain ⟨scratch', hrun⟩ := hloop (items data) (le32 (declared data)) []
    (frames_spec (declared data) (data.drop 4)).2.1
  rw [parsePairsBatch, hnew, ok_bind, forEach_of_new hnew]
  show (List.foldlM _ (le32 (declared data), []) (items data) >>= _) = _
  rw [hrun]
  rfl

/-! ## Sizes, results and bounds -/

/-- **The pair parsers**: up to `2 ^ 32` pairs a buffer of the size that is asked for is always
enough; what is written never depends on the buffer; and neither the allocating parser nor an item of
a batch ever runs out of the nine bytes for each byte of input, and 16. -/
theorem pairParsers_sizing (p : PairFormat) (input data : Bytes) :
    ((p.pairs input).length < 2 ^ 32 → ∀ out, p.packedSize input ≤ out.length →
      ∃ o, p.parseInto input out = .ok o) ∧
    (∀ out o, p.parseInto input out = .ok o → o.written = packedText (p.pairs input)) ∧
    (∀ out e, input.length * 9 + 16 ≤ out.length → p.parseInto input out ≠ .error (.fail e)) ∧
    (∀ e, p.packedVec input ≠ .error (.fail e)) ∧
    ∀ it, PackedIter.new data = .ok it → parsePairsBatch data p.parseInto =
      .ok (le32 (declared data) ++
        (items data).flatMap fun item => packedComponent (packedText (p.pairs item))) := by
  have hbound : ∀ out e, input.length * 9 + 16 ≤ out.length →
      p.parseInto input out ≠ .error (.fail e) := by
    intro out e hout
    have hfits : (packedText (p.pairs input)).length ≤ out.length :=
      (p.length_packedText_le_bound input).trans hout
    -- From 2 ^ 32 pairs on the count itself does not fit, and the writer panics rather than fails.
    rcases Nat.lt_or_ge (p.pairs input).length (2 ^ 32) with hcount | hcount
    · rw [p.parseInto_eq hcount, Out.put_of_le hfits]
      exact nofun
    · rw [(p.parseInto_overflow hcount out).2 hfits]
      exact nofun
  refine ⟨?_, ?_, hbound, ?_, fun it hnew => parsePairsBatch_eq p hnew⟩
  · intro hcount out hout
    have hfits : (packedText (p.pairs input)).length ≤ out.length :=
      (p.length_packedText_le_size input).trans hout
    exact ⟨_, by rw [p.parseInto_eq hcount, Out.put_of_le hfits]; rfl⟩
  · intro out o ho
    rcases Nat.lt_or_ge (p.pairs input).length (2 ^ 32) with hcount | hcount
    · rw [p.parseInto_eq hcount, orFail_eq_ok_iff] at ho
      exact (Out.put_eq_some_iff.mp ho).2.1
    · exact absurd ho ((p.parseInto_overflow hcount out).1 o)
  · intro e he
    rw [p.packedVec_eq] at he
    cases hparse : p.parseInto input (List.replicate (input.length * 9 + 16) 0) with
    | ok o =>
      rw [hparse] at he
      nomatch he
    | error e' =>
      rw [hparse] at he
      obtain rfl : e' = .fail e := Except.error.inj he
      exact hbound _ e (by rw [List.length_replicate]) hparse

/-- `a=%41&&b`, in a buffer of its size. -/
theorem pairParsers_sizing_sample :
    ∃ o, PairFormat.query.parseInto [97, 61, 37, 52, 49, 38, 38, 98]
      (List.replicate 23 0) = .ok o :=
  (pairParsers_sizing .query [97, 61, 37, 52, 49, 38, 38, 98] []).1 (by decide +kernel) _
    (by decide +kernel)

/-- `n` times `a&`. -/
theorem segments_repeated (n : Nat) :
    segments ((List.replicate n [97, 38]).flatten.splitOn (38 : UInt8)) = List.replicate n [97] := by
  induction n with
  | zero => rfl
  | succ n ih =>
    have hsplit := List.splitOn_append_cons_self [97] (List.replicate n [97, 38]).flatten
      (a := (38 : UInt8))
    rw [List.replicate_succ, List.flatten_cons]
    show segments (List.splitOn 38 ([97] ++ 38 :: (List.replicate n [97, 38]).flatten)) = _
    rw [hsplit, show List.splitOn (38 : UInt8) [97] = [[97]] from rfl, List.singleton_append,
      List.replicate_succ, ← ih]
    rfl

/-- The count of `2 ^ 32` pairs overflows, whatever the buffer. -/
theorem queryParse_counts_32_bits :
    (PairFormat.query.parseInto (List.replicate (2 ^ 32) [97, 38]).flatten
      (List.replicate (PairFormat.query.packedSize (List.replicate (2 ^ 32) [97, 38]).flatten) 0)) =
        .error .panic := by
  have hcount : 2 ^ 32 ≤ (PairFormat.query.pairs (List.replicate (2 ^ 32) [97, 38]).flatten).length := by
    rw [PairFormat.pairs, queryPairs, segments_repeated, List.length_map, List.length_replicate]
  apply (PairFormat.query.parseInto_overflow hcount _).2
  rw [List.length_replicate]
  exact PairFormat.query.length_packedText_le_size _

end Castrum
