import Castrum.Http.QueryParser

/-!
# Castrum — queries as JSON (`rust/json/json_ser.rs`)

The hot path writes a query as JSON in one pass; the pipeline it replaced packed the pairs first and
converted them in a second step. Both write the object of the decoded pairs.

* `queryToJsonIntoSlice_eq` — the one-pass writer;
* `packedPairsToJsonIntoSlice_eq` — the second step, on pairs whose packed form holds them;
* `queryToJson_agrees` — the two pipelines.
-/

namespace Castrum

open Ascii

/-! ## One pass -/

inductive QueryJsonError where
  | bufferTooSmall
  deriving DecidableEq, Repr

/-- Decode onto the end of the scratch buffer, grown by the raw length first. -/
def decodeQueryComponent (src scratch : Bytes) : Except (Failure QueryJsonError) Bytes :=
  match decodeFormComponentInto src (List.replicate src.length 0) with
  | .ok part => .ok (scratch ++ part.written)
  | .error _ => .error (.fail .bufferTooSmall)

/-- The loop over the segments, `written` pairs being there already. -/
def queryJsonFrom (maxPairs : Nat) :
    List Bytes → Out UInt8 → Nat → Except (Failure QueryJsonError) (Out UInt8)
  | [], out, _ => .ok out
  | pair :: pairs, out, written =>
    if pair = [] then queryJsonFrom maxPairs pairs out written
    else if maxPairs ≤ written then .ok out
    else if (memchr2 pair).isNone then
      -- nothing to decode
      match writeJsonPair .bufferTooSmall out written (cutPair pair).1 (cutPair pair).2 with
      | .error f => .error f
      | .ok out => queryJsonFrom maxPairs pairs out (written + 1)
    else
      match decodeQueryComponent (cutPair pair).1 [] with
      | .error f => .error f
      | .ok name =>
        match decodeQueryComponent (cutPair pair).2 name with
        | .error f => .error f
        | .ok scratch =>
          match writeJsonPair .bufferTooSmall out written (scratch.take name.length)
              (scratch.drop name.length) with
          | .error f => .error f
          | .ok out => queryJsonFrom maxPairs pairs out (written + 1)

def queryToJsonIntoSlice (input out : Bytes) (maxPairs : Nat) :
    Except (Failure QueryJsonError) (Out UInt8) := do
  let out ← openObject .bufferTooSmall out
  let out ← queryJsonFrom maxPairs (input.splitOn 38) out 0
  closeObject .bufferTooSmall out

theorem decodeQueryComponent_eq (src scratch : Bytes) :
    decodeQueryComponent src scratch = .ok (scratch ++ formDecode src) := by
  have hfit : (formDecode src).length ≤ (Out.new (List.replicate src.length (0 : UInt8))).room.length := by
    show _ ≤ (List.replicate _ _).length
    rw [List.length_replicate]
    exact formDecode_length_le src
  rw [decodeQueryComponent, decodeFormComponentInto_eq, Out.put_of_le hfit]
  rfl

theorem formDecode_of_plain {src : Bytes} (h : ∀ b ∈ src, isFormSpecial b = false) :
    formDecode src = src := by
  rw [formDecode, if_pos]
  rw [List.any_eq_false]
  intro b hb
  rw [h b hb]
  exact Bool.false_ne_true

theorem mem_cutPair {pair : Bytes} {b : UInt8} (h : b ∈ (cutPair pair).1 ∨ b ∈ (cutPair pair).2) :
    b ∈ pair := by
  unfold cutPair at h
  cases hcut : cutAt 61 pair with
  | none =>
    rw [hcut] at h
    exact h.resolve_right List.not_mem_nil
  | some r =>
    obtain ⟨-, heq⟩ := cutAt_eq_some_iff.mp hcut
    rw [hcut, Option.getD_some] at h
    rw [heq, List.mem_append, List.mem_cons]
    tauto

/-- The loop writes the pairs that are still to come, as far as `maxPairs` allows. -/
theorem queryJsonFrom_eq (maxPairs : Nat) (pairs : List Bytes) (out : Out UInt8) (written : Nat) :
    queryJsonFrom maxPairs pairs out written =
      writePairs .bufferTooSmall written out
        (((segments pairs).map queryPair).take (maxPairs - written)) := by
  induction pairs generalizing out written with
  | nil =>
    rw [queryJsonFrom, show segments [] = [] from rfl, List.map_nil, List.take_nil]
    rfl
  | cons pair pairs ih =>
    rw [queryJsonFrom]
    by_cases hpair : pair = []
    · rw [if_pos hpair, ih, show segments (pair :: pairs) = segments pairs from
        List.filter_cons_of_neg (by simpa using hpair)]
    rw [if_neg hpair, show segments (pair :: pairs) = pair :: segments pairs from
      List.filter_cons_of_pos (by simpa using hpair), List.map_cons]
    by_cases hmax : maxPairs ≤ written
    · rw [if_pos hmax, Nat.sub_eq_zero_of_le hmax, List.take_zero]
      rfl
    rw [if_neg hmax, show maxPairs - written = (maxPairs - (written + 1)) + 1 by omega,
      List.take_succ_cons, writePairs]
    by_cases hplain : (memchr2 pair).isNone = true
    · -- nothing to decode in the pair: it is written as it stands
      have hnone : ∀ b ∈ pair, isFormSpecial b = false :=
        List.findIdx?_eq_none_iff.mp (Option.isNone_iff_eq_none.mp hplain)
      have hpairEq : queryPair pair = cutPair pair := by
        rw [queryPair, formDecode_of_plain fun b hb => hnone b (mem_cutPair (.inl hb)),
          formDecode_of_plain fun b hb => hnone b (mem_cutPair (.inr hb))]
      rw [if_pos hplain, hpairEq]
      cases writeJsonPair _ out written (cutPair pair).1 (cutPair pair).2 with
      | error f => rfl
      | ok out => exact ih out (written + 1)
    · rw [if_neg hplain]
      simp only [decodeQueryComponent_eq, List.nil_append, List.take_left, List.drop_left,
        queryPair]
      cases writeJsonPair _ out written (formDecode (cutPair pair).1)
          (formDecode (cutPair pair).2) with
      | error f => rfl
      | ok out => exact ih out (written + 1)

/-- **The one-pass writer** writes the object of the first pairs, or reports that it does not
fit. -/
theorem queryToJsonIntoSlice_eq (input out : Bytes) (maxPairs : Nat) :
    queryToJsonIntoSlice input out maxPairs =
      orFail (.fail .bufferTooSmall)
        ((Out.new out).put (objectText ((queryPairs input).take maxPairs))) := by
  unfold queryToJsonIntoSlice
  simp only [queryJsonFrom_eq, Nat.sub_zero]
  exact writeObject_eq _ out _

/-! ## Two steps -/

def pairsTooSmall : String := "output buffer too small for packed pairs JSON"

/-- One length-prefixed part of a packed pair, and the offset behind it. -/
def readPackedPart (packed : Bytes) (src : Nat) (what : String) :
    Except (Failure String) (Bytes × Nat) :=
  match readU32 packed src with
  | none => .error (.fail ("packed pairs: truncated " ++ what ++ " length"))
  | some len =>
    if packed.length < src + 4 + len then .error (.fail ("packed pairs: truncated " ++ what))
    else .ok ((packed.drop (src + 4)).take len, src + 4 + len)

/-- The loop over the packed pairs, `written` of them being done. -/
def packedJsonFrom (packed : Bytes) (maxPairs : Nat) :
    Nat → Nat → Out UInt8 → Nat → Except (Failure String) (Out UInt8)
  | 0, _, out, _ => .ok out
  | n + 1, src, out, written =>
    if maxPairs ≤ written then .ok out
    else
      match readPackedPart packed src "key" with
      | .error f => .error f
      | .ok (name, src) =>
        match readPackedPart packed src "value" with
        | .error f => .error f
        | .ok (value, src) =>
          match writeJsonPair pairsTooSmall out written name value with
          | .error f => .error f
          | .ok out => packedJsonFrom packed maxPairs n src out (written + 1)

def packedPairsToJsonIntoSlice (packed out : Bytes) (maxPairs : Nat) :
    Except (Failure String) (Out UInt8) :=
  if out.length < 2 then .error (.fail pairsTooSmall)
  else if packed.length < 4 then orFail .panic ((Out.new out).put [lbrace, rbrace])
  else do
    let count ← orFail (.fail "packed pairs: truncated count") (readU32 packed 0)
    let out ← openObject pairsTooSmall out
    let out ← packedJsonFrom packed maxPairs count 4 out 0
    closeObject pairsTooSmall out

theorem readPackedPart_append {c : Bytes} (hc : c.length < 2 ^ 32) (before behind : Bytes)
    (what : String) :
    readPackedPart (before ++ (packedComponent c ++ behind)) before.length what =
      .ok (c, before.length + (packedComponent c).length) := by
  have hshape : before ++ (packedComponent c ++ behind) =
      before ++ (le32 c.length ++ (c ++ behind)) := by
    rw [packedComponent, List.append_assoc]
  have hlen : (packedComponent c).length = 4 + c.length := by
    rw [packedComponent, List.length_append, length_le32]
  have hdrop : (before ++ (le32 c.length ++ (c ++ behind))).drop (before.length + 4) =
      c ++ behind := by
    rw [← List.drop_drop, List.drop_left, ← length_le32 c.length, List.drop_left]
  rw [readPackedPart, hshape, readU32_append]
  simp only [Nat.mod_eq_of_lt hc]
  rw [if_neg (by simp only [List.length_append, length_le32]; omega), hdrop, List.take_left, hlen,
    Nat.add_assoc]

/-- The loop reads the packed pairs back and writes them. Induction on the pairs still to come. -/
theorem packedJsonFrom_eq (maxPairs : Nat) {ps : List (Bytes × Bytes)}
    (hps : ∀ p ∈ ps, p.1.length < 2 ^ 32 ∧ p.2.length < 2 ^ 32) (before : Bytes)
    (out : Out UInt8) (written : Nat) :
    packedJsonFrom (before ++ packedPairs ps) maxPairs ps.length before.length out written =
      writePairs pairsTooSmall written out (ps.take (maxPairs - written)) := by
  induction ps generalizing before out written with
  | nil => rw [List.length_nil, packedJsonFrom, List.take_nil]; rfl
  | cons p ps ih =>
    rw [List.length_cons, packedJsonFrom]
    by_cases hmax : maxPairs ≤ written
    · rw [if_pos hmax, Nat.sub_eq_zero_of_le hmax, List.take_zero]
      rfl
    obtain ⟨hname, hvalue⟩ := hps p List.mem_cons_self
    rw [if_neg hmax, show maxPairs - written = (maxPairs - (written + 1)) + 1 by omega,
      List.take_succ_cons, writePairs]
    -- what has been read moves to the front, one component at a time
    have hfirst : before ++ packedPairs (p :: ps) =
        before ++ (packedComponent p.1 ++ (packedComponent p.2 ++ packedPairs ps)) := by
      rw [packedPairs, List.flatMap_cons, List.append_assoc]
      rfl
    have hsecond : before ++ (packedComponent p.1 ++ (packedComponent p.2 ++ packedPairs ps)) =
        (before ++ packedComponent p.1) ++ (packedComponent p.2 ++ packedPairs ps) := by
      rw [List.append_assoc]
    have hthird : (before ++ packedComponent p.1) ++ (packedComponent p.2 ++ packedPairs ps) =
        (before ++ packedComponent p.1 ++ packedComponent p.2) ++ packedPairs ps := by
      rw [List.append_assoc (before ++ packedComponent p.1)]
    rw [hfirst, readPackedPart_append hname]
    dsimp only
    rw [hsecond, ← List.length_append, readPackedPart_append hvalue]
    dsimp only
    rw [hthird, ← List.length_append]
    cases writeJsonPair pairsTooSmall out written p.1 p.2 with
    | error f => rfl
    | ok out => exact ih (fun q hq => hps q (List.mem_cons_of_mem _ hq)) _ out (written + 1)

/-- **The second step**, on pairs that can be packed. -/
theorem packedPairsToJsonIntoSlice_eq {ps : List (Bytes × Bytes)} (h : Packable ps) (out : Bytes)
    (maxPairs : Nat) :
    packedPairsToJsonIntoSlice (packedText ps) out maxPairs =
      orFail (.fail pairsTooSmall) ((Out.new out).put (objectText (ps.take maxPairs))) := by
  have hcount : readU32 (packedText ps) 0 = some ps.length := by
    have hread := readU32_append ps.length [] (packedPairs ps)
    rw [Nat.mod_eq_of_lt h.1] at hread
    exact hread
  have hlen : ¬ (packedText ps).length < 4 := by
    rw [packedText, List.length_append, length_le32]
    omega
  have hloop : ∀ o, packedJsonFrom (packedText ps) maxPairs ps.length 4 o 0 =
      writePairs pairsTooSmall 0 o (ps.take maxPairs) := by
    intro o
    have hfrom := packedJsonFrom_eq maxPairs h.2 (le32 ps.length) o 0
    rw [length_le32, Nat.sub_zero] at hfrom
    exact hfrom
  unfold packedPairsToJsonIntoSlice
  by_cases htwo : out.length < 2
  · have hobject := two_le_length_objectText (ps.take maxPairs)
    rw [if_pos htwo, Out.put_of_lt (by show out.length < _; omega)]
    rfl
  · rw [if_neg htwo, if_neg hlen, hcount]
    rw [← writeObject_eq, orFail_some]
    show (do
      let out ← openObject pairsTooSmall out
      let out ← packedJsonFrom (packedText ps) maxPairs ps.length 4 out 0
      closeObject pairsTooSmall out) = _
    simp only [hloop]

/-- **The two pipelines agree.** The one-pass writer writes the object of the first `maxPairs`
decoded pairs, a JSON text, or reports exactly that it does not fit; and so does the conversion of
the packed pairs, if the packed form can hold them. -/
theorem queryToJson_agrees (input out : Bytes) (maxPairs : Nat) :
    let pairs := (queryPairs input).take maxPairs
    (∀ o, queryToJsonIntoSlice input out maxPairs = .ok o ↔
      (Out.new out).put (objectText pairs) = some o) ∧
    (queryToJsonIntoSlice input out maxPairs = .error (.fail .bufferTooSmall) ↔
      out.length < (objectText pairs).length) ∧
    (IsText (.obj (pairs.map memberOf)) (objectText pairs) ∧
      ∀ p ∈ pairs, ReadsAs (escaped p.1) p.1 ∧ ReadsAs (escaped p.2) p.2) ∧
    (Packable (queryPairs input) → ∃ packed, queryParsePackedVec input = .ok packed ∧
      ∀ o, queryToJsonIntoSlice input out maxPairs = .ok o ↔
        packedPairsToJsonIntoSlice packed out maxPairs = .ok o) := by
  intro pairs
  have heq := queryToJsonIntoSlice_eq input out maxPairs
  refine ⟨?_, ?_, ⟨objectText_isText pairs, fun p _ => ⟨decodes_escaped _, decodes_escaped _⟩⟩, ?_⟩
  · intro o
    rw [heq, orFail_eq_ok_iff]
  · rw [heq]
    cases hput : (Out.new out).put (objectText pairs) with
    | none => exact iff_of_true rfl (Out.put_eq_none_iff.mp hput)
    | some o =>
      have hfit := (Out.put_eq_some_iff.mp hput).1
      exact iff_of_false nofun (Nat.not_lt.mpr hfit)
  · intro hpack
    refine ⟨packedText (queryPairs input), queryParsePackedVec_eq input hpack.1, ?_⟩
    intro o
    rw [heq, packedPairsToJsonIntoSlice_eq hpack, orFail_eq_ok_iff, orFail_eq_ok_iff]

/-- The query `a=%C3%A9&b` and a buffer that holds its object. -/
theorem queryToJson_agrees_accent :
    ∃ packed o, queryParsePackedVec [97, 61, 37, 67, 51, 37, 65, 57, 38, 98] = .ok packed ∧
      packedPairsToJsonIntoSlice packed (List.replicate 32 0) 2 = .ok o ∧
      queryToJsonIntoSlice [97, 61, 37, 67, 51, 37, 65, 57, 38, 98] (List.replicate 32 0) 2 =
        .ok o := by
  have hpairs : queryPairs [97, 61, 37, 67, 51, 37, 65, 57, 38, 98] =
      [([97], [195, 169]), ([98], [])] := by decide +kernel
  have hpack : Packable (queryPairs [97, 61, 37, 67, 51, 37, 65, 57, 38, 98]) := by
    rw [hpairs]
    unfold Packable
    decide +kernel
  obtain ⟨hok, -, -, hagree⟩ := queryToJson_agrees [97, 61, 37, 67, 51, 37, 65, 57, 38, 98]
    (List.replicate 32 0) 2
  obtain ⟨packed, hpacked, hiff⟩ := hagree hpack
  obtain ⟨o, ho⟩ : ∃ o, queryToJsonIntoSlice [97, 61, 37, 67, 51, 37, 65, 57, 38, 98]
      (List.replicate 32 0) 2 = .ok o := ⟨_, (hok _).mpr (Out.put_of_le (by
        rw [hpairs]
        decide +kernel))⟩
  exact ⟨packed, o, hpacked, (hiff o).mp ho, ho⟩

/-! ## Beyond 32 bits -/

theorem queryPairs_replicate {n : Nat} (hn : n ≠ 0) :
    queryPairs (List.replicate n 97) = [(List.replicate n 97, [])] := by
  have hnot : ∀ b : UInt8, b ≠ 97 → b ∉ List.replicate n 97 :=
    fun b hb hmem => hb (List.eq_of_mem_replicate hmem)
  have hne : List.replicate n (97 : UInt8) ≠ [] := by
    rw [Ne, List.replicate_eq_nil_iff]
    exact hn
  have hcut : cutPair (List.replicate n 97) = (List.replicate n 97, []) := by
    rw [cutPair, cutAt_eq_none_iff.mpr (hnot 61 (by decide))]
    rfl
  have hplain : formDecode (List.replicate n 97) = List.replicate n 97 := by
    apply formDecode_of_plain
    intro b hb
    rw [List.eq_of_mem_replicate hb]
    rfl
  rw [queryPairs, List.splitOn_eq_singleton (hnot 38 (by decide)),
    show segments [List.replicate n 97] = [List.replicate n 97] from
      List.filter_cons_of_pos (by simpa using hne), List.map_singleton, queryPair, hcut, hplain]
  rfl

theorem escaped_replicate (n : Nat) : escaped (List.replicate n 97) = List.replicate n 97 := by
  have hvalid : validUtf8 (List.replicate n 97) = true := by
    apply validUtf8_ascii
    intro b hb
    rw [List.eq_of_mem_replicate hb]
    decide
  rw [escaped, if_pos hvalid]
  apply flatMap_eq_self
  intro b hb
  rw [List.eq_of_mem_replicate hb]
  rfl

/-- A component of `2 ^ 32` bytes is packed behind a length of zero; its first four bytes are then
read as the length of the value. -/
theorem packedJsonFrom_truncated {n m : Nat} (hn : n % 2 ^ 32 = 0)
    (hm : wordOf (List.replicate 4 97) = m) (hle : m + 4 ≤ n) (out : Out UInt8) :
    packedJsonFrom (packedText [(List.replicate n 97, [])]) 1 1 4 out 0 =
      writePairs pairsTooSmall 0 out [([], List.replicate m 97)] := by
  obtain ⟨k, rfl⟩ : ∃ k, n = 4 + k := ⟨n - 4, by omega⟩
  have hshape : packedText [(List.replicate (4 + k) 97, [])] =
      (le32 1 ++ le32 (4 + k)) ++
        (List.replicate 4 97 ++ (List.replicate k 97 ++ le32 0)) := by
    rw [packedText, packedPairs, List.flatMap_singleton, packedComponent, packedComponent,
      List.length_replicate, List.replicate_add]
    simp only [List.length_singleton, List.length_nil, List.append_nil, List.append_assoc]
  -- the length of the name has wrapped to zero, so that no byte is taken for it
  have hkey : readPackedPart (packedText [(List.replicate (4 + k) 97, [])]) 4 "key" =
      .ok ([], 8) := by
    have hread := readU32_append (4 + k) (le32 1)
      (List.replicate 4 97 ++ (List.replicate k 97 ++ le32 0))
    rw [← List.append_assoc, ← hshape, hn, length_le32] at hread
    have hlen : ¬ (packedText [(List.replicate (4 + k) 97, [])]).length < 4 + 4 + 0 := by
      rw [hshape]
      simp only [List.length_append, length_le32]
      omega
    rw [readPackedPart, hread]
    dsimp only
    rw [if_neg hlen, List.take_zero]
  -- its first four bytes are read as the length of the value
  have hvalue : readPackedPart (packedText [(List.replicate (4 + k) 97, [])]) 8 "value" =
      .ok (List.replicate m 97, 12 + m) := by
    have hread := readWord_append (show (List.replicate 4 (97 : UInt8)).length = 4 from rfl)
      (le32 1 ++ le32 (4 + k)) (List.replicate k 97 ++ le32 0)
    rw [← hshape, hm, show (le32 1 ++ le32 (4 + k)).length = 8 from rfl] at hread
    have hlen : ¬ (packedText [(List.replicate (4 + k) 97, [])]).length < 8 + 4 + m := by
      rw [hshape]
      simp only [List.length_append, length_le32, List.length_replicate]
      omega
    have hdrop : (packedText [(List.replicate (4 + k) 97, [])]).drop 12 =
        List.replicate k 97 ++ le32 0 := by
      rw [hshape, show 12 = 8 + 4 from rfl, ← List.drop_drop,
        List.drop_left' (show (le32 1 ++ le32 (4 + k)).length = 8 from rfl),
        List.drop_left' List.length_replicate]
    rw [readPackedPart, readU32, hread]
    dsimp only
    rw [if_neg hlen, hdrop, List.take_append_of_le_length (by
      rw [List.length_replicate]
      omega), List.take_replicate, Nat.min_eq_left (by omega)]
  rw [packedJsonFrom, if_neg (by decide), hkey]
  dsimp only
  rw [hvalue]
  dsimp only
  rw [writePairs]
  cases writeJsonPair pairsTooSmall out 0 [] (List.replicate m 97) <;> rfl

/-- The two pipelines on a single component whose length is a multiple of `2 ^ 32`. -/
theorem queryToJson_packed_differs {n size m : Nat} (hmod : n % 2 ^ 32 = 0) (hn : n ≠ 0)
    (hm : wordOf (List.replicate 4 97) = m) (hle : m + 4 ≤ n) (hsize : n + 7 ≤ size) :
    ∃ packed o o', queryParsePackedVec (List.replicate n 97) = .ok packed ∧
      queryToJsonIntoSlice (List.replicate n 97) (List.replicate size 0) 1 = .ok o ∧
      packedPairsToJsonIntoSlice packed (List.replicate size 0) 1 = .ok o' ∧
      o.written ≠ o'.written := by
  have hpairs := queryPairs_replicate hn
  have hone : objectText [(List.replicate n 97, [])] =
      lbrace :: quote :: (List.replicate n 97 ++ [quote, colon, quote, quote, rbrace]) := by
    have hesc := escaped_replicate n
    simp [objectText, pairsText, pairText, memberText, hesc]
    rfl
  have htwo : objectText [([], List.replicate m 97)] =
      lbrace :: quote :: quote :: colon :: quote :: (List.replicate m 97 ++ [quote, rbrace]) := by
    have hesc := escaped_replicate m
    simp [objectText, pairsText, pairText, memberText, hesc]
    rfl
  have hfit : ∀ text : Bytes, text.length ≤ size →
      (Out.new (List.replicate size (0 : UInt8))).put text =
        some { written := text, room := (List.replicate size 0).drop text.length } := by
    intro text htext
    rw [Out.put_of_le (by show _ ≤ (List.replicate _ _).length; rwa [List.length_replicate])]
    rfl
  -- the packed text carries the length of the key modulo `2 ^ 32`, which is 0
  have hpacked : queryParsePackedVec (List.replicate n 97) =
      .ok (packedText [(List.replicate n 97, [])]) := by
    rw [queryParsePackedVec_eq _ (by rw [hpairs]; exact Nat.one_lt_two_pow (by decide)), hpairs]
  have hdirect : queryToJsonIntoSlice (List.replicate n 97) (List.replicate size 0) 1 =
      .ok { written := objectText [(List.replicate n 97, [])],
            room := (List.replicate size 0).drop
              (objectText [(List.replicate n 97, [])]).length } := by
    rw [queryToJsonIntoSlice_eq, hpairs, show List.take 1 [(List.replicate n (97 : UInt8), ([] : Bytes))] =
      [(List.replicate n 97, [])] from rfl, hfit _ (by
      rw [hone]
      simp only [List.length_cons, List.length_append, List.length_replicate, List.length_nil]
      omega)]
    rfl
  have hsecond : packedPairsToJsonIntoSlice (packedText [(List.replicate n 97, [])])
      (List.replicate size 0) 1 =
      .ok { written := objectText [([], List.replicate m 97)],
            room := (List.replicate size 0).drop
              (objectText [([], List.replicate m 97)]).length } := by
    have hcount : readU32 (packedText [(List.replicate n 97, [])]) 0 = some 1 :=
      readU32_append 1 [] _
    have hlen : ¬ (packedText [(List.replicate n 97, [])]).length < 4 := by
      rw [packedText, List.length_append, length_le32]
      omega
    have hout : ¬ (List.replicate size (0 : UInt8)).length < 2 := by
      rw [List.length_replicate]
      omega
    unfold packedPairsToJsonIntoSlice
    rw [if_neg hout, if_neg hlen, hcount, orFail_some]
    show (do
      let out ← openObject pairsTooSmall (List.replicate size 0)
      let out ← packedJsonFrom (packedText [(List.replicate n 97, [])]) 1 1 4 out 0
      closeObject pairsTooSmall out) = _
    -- so the key is read as empty, and its first four bytes as the length of the value
    simp only [packedJsonFrom_truncated hmod hm hle]
    rw [writeObject_eq, hfit _ (by
      rw [htwo]
      simp only [List.length_cons, List.length_append, List.length_replicate, List.length_nil]
      omega)]
    rfl
  refine ⟨_, _, _, hpacked, hdirect, hsecond, ?_⟩
  dsimp only
  rw [hone, htwo]
  obtain ⟨k, rfl⟩ : ∃ k, n = k + 1 := ⟨n - 1, by omega⟩
  rw [List.replicate_succ]
  intro heq
  have hletter : (97 : UInt8) = quote := (List.cons.inj (List.cons.inj (List.cons.inj heq).2).2).1
  exact absurd hletter (by decide)

/-- **A query that the packed form cannot hold.** The one-pass writer makes the `2 ^ 32` bytes a
name; the packed pairs have an empty name, and part of the bytes as its value. -/
theorem queryToJson_packed_truncates :
    ∃ packed o o', queryParsePackedVec (List.replicate (2 ^ 32) 97) = .ok packed ∧
      queryToJsonIntoSlice (List.replicate (2 ^ 32) 97) (List.replicate (2 ^ 33) 0) 1 = .ok o ∧
      packedPairsToJsonIntoSlice packed (List.replicate (2 ^ 33) 0) 1 = .ok o' ∧
      o.written ≠ o'.written :=
  queryToJson_packed_differs (m := 1633771873) (by decide) (by decide) (by decide) (by decide)
    (by decide)

end Castrum
