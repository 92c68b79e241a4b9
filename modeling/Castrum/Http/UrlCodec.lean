import Castrum.Http.FormSpec
import Castrum.Http.QueryParser
import Castrum.Http.UrlJoin

/-!
# Castrum — percent-encoding (`rust/http/url_codec.rs`, `url_encode_query` of `rust/http/url_join.rs`)

Every byte but the unreserved ones is written `%XX`. The codec works on runs: what lies between two
bytes of interest is copied as a whole.

* `urlEncode_eq` / `urlEncodeIntoSlice_eq` — the loops against the encoding, byte by byte;
* `urlDecodeBytes_eq` / `urlDecodeIntoSlice_eq` — the decoders against `unescapeBytes`;
* `urlDecode_eq` — the decoder for text takes UTF-8 only;
* `urlEncodeQuery_eq` — the written query;
* `urlCodec_roundtrip` — what comes back, of a query and of any bytes.
-/

namespace Castrum

/-! ## The source functions -/

inductive UrlError where
  /-- `packed output: buffer too small`. -/
  | tooSmall
  /-- `invalid %-encoding: malformed %XX sequence`. -/
  | malformed
  /-- What the UTF-8 validator says. -/
  | notUtf8
  deriving DecidableEq, Repr

/-- The bytes that stand for themselves. -/
def isUnreserved (b : UInt8) : Bool :=
  (65 ≤ b && b ≤ 90) || (97 ≤ b && b ≤ 122) || (48 ≤ b && b ≤ 57) || b = 45 || b = 95 || b = 46 ||
    b = 33 || b = 126 || b = 42 || b = 0x27 || b = 40 || b = 41

def hexUpper : Bytes := [48, 49, 50, 51, 52, 53, 54, 55, 56, 57, 65, 66, 67, 68, 69, 70]

/-- `%XX`. -/
def percentEscape (b : UInt8) : Bytes :=
  [37, hexUpper.getD (b >>> 4).toNat 0, hexUpper.getD (b &&& 0x0f).toNat 0]

/-- The loop of `url_encode_bytes`: what is left, the run that is not copied yet, the output. -/
def urlEncodeFrom : Bytes → Bytes → Bytes → Bytes
  | [], run, out => out ++ run
  | b :: rest, run, out =>
    if isUnreserved b = false then urlEncodeFrom rest [] (out ++ run ++ percentEscape b)
    else urlEncodeFrom rest (run ++ [b]) out

def urlEncode (input : Bytes) : Bytes := urlEncodeFrom input [] []

def urlEncodeIntoFrom : Bytes → Bytes → Out UInt8 → Except UrlError (Out UInt8)
  | [], run, out => orFail .tooSmall (out.put run)
  | b :: rest, run, out =>
    if isUnreserved b = false then do
      let out ← orFail .tooSmall (out.put run)
      let out ← orFail .tooSmall (out.put (percentEscape b))
      urlEncodeIntoFrom rest [] out
    else urlEncodeIntoFrom rest (run ++ [b]) out

def urlEncodeIntoSlice (input out : Bytes) : Except UrlError (Out UInt8) :=
  urlEncodeIntoFrom input [] (Out.new out)

/-- `memchr(b'%', ..)`. -/
def memchrPercent (bytes : Bytes) : Option Nat := bytes.findIdx? (· = 37)

/-- The loop of `url_decode_bytes_vec`, on what is left; whether a high byte was seen. -/
def urlDecodeFrom : Nat → Bytes → Bytes → Bool → Except UrlError (Bytes × Bool)
  | 0, rest, out, sawHigh => .ok (out ++ rest, sawHigh || anyHigh rest)
  | n + 1, rest, out, sawHigh =>
    match memchrPercent rest with
    | some rel =>
      match decodePercentAt rest rel with
      | none => .error .malformed
      | some (b, next) =>
        urlDecodeFrom n (rest.drop next) (out ++ rest.take rel ++ [b])
          (sawHigh || anyHigh (rest.take rel) || decide (0x80 ≤ b))
    | none => .ok (out ++ rest, sawHigh || anyHigh rest)

def urlDecodeBytesVec (input : Bytes) : Except UrlError (Bytes × Bool) :=
  urlDecodeFrom input.length input [] false

/-- `url_decode_bytes`: any bytes may come out. -/
def urlDecodeBytes (input : Bytes) : Except UrlError Bytes := (urlDecodeBytesVec input).map (·.1)

/-- `url_decode`: text has to come out. -/
def urlDecode (input : Bytes) : Except UrlError Bytes := do
  let (out, sawHigh) ← urlDecodeBytesVec input
  if sawHigh = true ∧ validUtf8 out = false then .error .notUtf8 else .ok out

def urlDecodeIntoFrom : Nat → Bytes → Out UInt8 → Except UrlError (Out UInt8)
  | 0, rest, out => orFail .tooSmall (out.put rest)
  | n + 1, rest, out =>
    match memchrPercent rest with
    | some rel => do
      let out ← orFail .tooSmall (out.put (rest.take rel))
      let (b, next) ← orFail .malformed (decodePercentAt rest rel)
      let out ← orFail .tooSmall (out.put [b])
      urlDecodeIntoFrom n (rest.drop next) out
    | none => orFail .tooSmall (out.put rest)

def urlDecodeIntoSlice (input out : Bytes) : Except UrlError (Out UInt8) :=
  urlDecodeIntoFrom input.length input (Out.new out)

/-- The component behind the output, and the scratch buffer, which only grows. -/
def encodeQueryComponent (input scratch out : Bytes) : Except UrlError (Bytes × Bytes) := do
  let scratch :=
    if scratch.length < input.length * 3 then
      scratch ++ List.replicate (input.length * 3 - scratch.length) 0
    else scratch
  let part ← urlEncodeIntoSlice input scratch
  .ok (part.bytes, out ++ part.written)

/-- The loop of `url_encode_query`; `i` is the number of pairs before. -/
def encodePairsFrom : List (Str × Str) → Nat → Bytes → Bytes → Except UrlError Bytes
  | [], _, _, out => .ok out
  | (k, v) :: params, i, scratch, out => do
    let out := if 0 < i then out ++ [38] else out
    let (scratch, out) ← encodeQueryComponent (utf8Of k) scratch out
    let (scratch, out) ← encodeQueryComponent (utf8Of v) scratch (out ++ [61])
    encodePairsFrom params (i + 1) scratch out

/-- `BTreeMap<String, String>` is walked by its keys, bytewise: as the characters are ordered. -/
def urlEncodeQuery (params : Std.TreeMap Str Str) : Except UrlError Bytes :=
  encodePairsFrom params.toList 0 [] []

/-! ## Encoding -/

/-- One byte of the encoding. -/
def encodedByte (b : UInt8) : Bytes := if isUnreserved b = false then percentEscape b else [b]

def encoded (input : Bytes) : Bytes := input.flatMap encodedByte

theorem urlEncodeFrom_eq (rest run out : Bytes) :
    urlEncodeFrom rest run out = out ++ (run ++ encoded rest) := by
  induction rest generalizing run out with
  | nil => simp [urlEncodeFrom, encoded]
  | cons b rest ih =>
    rw [urlEncodeFrom, encoded, List.flatMap_cons, encodedByte]
    split
    · rw [ih, List.nil_append, List.append_assoc, List.append_assoc]
      rfl
    · rw [ih, List.append_assoc]
      rfl

/-- **The allocating encoder** writes the encoding of each byte. -/
theorem urlEncode_eq (input : Bytes) : urlEncode input = encoded input :=
  urlEncodeFrom_eq input [] []

theorem urlEncodeIntoFrom_eq (rest run : Bytes) (out : Out UInt8) :
    urlEncodeIntoFrom rest run out = orFail .tooSmall (out.put (run ++ encoded rest)) := by
  induction rest generalizing run out with
  | nil => simp [urlEncodeIntoFrom, encoded]
  | cons b rest ih =>
    rw [urlEncodeIntoFrom, encoded, List.flatMap_cons, encodedByte]
    split
    · -- the run, the escape and the rest have room one by one if they have it together
      rw [← Out.put_put]
      cases out.put run with
      | none => rfl
      | some out₁ =>
        rw [orFail_some, ok_bind, Option.bind_some, ← Out.put_put]
        cases out₁.put (percentEscape b) with
        | none => rfl
        | some out₂ =>
          rw [orFail_some, ok_bind, Option.bind_some, ih, List.nil_append]
          rfl
    · rw [ih, List.append_assoc]
      rfl

/-- **The encoder into a buffer**: the same bytes, if they fit. -/
theorem urlEncodeIntoSlice_eq (input out : Bytes) :
    urlEncodeIntoSlice input out = orFail .tooSmall ((Out.new out).put (urlEncode input)) := by
  rw [urlEncodeIntoSlice, urlEncodeIntoFrom_eq, urlEncode_eq, List.nil_append]

theorem length_encoded_le (input : Bytes) : (encoded input).length ≤ input.length * 3 := by
  induction input with
  | nil => exact Nat.le_refl _
  | cons b rest ih =>
    have hbyte : (encodedByte b).length ≤ 3 := by
      unfold encodedByte
      split
      · exact Nat.le_refl 3
      · exact Nat.le_add_left 1 2
    rw [encoded, List.flatMap_cons, List.length_append, List.length_cons]
    rw [encoded] at ih
    omega

/-- What is written: unreserved bytes, among them the digits, and `%`. -/
theorem mem_encoded {input : Bytes} {b : UInt8} (h : b ∈ encoded input) :
    isUnreserved b = true ∨ b = 37 := by
  obtain ⟨c, -, hb⟩ := List.mem_flatMap.mp h
  unfold encodedByte at hb
  split at hb
  · have key : ∀ c, ∀ b ∈ percentEscape c, isUnreserved b = true ∨ b = 37 :=
      forall_byte (by decide +kernel)
    exact key c b hb
  · next hc =>
    rw [List.mem_singleton.mp hb]
    exact .inl (by simpa using hc)

theorem not_mem_encoded {c : UInt8} (hc : isUnreserved c = false) (hne : c ≠ 37) (input : Bytes) :
    c ∉ encoded input := by
  intro hmem
  obtain h | h := mem_encoded hmem
  · rw [hc] at h
    nomatch h
  · exact hne h

/-! ## Decoding -/

/-- The escape at the head of the rest, by what `decode_percent_at` makes of it. -/
theorem unescapeBytes_at (run tail : Bytes) :
    unescapeBytes (37 :: tail) =
      (decodePercentAt (run ++ 37 :: tail) run.length).bind fun r =>
        (unescapeBytes ((run ++ 37 :: tail).drop r.2)).map (r.1 :: ·) := by
  match tail with
  | [] => rw [decodePercentAt_short run (by simp)]; rfl
  | [_] => rw [decodePercentAt_short run (by simp)]; rfl
  | h :: l :: r =>
    have hdrop : (run ++ 37 :: h :: l :: r).drop (run.length + 3) = r := by
      rw [List.drop_append]
      simp
    rw [decodePercentAt_append, unescapeBytes_escape]
    cases hexVal h with
    | none => rfl
    | some hi =>
      cases hexVal l with
      | none => rfl
      | some lo => simp only [Option.bind_some, Option.map_some, hdrop]

/-- The rest up to its first escape, the escape, and what is behind it. -/
theorem unescapeBytes_cut {rest : Bytes} {k : Nat} (hk : memchrPercent rest = some k) :
    unescapeBytes rest = ((decodePercentAt rest k).bind fun r =>
      (unescapeBytes (rest.drop r.2)).map (r.1 :: ·)).map (rest.take k ++ ·) := by
  obtain ⟨c, hc, hbefore, hcut, hlt⟩ := findIdx?_eq_some_cut hk
  obtain rfl : c = 37 := by simpa using hc
  have hspecial := unescapeBytes_at (rest.take k) (rest.drop (k + 1))
  rw [← hcut, List.length_take_of_le (Nat.le_of_lt hlt)] at hspecial
  conv_lhs => rw [hcut]
  rw [unescapeBytes_append fun b hb => by simpa using hbefore b hb, hspecial]

theorem unescapeBytes_plain {rest : Bytes} (hk : memchrPercent rest = none) :
    unescapeBytes rest = some rest := by
  have hplain := List.findIdx?_eq_none_iff.mp hk
  have := unescapeBytes_append (fun b hb => by simpa using hplain b hb) []
  simpa [unescapeBytes] using this

theorem decodePercentAt_next {src : Bytes} {i next : Nat} {b : UInt8}
    (h : decodePercentAt src i = some (b, next)) : next = i + 3 ∧ next ≤ src.length := by
  unfold decodePercentAt at h
  split at h
  · nomatch h
  · obtain ⟨hi, -, h⟩ := Option.bind_eq_some_iff.mp h
    obtain ⟨lo, -, h⟩ := Option.bind_eq_some_iff.mp h
    obtain ⟨-, rfl⟩ := Prod.mk.inj (Option.some.inj h)
    omega

theorem urlDecodeFrom_eq {n : Nat} {rest : Bytes} (h : rest.length ≤ n) (out : Bytes)
    (sawHigh : Bool) :
    urlDecodeFrom n rest out sawHigh =
      (orFail .malformed (unescapeBytes rest)).map fun d => (out ++ d, sawHigh || anyHigh d) := by
  induction n generalizing rest out sawHigh with
  | zero =>
    rw [List.eq_nil_of_length_eq_zero (Nat.le_zero.mp h)]
    rfl
  | succ n ih =>
    rw [urlDecodeFrom]
    split
    · next k hk =>
      rw [unescapeBytes_cut hk]
      split
      · next hbad =>
        rw [hbad]
        rfl
      · next b next hnext =>
        obtain ⟨hthree, hle⟩ := decodePercentAt_next hnext
        rw [ih (by rw [List.length_drop]; omega), hnext, Option.bind_some]
        dsimp only
        cases unescapeBytes (rest.drop next) with
        | none => rfl
        | some d =>
          have hhigh : anyHigh (b :: d) = (decide (0x80 ≤ b) || anyHigh d) := List.any_cons
          simp [Except.map, anyHigh_append, hhigh, Bool.or_assoc]
    · next hk =>
      rw [unescapeBytes_plain hk]
      rfl

/-- **The allocating decoder** takes every escape by its byte. -/
theorem urlDecodeBytesVec_eq (input : Bytes) :
    urlDecodeBytesVec input =
      (orFail .malformed (unescapeBytes input)).map fun d => (d, anyHigh d) :=
  urlDecodeFrom_eq (Nat.le_refl _) [] false

theorem urlDecodeBytes_eq (input : Bytes) :
    urlDecodeBytes input = orFail .malformed (unescapeBytes input) := by
  rw [urlDecodeBytes, urlDecodeBytesVec_eq]
  cases unescapeBytes input <;> rfl

/-- **The decoder for text** refuses what is not UTF-8. -/
theorem urlDecode_eq (input : Bytes) :
    urlDecode input = (urlDecodeBytes input).bind fun d =>
      if validUtf8 d = true then .ok d else .error .notUtf8 := by
  rw [urlDecode, urlDecodeBytesVec_eq, urlDecodeBytes_eq]
  cases unescapeBytes input with
  | none => rfl
  | some d =>
    show (if anyHigh d = true ∧ validUtf8 d = false then _ else _) = if _ then _ else _
    rw [if_congr (high_invalid_iff d) rfl rfl]
    cases validUtf8 d <;> rfl

theorem urlDecodeIntoFrom_eq {n : Nat} {rest d : Bytes} (h : rest.length ≤ n)
    (hd : unescapeBytes rest = some d) (out : Out UInt8) :
    urlDecodeIntoFrom n rest out = orFail .tooSmall (out.put d) := by
  induction n generalizing rest d out with
  | zero =>
    obtain rfl := List.eq_nil_of_length_eq_zero (Nat.le_zero.mp h)
    obtain rfl := Option.some.inj hd
    rfl
  | succ n ih =>
    rw [urlDecodeIntoFrom]
    split
    · next k hk =>
      -- the run, the byte and the rest: what is decoded is the three of them
      rw [unescapeBytes_cut hk] at hd
      obtain ⟨d₁, hd₁, rfl⟩ := Option.map_eq_some_iff.mp hd
      obtain ⟨⟨b, next⟩, hnext, hd₂⟩ := Option.bind_eq_some_iff.mp hd₁
      obtain ⟨d₂, hrest, rfl⟩ := Option.map_eq_some_iff.mp hd₂
      obtain ⟨hthree, hle⟩ := decodePercentAt_next hnext
      rw [← Out.put_put]
      cases out.put (rest.take k) with
      | none => rfl
      | some out₁ =>
        rw [orFail_some, ok_bind, hnext, orFail_some, ok_bind, Option.bind_some,
          show b :: d₂ = [b] ++ d₂ from rfl, ← Out.put_put]
        dsimp only
        cases out₁.put [b] with
        | none => rfl
        | some out₂ =>
          rw [orFail_some, ok_bind, Option.bind_some,
            ih (by rw [List.length_drop]; omega) hrest]
    · next hk =>
      rw [unescapeBytes_plain hk] at hd
      rw [Option.some.inj hd]

/-- Into a buffer as long as the input, a malformed escape is found. -/
theorem urlDecodeIntoFrom_malformed {n : Nat} {rest : Bytes} (h : rest.length ≤ n)
    (hd : unescapeBytes rest = none) {out : Out UInt8} (hroom : rest.length ≤ out.room.length) :
    urlDecodeIntoFrom n rest out = .error .malformed := by
  induction n generalizing rest out with
  | zero =>
    obtain rfl := List.eq_nil_of_length_eq_zero (Nat.le_zero.mp h)
    nomatch hd
  | succ n ih =>
    rw [urlDecodeIntoFrom]
    split
    -- The run up to the next escape or plus is copied; room for it is part of the bound.
    · next k hk =>
      rw [unescapeBytes_cut hk, Option.map_eq_none_iff] at hd
      obtain ⟨c, -, -, -, hlt⟩ := findIdx?_eq_some_cut hk
      have hrun : (rest.take k).length = k := List.length_take_of_le (Nat.le_of_lt hlt)
      rw [Out.put_of_le (by omega), orFail_some, ok_bind]
      cases hnext : decodePercentAt rest k with
      | none => rfl
      | some r =>
        obtain ⟨b, next⟩ := r
        obtain ⟨hthree, hle⟩ := decodePercentAt_next hnext
        rw [hnext, Option.bind_some, Option.map_eq_none_iff] at hd
        rw [orFail_some, ok_bind]
        dsimp only
        rw [Out.put_of_le (by simp only [List.length_drop, List.length_singleton]; omega),
          orFail_some, ok_bind]
        apply ih (by rw [List.length_drop]; omega) hd
        simp only [List.length_drop, List.length_singleton]
        omega
    · next hk =>
      rw [unescapeBytes_plain hk] at hd
      nomatch hd

/-- **The decoder into a buffer**: the same bytes, if they fit; a malformed escape is refused. -/
theorem urlDecodeIntoSlice_eq (input out : Bytes) :
    (∀ d, urlDecodeBytes input = .ok d →
      urlDecodeIntoSlice input out = orFail .tooSmall ((Out.new out).put d)) ∧
    (∀ e, urlDecodeBytes input = .error e → input.length ≤ out.length →
      urlDecodeIntoSlice input out = .error e) := by
  rw [urlDecodeBytes_eq]
  refine ⟨?_, ?_⟩
  · intro d hd
    exact urlDecodeIntoFrom_eq (Nat.le_refl _) (orFail_eq_ok_iff.mp hd) _
  · intro e he hroom
    obtain ⟨hnone, rfl⟩ := orFail_eq_error_iff.mp he
    exact urlDecodeIntoFrom_malformed (Nat.le_refl _) hnone hroom

/-! ## Decoding what was encoded -/

theorem unescapeBytes_encodedByte (b : UInt8) (r : Bytes) :
    unescapeBytes (encodedByte b ++ r) = (unescapeBytes r).map (b :: ·) := by
  unfold encodedByte
  split
  · have hdigit : ∀ n : Fin 16, hexVal (hexUpper.getD n.val 0) = some (UInt8.ofNat n.val) := by
      decide
    obtain ⟨hhi, hlo⟩ := nibbles_lt b
    have hval : ∀ x : UInt8, x < 16 → hexVal (hexUpper.getD x.toNat 0) = some x := by
      intro x hx
      have := hdigit ⟨x.toNat, hx⟩
      rwa [UInt8.ofNat_toNat] at this
    show unescapeBytes (37 :: _ :: _ :: r) = _
    rw [unescapeBytes_escape, hval _ hhi, hval _ hlo, Option.bind_some, Option.bind_some, nibbles_eq]
  · next hplain =>
    refine unescapeBytes_cons_of_ne ?_ r
    rintro rfl
    exact hplain (by decide)

/-- **Every byte comes back.** -/
theorem unescapeBytes_encoded (s : Bytes) : unescapeBytes (encoded s) = some s := by
  induction s with
  | nil => rfl
  | cons b s ih =>
    rw [encoded, List.flatMap_cons, unescapeBytes_encodedByte]
    rw [encoded] at ih
    rw [ih, Option.map_some]

/-- A space was written `%20` and a plus `%2B`: no plus is taken for a space. -/
theorem formDecode_encoded {s : Bytes} (hs : validUtf8 s = true) : formDecode (encoded s) = s := by
  have hplus : (encoded s).map plusToSpace = encoded s := by
    conv_rhs => rw [← List.map_id (encoded s)]
    apply List.map_congr_left
    intro b hb
    refine if_neg ?_
    rintro rfl
    exact not_mem_encoded (by decide) (by decide) s hb
  rw [formDecode_eq_formValue, formValue, hplus, unescapeBytes_encoded]
  exact if_pos hs

/-! ## The query -/

theorem encodeQueryComponent_eq (input scratch out : Bytes) :
    ∃ scratch', encodeQueryComponent input scratch out = .ok (scratch', out ++ encoded input) := by
  unfold encodeQueryComponent
  dsimp only
  generalize hbuf : (if scratch.length < input.length * 3 then
    scratch ++ List.replicate (input.length * 3 - scratch.length) 0 else scratch) = buf
  have hlong : input.length * 3 ≤ buf.length := by
    rw [← hbuf]
    split
    · rw [List.length_append, List.length_replicate]
      omega
    · omega
  have hfit : (encoded input).length ≤ (Out.new buf).room.length :=
    Nat.le_trans (length_encoded_le input) hlong
  rw [urlEncodeIntoSlice_eq, urlEncode_eq, Out.put_of_le hfit]
  exact ⟨_, rfl⟩

/-- One pair of the query. -/
def encodedPair (p : Str × Str) : Bytes := encoded (utf8Of p.1) ++ 61 :: encoded (utf8Of p.2)

theorem encodePairsFrom_eq (params : List (Str × Str)) (i : Nat) (scratch out : Bytes) :
    encodePairsFrom params (i + 1) scratch out =
      .ok (out ++ params.flatMap fun p => 38 :: encodedPair p) := by
  induction params generalizing i scratch out with
  | nil => simp [encodePairsFrom]
  | cons p params ih =>
    obtain ⟨k, v⟩ := p
    rw [encodePairsFrom, if_pos (Nat.succ_pos i)]
    obtain ⟨scratch₁, hk⟩ := encodeQueryComponent_eq (utf8Of k) scratch (out ++ [38])
    obtain ⟨scratch₂, hv⟩ :=
      encodeQueryComponent_eq (utf8Of v) scratch₁ (out ++ [38] ++ encoded (utf8Of k) ++ [61])
    dsimp only
    rw [hk, ok_bind]
    dsimp only
    rw [hv, ok_bind]
    dsimp only
    rw [ih]
    simp [encodedPair]

/-- **The written query.** -/
theorem urlEncodeQuery_eq (params : Std.TreeMap Str Str) :
    urlEncodeQuery params = .ok ([38].intercalate (params.toList.map encodedPair)) := by
  unfold urlEncodeQuery
  cases params.toList with
  | nil => rfl
  | cons p params =>
    obtain ⟨k, v⟩ := p
    rw [encodePairsFrom, if_neg (Nat.lt_irrefl 0)]
    obtain ⟨scratch₁, hk⟩ := encodeQueryComponent_eq (utf8Of k) [] []
    obtain ⟨scratch₂, hv⟩ := encodeQueryComponent_eq (utf8Of v) scratch₁ ([] ++ encoded (utf8Of k) ++ [61])
    dsimp only
    rw [hk, ok_bind]
    dsimp only
    rw [hv, ok_bind]
    dsimp only
    rw [encodePairsFrom_eq, List.map_cons, intercalate_cons_eq, List.flatMap_map]
    simp [encodedPair]

theorem cutPair_encodedPair (p : Str × Str) :
    cutPair (encodedPair p) = (encoded (utf8Of p.1), encoded (utf8Of p.2)) := by
  rw [cutPair, encodedPair, cutAt_append (not_mem_encoded (by decide) (by decide) _)]
  rfl

theorem not_mem_encodedPair (p : Str × Str) : 38 ∉ encodedPair p := by
  rw [encodedPair, List.mem_append, List.mem_cons, not_or, not_or]
  exact ⟨not_mem_encoded (by decide) (by decide) _, by decide,
    not_mem_encoded (by decide) (by decide) _⟩

theorem queryPair_encodedPair (p : Str × Str) :
    queryPair (encodedPair p) = (utf8Of p.1, utf8Of p.2) := by
  rw [queryPair, cutPair_encodedPair, formDecode_encoded (validUtf8_iff_utf8Of.mpr ⟨_, rfl⟩),
    formDecode_encoded (validUtf8_iff_utf8Of.mpr ⟨_, rfl⟩)]

/-- **The written query is read back**, pair by pair: no component holds a delimiter. -/
theorem queryPairs_intercalate (ps : List (Str × Str)) :
    queryPairs ([38].intercalate (ps.map encodedPair)) =
      ps.map fun p => (utf8Of p.1, utf8Of p.2) := by
  by_cases hnil : ps = []
  · subst hnil
    rfl
  have hsplit : ([38].intercalate (ps.map encodedPair)).splitOn 38 = ps.map encodedPair := by
    refine List.splitOn_intercalate 38 ?_ (by simpa using hnil)
    intro seg hseg
    obtain ⟨p, -, rfl⟩ := List.mem_map.mp hseg
    exact not_mem_encodedPair p
  have hsegments : segments (ps.map encodedPair) = ps.map encodedPair := by
    refine List.filter_eq_self.mpr ?_
    intro seg hseg
    obtain ⟨p, -, rfl⟩ := List.mem_map.mp hseg
    simp [encodedPair]
  rw [queryPairs, hsplit, hsegments, List.map_map]
  exact List.map_congr_left fun p _ => queryPair_encodedPair p

/-- **Too many pairs to count.** -/
theorem queryParsePackedVec_overflow {input : Bytes} (hcount : 2 ^ 32 ≤ (queryPairs input).length) :
    queryParsePackedVec input = .error .panic := by
  have hbound := length_packedText_le cutsPairs_queryPair? 38 input
  rw [← queryPairs_eq_filterMap, packedText_queryPairs] at hbound
  rw [queryPairs, List.length_map] at hcount
  rw [queryParsePackedVec, queryParsePackedIntoSlice_eq_packInto,
    (packInto_overflow writePair_eq hcount _).2]
  · rfl
  · rw [List.length_replicate]
    exact hbound

/-- The map holds the pairs it was made of, if no key is given twice. -/
theorem perm_toList_ofList {pairs : List (Str × Str)} (h : (pairs.map Prod.fst).Nodup) :
    (Std.TreeMap.ofList pairs).toList.Perm pairs := by
  have hdistinct : pairs.Pairwise fun p q => ¬ compare p.1 q.1 = .eq := by
    refine (List.pairwise_map.mp h).imp ?_
    intro p q hne heq
    exact hne (Std.LawfulEqCmp.eq_of_compare heq)
  have hnodup : (Std.TreeMap.ofList pairs).toList.Nodup := by
    refine (Std.TreeMap.distinct_keys_toList (t := Std.TreeMap.ofList pairs)).imp ?_
    rintro p _ hne rfl
    exact hne Std.ReflCmp.compare_self
  rw [List.perm_ext_iff_of_nodup hnodup (List.Nodup.of_map _ h)]
  rintro ⟨k, v⟩
  rw [Std.TreeMap.mem_toList_iff_getElem?_eq_some]
  refine ⟨?_, Std.TreeMap.getElem?_ofList_of_mem Std.ReflCmp.compare_self hdistinct⟩
  intro hget
  by_cases hk : k ∈ pairs.map Prod.fst
  · obtain ⟨⟨_, v'⟩, hmem, rfl⟩ := List.mem_map.mp hk
    have hget' := Std.TreeMap.getElem?_ofList_of_mem Std.ReflCmp.compare_self hdistinct hmem
    rwa [Option.some.inj (hget.symm.trans hget')]
  · rw [Std.TreeMap.getElem?_ofList_of_contains_eq_false (by simpa using hk)] at hget
    nomatch hget

/-- **What comes back.** Of a query: the pairs in the order of their keys, behind a count of 32
bits. Of any bytes: the bytes, from the decoder for bytes; from the decoder for text, if they are
UTF-8. The codecs into a buffer do the same as far as there is room. -/
theorem urlCodec_roundtrip :
    (∀ pairs : List (Str × Str), ∃ (out : Bytes) (sorted : List (Str × Str)),
      urlEncodeQuery (Std.TreeMap.ofList pairs) = .ok out ∧
      queryPairs out = sorted.map (fun p => (utf8Of p.1, utf8Of p.2)) ∧
      sorted.Pairwise (fun p q => compare p.1 q.1 = .lt) ∧
      ((pairs.map Prod.fst).Nodup → sorted.Perm pairs) ∧
      queryParsePackedVec out =
        if sorted.length < 2 ^ 32 then .ok (packedText (queryPairs out)) else .error .panic) ∧
    (∀ s, urlDecodeBytes (urlEncode s) = .ok s) ∧
    (∀ s, urlDecode (urlEncode s) = if validUtf8 s = true then .ok s else .error .notUtf8) ∧
    (∀ s out, urlEncodeIntoSlice s out = orFail .tooSmall ((Out.new out).put (urlEncode s))) ∧
    (∀ s out d, urlDecodeBytes s = .ok d →
      urlDecodeIntoSlice s out = orFail .tooSmall ((Out.new out).put d)) ∧
    (∀ s out e, urlDecodeBytes s = .error e → s.length ≤ out.length →
      urlDecodeIntoSlice s out = .error e) := by
  have hback : ∀ s, urlDecodeBytes (urlEncode s) = .ok s := by
    intro s
    rw [urlDecodeBytes_eq, urlEncode_eq, unescapeBytes_encoded, orFail_some]
  refine ⟨?_, hback, ?_, urlEncodeIntoSlice_eq, fun s out => (urlDecodeIntoSlice_eq s out).1,
    fun s out => (urlDecodeIntoSlice_eq s out).2⟩
  -- The keys come out in the order of the map, which is the order the text is written in.
  · intro pairs
    have hperm := @perm_toList_ofList pairs
    have hordered := Std.TreeMap.ordered_keys_toList (t := Std.TreeMap.ofList pairs)
    have hout := urlEncodeQuery_eq (Std.TreeMap.ofList pairs)
    generalize hsorted : (Std.TreeMap.ofList pairs).toList = sorted at *
    refine ⟨_, sorted, hout, queryPairs_intercalate sorted, hordered, hperm, ?_⟩
    split
    · next hcount =>
      refine queryParsePackedVec_eq _ ?_
      rwa [queryPairs_intercalate, List.length_map]
    · next hcount =>
      refine queryParsePackedVec_overflow ?_
      rw [queryPairs_intercalate, List.length_map]
      exact Nat.le_of_not_lt hcount
  · intro s
    rw [urlDecode_eq, hback]
    rfl

/-- A lone high byte is encoded, and refused when it is decoded as text. -/
theorem urlDecode_refuses : ¬ ∀ s, urlDecode (urlEncode s) = .ok s := by
  intro h
  exact absurd (h [0xFF]) (by decide)

end Castrum
