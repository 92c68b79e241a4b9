import Castrum.Ingress.NativeRoute

/-!
# Castrum — the route wire on the TypeScript side (`src/ingress/packing/route-wire.ts`)

A frame is packed for the native route and its result is decoded. Strings cross the wire as the
codec of the runtime writes and reads them, so both directions are stated for any codec.

* `readRouteFrame_packRouteFrame` — the native side reads the frame that was packed;
* `decodeRouteResult_bytes` — the result that was written is read back;
* `route_sizing` — the sizing protocol of a run, and both directions of the wire.
-/

namespace Castrum

section

variable {S : Type}

/-! ## Frames and results -/

/-- The body section is there for a body that is not empty. -/
def packRouteFrame (encode : S → Bytes) (query cookie : S) (body : Option Bytes) : Bytes :=
  let front := packedComponent (encode query) ++ packedComponent (encode cookie)
  match body with
  | none | some [] => le32 0 ++ front
  | some (b :: r) => le32 routeFrameFlagHasBody ++ (front ++ packedComponent (b :: r))

/-- `buf.subarray(pos, pos + len)`. -/
def subarray (buf : Bytes) (pos len : Nat) : Bytes := (buf.drop pos).take len

/-- The pairs of a section, and the position behind them; a read beyond the buffer throws. -/
def readPairsAt (decode : Bytes → S) (buf : Bytes) : Nat → Nat → Option (List (S × S) × Nat)
  | 0, pos => some ([], pos)
  | count + 1, pos => do
    let nameLen ← readU32 buf pos
    let pos := pos + 4
    let name := decode (subarray buf pos nameLen)
    let pos := pos + nameLen
    let valueLen ← readU32 buf pos
    let pos := pos + 4
    let value := decode (subarray buf pos valueLen)
    let rest ← readPairsAt decode buf count (pos + valueLen)
    some ((name, value) :: rest.1, rest.2)

def readPairSection (decode : Bytes → S) (buf : Bytes) (pos : Nat) :
    Option (List (S × S) × Nat) := do
  let count ← readU32 buf pos
  readPairsAt decode buf count (pos + 4)

/-- A section that the plan does not have is not read. -/
def optionalRead (decode : Bytes → S) (present : Bool) (buf : Bytes) (pos : Nat) :
    Option (List (S × S) × Nat) :=
  if present then readPairSection decode buf pos else some ([], pos)

/-- The caller says which sections its plan has. -/
def decodeRouteResult (decode : Bytes → S) (query cookie : Bool) (buf : Bytes) :
    Option (RouteResult S) := do
  let flags ← readU32 buf 0
  let errorCode ← readU32 buf 4
  let q ← optionalRead decode query buf resultHeaderLen
  let c ← optionalRead decode cookie buf q.2
  some { flags, errorCode, query := q.1, cookie := c.1 }

/-! ## The frame, read back -/

theorem readSection_usizeMax {part : Bytes} (hpart : part.length < 2 ^ 32) (before behind : Bytes) :
    readSection (before ++ (packedComponent part ++ behind)) before.length usizeMax =
      .ok (part, (before ++ packedComponent part).length) := by
  have hmax : usizeMax = 2 ^ 64 - 1 := rfl
  rw [readSection_append hpart, if_neg (by omega)]

/-- A frame is read up to its last section; what is behind it does not matter. -/
theorem readRouteFrame_append {q c b : Bytes} (hq : q.length < 2 ^ 32) (hc : c.length < 2 ^ 32)
    (hb : b.length < 2 ^ 32) (hasBody : Bool) (hnone : hasBody = false → b = [])
    (behind : Bytes) :
    readRouteFrame (le32 (if hasBody then routeFrameFlagHasBody else 0) ++ (packedComponent q ++
      (packedComponent c ++ ((if hasBody then packedComponent b else []) ++ behind)))) =
        .ok { hasBody, query := q, cookie := c, body := b } := by
  let flags := if hasBody then routeFrameFlagHasBody else 0
  let tail := (if hasBody then packedComponent b else []) ++ behind
  let atCookie := le32 flags ++ packedComponent q
  let atBody := atCookie ++ packedComponent c
  let frame := le32 flags ++ (packedComponent q ++ (packedComponent c ++ tail))
  have hframe : frame = atCookie ++ (packedComponent c ++ tail) := (List.append_assoc ..).symm
  have hframe' : frame = atBody ++ tail := by
    rw [hframe, List.append_assoc atCookie]
  have hflags : readU32 frame 0 = some flags := by
    have h := readU32_append flags [] (packedComponent q ++ (packedComponent c ++ tail))
    rwa [Nat.mod_eq_of_lt (by cases hasBody <;> decide)] at h
  have hhas : (decide (flags &&& routeFrameFlagHasBody ≠ 0)) = hasBody := by
    cases hasBody <;> decide
  -- each section starts behind the one in front of it
  have hquery := readSection_usizeMax hq (le32 flags) (packedComponent c ++ tail)
  have hcookie := readSection_usizeMax hc atCookie tail
  rw [← hframe] at hcookie
  show readRouteFrame frame = _
  rw [readRouteFrame, hflags]
  show (do
    let query ← readSection frame (le32 flags).length usizeMax
    _) = _
  rw [hquery]
  show (do
    let cookie ← readSection frame atCookie.length usizeMax
    _) = _
  rw [hcookie]
  show (if (decide (flags &&& routeFrameFlagHasBody ≠ 0)) = true then _ else _) = _
  rw [hhas]
  cases hasBody with
  | false =>
    rw [hnone rfl]
    rfl
  | true =>
    have hbody := readSection_usizeMax hb atBody behind
    rw [show atBody ++ (packedComponent b ++ behind) = frame from hframe'.symm] at hbody
    show (do
      let body ← readSection frame atBody.length usizeMax
      _) = _
    rw [hbody]
    rfl

/-- **The native side reads what was packed**, as long as each length fits its 32 bits. -/
theorem readRouteFrame_packRouteFrame {encode : S → Bytes} {query cookie : S} {body : Option Bytes}
    (hquery : (encode query).length < 2 ^ 32) (hcookie : (encode cookie).length < 2 ^ 32)
    (hbody : (body.getD []).length < 2 ^ 32) :
    readRouteFrame (packRouteFrame encode query cookie body) =
      .ok { hasBody := body.getD [] ≠ [], query := encode query, cookie := encode cookie
            body := body.getD [] } := by
  have hnone := readRouteFrame_append hquery hcookie (show ([] : Bytes).length < _ by decide) false
    (fun _ => rfl) []
  rw [if_neg Bool.false_ne_true, if_neg Bool.false_ne_true, List.append_nil, List.append_nil]
    at hnone
  cases body with
  | none => exact hnone
  | some body =>
    cases body with
    | nil => exact hnone
    | cons b r =>
      have hsome := readRouteFrame_append hquery hcookie hbody true nofun []
      rw [if_pos rfl, if_pos rfl, List.append_nil, ← List.append_assoc (packedComponent _)] at hsome
      exact hsome

/-! ## The result, read back -/

theorem subarray_append (before field behind : Bytes) :
    subarray (before ++ (field ++ behind)) before.length field.length = field := by
  rw [subarray, List.drop_left, List.take_left]

/-- The pairs behind `before`. Induction on the pairs still to come. -/
theorem readPairsAt_append (decode : Bytes → S) {ps : List (Bytes × Bytes)}
    (hps : ∀ p ∈ ps, p.1.length < 2 ^ 32 ∧ p.2.length < 2 ^ 32) (before behind : Bytes) :
    readPairsAt decode (before ++ (packedPairs ps ++ behind)) ps.length before.length =
      some (ps.map fun p => (decode p.1, decode p.2), (before ++ packedPairs ps).length) := by
  induction ps generalizing before with
  | nil =>
    rw [show packedPairs [] = [] from rfl, List.append_nil]
    rfl
  | cons p ps ih =>
    obtain ⟨hname, hvalue⟩ := hps p List.mem_cons_self
    -- the buffer, cut behind each of the four fields of the first pair
    let atName := before ++ le32 p.1.length
    let atValue := atName ++ p.1 ++ le32 p.2.length
    let buf := before ++ (packedPairs (p :: ps) ++ behind)
    have hfirst : buf = before ++ (le32 p.1.length ++ (p.1 ++ (le32 p.2.length ++ (p.2 ++
        (packedPairs ps ++ behind))))) := by
      simp only [buf, packedPairs, packedComponent, List.flatMap_cons, List.append_assoc]
    have hsecond : buf = atName ++ (p.1 ++ (le32 p.2.length ++ (p.2 ++
        (packedPairs ps ++ behind)))) := by
      rw [hfirst, List.append_assoc]
    have hthird : buf = (atName ++ p.1) ++ (le32 p.2.length ++ (p.2 ++
        (packedPairs ps ++ behind))) := by
      rw [hsecond, List.append_assoc atName]
    have hfourth : buf = atValue ++ (p.2 ++ (packedPairs ps ++ behind)) := by
      rw [hthird, List.append_assoc (atName ++ p.1)]
    have hlast : buf = (atValue ++ p.2) ++ (packedPairs ps ++ behind) := by
      rw [hfourth, List.append_assoc atValue]
    have hnameLen : readU32 buf before.length = some p.1.length := by
      rw [hfirst, readU32_append, Nat.mod_eq_of_lt hname]
    have hposName : before.length + 4 = atName.length := by
      rw [List.length_append, length_le32]
    have hposValueLen : atName.length + p.1.length = (atName ++ p.1).length :=
      List.length_append.symm
    have hvalueLen : readU32 buf (atName ++ p.1).length = some p.2.length := by
      rw [hthird, readU32_append, Nat.mod_eq_of_lt hvalue]
    have hposValue : (atName ++ p.1).length + 4 = atValue.length := by
      show (atName ++ p.1).length + (le32 p.2.length).length = (atName ++ p.1 ++ le32 _).length
      exact List.length_append.symm
    have hposRest : atValue.length + p.2.length = (atValue ++ p.2).length :=
      List.length_append.symm
    have hnameBytes : subarray buf atName.length p.1.length = p.1 := by
      rw [hsecond, subarray_append]
    have hvalueBytes : subarray buf atValue.length p.2.length = p.2 := by
      rw [hfourth, subarray_append]
    have hrest : readPairsAt decode buf ps.length (atValue ++ p.2).length =
        some (ps.map fun p => (decode p.1, decode p.2),
          (atValue ++ p.2 ++ packedPairs ps).length) := by
      rw [hlast]
      exact ih (fun q hq => hps q (List.mem_cons_of_mem _ hq)) (atValue ++ p.2)
    have hend : atValue ++ p.2 ++ packedPairs ps = before ++ packedPairs (p :: ps) := by
      simp only [atValue, atName, packedPairs, packedComponent, List.flatMap_cons,
        List.append_assoc]
    show readPairsAt decode buf (ps.length + 1) before.length = _
    rw [readPairsAt, hnameLen, Option.bind_eq_bind, Option.bind_some]
    dsimp only
    rw [hposName, hposValueLen, hvalueLen, Option.bind_eq_bind, Option.bind_some, hposValue,
      hposRest, hrest, hnameBytes, hvalueBytes, hend]
    rfl

theorem readPairSection_append (decode : Bytes → S) {ps : List (Bytes × Bytes)} (h : Packable ps)
    (before behind : Bytes) :
    readPairSection decode (before ++ (packedText ps ++ behind)) before.length =
      some (ps.map fun p => (decode p.1, decode p.2), (before ++ packedText ps).length) := by
  have hbuf : before ++ (packedText ps ++ behind) =
      (before ++ le32 ps.length) ++ (packedPairs ps ++ behind) := by
    simp only [packedText, List.append_assoc]
  have hcount : readU32 (before ++ (packedText ps ++ behind)) before.length = some ps.length := by
    rw [packedText, List.append_assoc, readU32_append, Nat.mod_eq_of_lt h.1]
  have hpairs := readPairsAt_append decode h.2 (before ++ le32 ps.length) behind
  rw [← hbuf, List.length_append, length_le32, List.append_assoc] at hpairs
  rw [readPairSection, hcount, Option.bind_eq_bind, Option.bind_some, hpairs]
  rfl

/-- A section that the plan has is read back; where it has none, nothing is read. -/
theorem optionalRead_append (decode : Bytes → S) (present : Bool) {ps : List (Bytes × Bytes)}
    (h : Packable ps) (hnone : present = false → ps = []) (before behind : Bytes) :
    optionalRead decode present (before ++ (sectionText present ps ++ behind)) before.length =
    some (ps.map fun p => (decode p.1, decode p.2), (before ++ sectionText present ps).length) := by
  cases present with
  | false =>
    rw [hnone rfl, sectionText, if_neg Bool.false_ne_true, List.append_nil]
    rfl
  | true => exact readPairSection_append decode h before behind

/-- **The result, read back** from a buffer that begins with it. -/
theorem decodeRouteResult_bytes (decode : Bytes → S) {r : RouteResult Bytes} {query cookie : Bool}
    (hflags : r.flags < 2 ^ 32) (herror : r.errorCode < 2 ^ 32) (hquery : Packable r.query)
    (hcookie : Packable r.cookie) (hnoQuery : query = false → r.query = [])
    (hnoCookie : cookie = false → r.cookie = []) (rest : Bytes) :
    decodeRouteResult decode query cookie (r.bytes query cookie ++ rest) = some (r.map decode) := by
  let header := le32 r.flags ++ le32 r.errorCode
  let buf := r.bytes query cookie ++ rest
  have hbuf : buf = header ++ (sectionText query r.query ++
      (sectionText cookie r.cookie ++ rest)) := by
    simp only [buf, header, RouteResult.bytes, List.append_assoc]
  have hbuf' : buf = (header ++ sectionText query r.query) ++
      (sectionText cookie r.cookie ++ rest) := by
    rw [hbuf, List.append_assoc header]
  have hreadFlags : readU32 buf 0 = some r.flags := by
    have h := readU32_append r.flags [] (le32 r.errorCode ++
      (sectionText query r.query ++ (sectionText cookie r.cookie ++ rest)))
    rw [Nat.mod_eq_of_lt hflags] at h
    rw [hbuf, List.append_assoc]
    exact h
  have hreadError : readU32 buf 4 = some r.errorCode := by
    have h := readU32_append r.errorCode (le32 r.flags)
      (sectionText query r.query ++ (sectionText cookie r.cookie ++ rest))
    rw [Nat.mod_eq_of_lt herror] at h
    rw [hbuf, List.append_assoc]
    exact h
  -- the cookie section starts where the query section ends, also if that is not there
  have hq := optionalRead_append decode query hquery hnoQuery header
    (sectionText cookie r.cookie ++ rest)
  have hc := optionalRead_append decode cookie hcookie hnoCookie
    (header ++ sectionText query r.query) rest
  rw [← hbuf] at hq
  rw [← hbuf'] at hc
  show decodeRouteResult decode query cookie buf = _
  rw [decodeRouteResult, hreadFlags, hreadError]
  show (do
    let q ← optionalRead decode query buf header.length
    _) = _
  rw [hq]
  show (do
    let c ← optionalRead decode cookie buf (header ++ sectionText query r.query).length
    _) = _
  rw [hc]
  rfl

end

/-! ## The sizing protocol -/

theorem readRouteFrame_lt {frame : Bytes} {f : RouteFrame} (h : readRouteFrame frame = .ok f) :
    f.query.length < 2 ^ 32 ∧ f.cookie.length < 2 ^ 32 := by
  unfold readRouteFrame at h
  obtain ⟨flags, -, h⟩ := bind_eq_ok_iff.mp h
  obtain ⟨query, hquery, h⟩ := bind_eq_ok_iff.mp h
  obtain ⟨cookie, hcookie, h⟩ := bind_eq_ok_iff.mp h
  have hlt := And.intro (length_readSection hquery) (length_readSection hcookie)
  split at h
  · obtain ⟨body, -, h⟩ := bind_eq_ok_iff.mp h
    injection h with h
    rw [← h]
    exact hlt
  · injection h with h
    rw [← h]
    exact hlt

theorem Packable.cappedPairs {ps : List (Bytes × Bytes)} (h : Packable ps) (maxPairs : Nat) :
    Packable (cappedPairs maxPairs 0 ps) := by
  unfold Castrum.cappedPairs
  split
  · refine ⟨Nat.lt_of_le_of_lt (List.length_take_le' _ _) h.1, ?_⟩
    intro p hp
    exact h.2 p (List.mem_of_mem_take hp)
  · exact h

theorem packable_nil : Packable [] := ⟨by decide, nofun⟩

/-- What a run answers: the size of the result and, in a buffer that is large enough, the result
itself with nothing behind it touched. -/
structure RouteAnswer (crates : Crates) (route : NativeRoute) (f : RouteFrame) (size : Nat)
    (out : Bytes) (r : Nat × Bytes) : Prop where
  size_eq : r.1 = size
  length_eq : r.2.length = out.length
  untouched : size ≤ out.length → r.2.drop size = out.drop size
  decoded : size ≤ out.length → ∀ (S : Type) (decode : Bytes → S),
    decodeRouteResult decode route.parseQuery route.parseCookies (r.2.take size) =
      some ((route.result crates f).map decode)

theorem NativeRoute.run_answer (crates : Crates) (route : NativeRoute) {frame : Bytes}
    {f : RouteFrame} (hframe : readRouteFrame frame = .ok f) :
    ∃ size, ∀ out, ∃ r, route.run crates frame out = .ok r ∧
      RouteAnswer crates route f size out r := by
  -- One text serves every buffer: its length is the size, and where it fits it is what is written.
  let text := (route.result crates f).bytes route.parseQuery route.parseCookies
  refine ⟨text.length, fun out => ?_⟩
  obtain ⟨r, hrun, hsize, hlength, hwritten⟩ := route.run_eq crates hframe out
  refine ⟨r, hrun, hsize, hlength, fun hfit => ?_, fun hfit S decode => ?_⟩
  · have hdrop := drop_placed (Nat.zero_le out.length) text text.length
    rw [Nat.zero_add] at hdrop
    rw [hwritten hfit, hdrop, List.drop_left]
  · obtain ⟨hquery, hcookie⟩ := readRouteFrame_lt hframe
    have htake : r.2.take text.length = text ++ [] := by
      rw [hwritten hfit, List.append_nil]
      show (text ++ out.drop (0 + text.length)).take text.length = text
      exact List.take_left
    rw [htake]
    apply decodeRouteResult_bytes
    · exact UInt32.toNat_lt _
    · exact UInt32.toNat_lt _
    · show Packable (if _ then _ else _)
      split
      · exact (packable_queryPairs hquery).cappedPairs _
      · exact packable_nil
    · show Packable (if _ then _ else _)
      split
      · exact (packable_cookiePairs hcookie).cappedPairs _
      · exact packable_nil
    · intro hno
      exact if_neg (by rw [hno]; exact Bool.false_ne_true)
    · intro hno
      exact if_neg (by rw [hno]; exact Bool.false_ne_true)

/-- **The sizing protocol.** A frame is refused whatever the buffer, or the answer is the same size
for every buffer; a buffer of that size is enough, so the one retry with it succeeds. And a packed
frame is read back, as long as each of its parts is below 4 GiB. -/
theorem route_sizing (crates : Crates) (route : NativeRoute) :
    (∀ frame, (∃ e, ∀ out, route.run crates frame out = .error e) ∨
      ∃ f size, readRouteFrame frame = .ok f ∧ ∀ out, ∃ r,
        route.run crates frame out = .ok r ∧ RouteAnswer crates route f size out r ∧
        (out.length < size → ∀ retry : Bytes, retry.length = r.1 → ∃ r',
          route.run crates frame retry = .ok r' ∧ r'.1 = r.1 ∧ r'.1 ≤ retry.length ∧
            RouteAnswer crates route f size retry r')) ∧
    ∀ (S : Type) (encode : S → Bytes) (query cookie : S) (body : Option Bytes),
      (encode query).length < 2 ^ 32 → (encode cookie).length < 2 ^ 32 →
      (body.getD []).length < 2 ^ 32 →
      readRouteFrame (packRouteFrame encode query cookie body) =
        .ok { hasBody := body.getD [] ≠ [], query := encode query, cookie := encode cookie
              body := body.getD [] } := by
  refine ⟨fun frame => ?_, fun S encode query cookie body => readRouteFrame_packRouteFrame⟩
  cases hframe : readRouteFrame frame with
  | error e =>
    refine .inl ⟨e, fun out => ?_⟩
    rw [NativeRoute.run, hframe]
    rfl
  | ok f =>
    obtain ⟨size, hsize⟩ := route.run_answer crates hframe
    refine .inr ⟨f, size, rfl, fun out => ?_⟩
    obtain ⟨r, hrun, hanswer⟩ := hsize out
    refine ⟨r, hrun, hanswer, fun _ retry hretry => ?_⟩
    obtain ⟨r', hrun', hanswer'⟩ := hsize retry
    have hsame : r'.1 = r.1 := hanswer'.size_eq.trans hanswer.size_eq.symm
    exact ⟨r', hrun', hsame, by omega, hanswer'⟩

theorem route_sizing_sample :
    (utf8 "a=1").length < 2 ^ 32 ∧
    readRouteFrame (packRouteFrame utf8 "a=1" "" (some [123, 125])) =
      .ok { hasBody := true, query := utf8 "a=1", cookie := [], body := [123, 125] } :=
  ⟨by decide, (route_sizing ⟨fun _ _ => 0, fun _ => true⟩ {}).2 String utf8 "a=1" ""
    (some [123, 125]) (by decide) (by decide) (by decide)⟩

/-- A body of 4 GiB is packed behind a length of zero, and read back as empty. -/
theorem packRouteFrame_body_dropped :
    readRouteFrame (packRouteFrame utf8 "" "" (some (List.replicate 4294967296 0))) =
        .ok { hasBody := true, query := [], cookie := [], body := [] } ∧
      (List.replicate 4294967296 0 : Bytes) ≠ [] := by
  have key : ∀ n : Nat, n = 4294967296 →
      readRouteFrame (packRouteFrame utf8 "" "" (some (List.replicate n 0))) =
          .ok { hasBody := true, query := [], cookie := [], body := [] } ∧
        (List.replicate n 0 : Bytes) ≠ [] := by
    intro n hn
    obtain ⟨m, rfl⟩ : ∃ m, n = m + 1 := ⟨4294967295, by omega⟩
    refine ⟨?_, List.cons_ne_nil _ _⟩
    have hzero : le32 (m + 1) = le32 0 := by
      rw [hn]
      decide
    have hlen : ((0 : UInt8) :: List.replicate m 0).length = m + 1 := by
      rw [List.length_cons, List.length_replicate]
    have hnil : ([] : Bytes).length < 2 ^ 32 := by decide
    have hread := readRouteFrame_append hnil hnil hnil true nofun (0 :: List.replicate m 0)
    rw [if_pos rfl, if_pos rfl] at hread
    show readRouteFrame (le32 1 ++ ((packedComponent [] ++ packedComponent []) ++
      (le32 (0 :: List.replicate m (0 : UInt8)).length ++ _))) = _
    rw [hlen, hzero]
    exact hread
  exact key _ rfl

end Castrum
