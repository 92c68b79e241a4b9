import Castrum.Http.QueryParser
import Castrum.Ingress.Stages

/-!
# Castrum — the native route stack (`rust/ingress/native_route.rs`)

A route runs the stages of its plan on one request frame and writes the verdict and the parsed pairs
into the caller's buffer. One writer measures and writes in the same pass: from the first piece that
does not fit it only counts.

* `ResultWriter.Holds` — what a writer has in its buffer, or how much it would need;
* `NativeRoute.result` — what the stages say about a request;
* `NativeRoute.run_eq` — a run answers the size of that result, and writes it where it fits.
-/

namespace Castrum

/-! ## The writer -/

structure ResultWriter where
  out : Bytes
  pos : Nat
  needed : Nat
  full : Bool
  deriving DecidableEq, Repr

namespace ResultWriter

def new (out : Bytes) (headerLen : Nat) : ResultWriter :=
  { out, pos := headerLen, needed := headerLen, full := out.length < headerLen }

/-- Append `bytes`. Their length counts even if they do not fit. -/
def bytes (w : ResultWriter) (bytes : Bytes) : ResultWriter :=
  let w := { w with needed := w.needed + bytes.length }
  if w.full then w
  else if w.pos + bytes.length ≤ w.out.length then
    { w with out := placed w.out w.pos bytes, pos := w.pos + bytes.length }
  else { w with full := true }

def u32 (w : ResultWriter) (value : Nat) : ResultWriter := w.bytes (le32 value)

def lenPrefixed (w : ResultWriter) (bytes : Bytes) : ResultWriter := (w.u32 bytes.length).bytes bytes

/-- Fill in a field that was reserved at `offset`. -/
def patchU32 (w : ResultWriter) (offset value : Nat) : ResultWriter :=
  if !w.full && offset + 4 ≤ w.out.length then { w with out := placed w.out offset (le32 value) }
  else w

/-- The size of the result, and the buffer with the header in place where there is room for all. -/
def commit (w : ResultWriter) (header : Bytes) : Nat × Bytes :=
  if w.full || w.out.length < w.needed then (w.needed, w.out)
  else (w.pos, placed w.out 0 header)

end ResultWriter

/-! ## The pair sections -/

/-- `query_pairs`: names and values as they stand in the query. -/
def rawQueryPairs (query : Bytes) : List (Bytes × Bytes) :=
  (segments (query.splitOn 38)).map cutPair

/-- The loop of the two section writers: the writer, the pairs it has taken, and whether it stopped
at `max_pairs`. -/
def writePairsFrom (decode : Bytes → Bytes → Bytes × Bytes) (maxPairs : Nat) :
    List (Bytes × Bytes) → ResultWriter → Bytes → Nat → ResultWriter × Nat × Bool
  | [], w, _, count => (w, count, false)
  | pair :: pairs, w, scratch, count =>
    if 0 < maxPairs ∧ maxPairs ≤ count then (w, count, true)
    else
      let name := decode pair.1 scratch
      let value := decode pair.2 name.2
      writePairsFrom decode maxPairs pairs ((w.lenPrefixed name.1).lenPrefixed value.1) value.2
        (count + 1)

/-- A section: a place for the count, the pairs, and the count filled in. -/
def writePairSection (decode : Bytes → Bytes → Bytes × Bytes) (w : ResultWriter)
    (pairs : List (Bytes × Bytes)) (maxPairs : Nat) : ResultWriter × Bool :=
  let r := writePairsFrom decode maxPairs pairs (w.u32 0) [] 0
  (r.1.patchU32 w.pos r.2.1, r.2.2)

def writeQuerySection (w : ResultWriter) (query : Bytes) (maxPairs : Nat) : ResultWriter × Bool :=
  writePairSection decodeFormComponentScratch w (rawQueryPairs query) maxPairs

/-- Cookies are not decoded. -/
def rawComponent (src scratch : Bytes) : Bytes × Bytes := (src, scratch)

def writeCookieSection (w : ResultWriter) (cookie : Bytes) (maxPairs : Nat) :
    ResultWriter × Bool :=
  writePairSection rawComponent w (cookiePairs cookie) maxPairs

/-! ## The route -/

def routeFrameFlagHasBody : Nat := 1

def routeResultFlagOk : UInt32 := 1
def routeResultFlagBodyValidJson : UInt32 := 2
def routeResultFlagQueryValid : UInt32 := 4
def routeResultFlagCookieValid : UInt32 := 8
def routeResultFlagBodyValid : UInt32 := 16

def errBodyNotJson : UInt32 := 400
def errBodySchema : UInt32 := 422

def resultHeaderLen : Nat := 8

/-- `usize::MAX`. -/
def usizeMax : Nat := 2 ^ 64 - 1

structure NativeRoute where
  parseQuery : Bool := false
  parseCookies : Bool := false
  requireJsonBody : Bool := false
  validateBody : Bool := false
  maxBodyBytes : Nat := 2097152
  maxQueryBytes : Nat := 8192
  maxCookieBytes : Nat := 8192
  maxPairs : Nat := 0
  bodySchema : Option IngressSchema := none

/-- The sections of a request frame. -/
structure RouteFrame where
  hasBody : Bool
  query : Bytes
  cookie : Bytes
  body : Bytes
  deriving DecidableEq, Repr

def readRouteFrame (frame : Bytes) : Except String RouteFrame := do
  let flags ← orFail "packed input: truncated u32" (readU32 frame 0)
  let hasBody : Bool := flags &&& routeFrameFlagHasBody ≠ 0
  let query ← readSection frame 4 usizeMax
  let cookie ← readSection frame query.2 usizeMax
  if hasBody then
    let body ← readSection frame cookie.2 usizeMax
    .ok { hasBody, query := query.1, cookie := cookie.1, body := body.1 }
  else .ok { hasBody, query := query.1, cookie := cookie.1, body := [] }

structure BodyVerdict where
  errorCode : UInt32
  bodyValidJson : Bool
  bodyValid : Bool
  deriving DecidableEq, Repr

/-- The body stages; the first that fails decides. -/
def NativeRoute.bodyVerdict (crates : Crates) (route : NativeRoute) (hasBody : Bool) (body : Bytes) :
    BodyVerdict :=
  if route.requireJsonBody || route.validateBody then
    if !hasBody || route.maxBodyBytes < body.length then
      -- a body that is absent or too large fails either stage
      { errorCode := errBodyNotJson, bodyValidJson := false, bodyValid := false }
    else
      let bodyValidJson := crates.jsonValidBytes body
      if route.requireJsonBody && !bodyValidJson then
        { errorCode := errBodyNotJson, bodyValidJson, bodyValid := false }
      else if route.validateBody then
        if !bodyValidJson then { errorCode := errBodyNotJson, bodyValidJson, bodyValid := false }
        else
          match route.bodySchema with
          | some schema =>
            if schema.validate body then { errorCode := 0, bodyValidJson, bodyValid := true }
            else { errorCode := errBodySchema, bodyValidJson, bodyValid := false }
          | none => { errorCode := 0, bodyValidJson, bodyValid := true }
      else { errorCode := 0, bodyValidJson, bodyValid := true }
  else { errorCode := 0, bodyValidJson := false, bodyValid := false }

/-- The flags of the result header. -/
def routeResultFlags (body : BodyVerdict) (queryValid cookieValid : Bool) : UInt32 :=
  let flags : UInt32 := if body.errorCode = 0 then routeResultFlagOk else 0
  let flags := if body.bodyValidJson then flags ||| routeResultFlagBodyValidJson else flags
  let flags := if queryValid then flags ||| routeResultFlagQueryValid else flags
  let flags := if cookieValid then flags ||| routeResultFlagCookieValid else flags
  if body.bodyValid then flags ||| routeResultFlagBodyValid else flags

/-- The parse stages: the writer behind the sections, and whether query and cookies are valid. -/
def NativeRoute.writeSections (route : NativeRoute) (f : RouteFrame) (w : ResultWriter) :
    ResultWriter × Bool × Bool :=
  let query := if route.parseQuery then writeQuerySection w f.query route.maxPairs else (w, false)
  let cookie :=
    if route.parseCookies then writeCookieSection query.1 f.cookie route.maxPairs
    else (query.1, false)
  (cookie.1, route.parseQuery && !query.2 && f.query.length ≤ route.maxQueryBytes,
    route.parseCookies && !cookie.2 && f.cookie.length ≤ route.maxCookieBytes)

def NativeRoute.run (crates : Crates) (route : NativeRoute) (frame out : Bytes) :
    Except String (Nat × Bytes) := do
  let f ← readRouteFrame frame
  let body := route.bodyVerdict crates f.hasBody f.body
  let r := route.writeSections f (ResultWriter.new out resultHeaderLen)
  let flags := routeResultFlags body r.2.1 r.2.2
  .ok (r.1.commit (le32 flags.toNat ++ le32 body.errorCode.toNat))

/-! ## What a writer holds -/

namespace ResultWriter

/-- Behind `start` bytes of header the writer has taken `text`: it is in the buffer, or the buffer is
too short for it. -/
structure Holds (out : Bytes) (start : Nat) (text : Bytes) (w : ResultWriter) : Prop where
  needed : w.needed = start + text.length
  length : w.out.length = out.length
  short : w.full = true → out.length < start + text.length
  fits : w.full = false →
    start + text.length ≤ out.length ∧ w.pos = start + text.length ∧ w.out = placed out start text

variable {out text : Bytes} {start : Nat} {w : ResultWriter}

theorem holds_new (out : Bytes) (start : Nat) : Holds out start [] (new out start) := by
  constructor
  · rfl
  · rfl
  · intro h
    exact of_decide_eq_true h
  · intro h
    have hle : ¬ out.length < start := of_decide_eq_false h
    exact ⟨Nat.le_of_not_lt hle, rfl, (placed_nil out start).symm⟩

theorem Holds.bytes (h : Holds out start text w) (b : Bytes) :
    Holds out start (text ++ b) (w.bytes b) := by
  have hlen : (text ++ b).length = text.length + b.length := List.length_append
  have hneeded := h.needed
  unfold ResultWriter.bytes
  dsimp only
  -- A full writer stays full and only counts on; one that has room writes the piece or becomes
  -- full.
  cases hfull : w.full with
  | true =>
    have hshort := h.short hfull
    rw [if_pos rfl]
    refine ⟨?_, h.length, fun _ => by omega, nofun⟩
    show w.needed + b.length = _
    omega
  | false =>
    obtain ⟨hroom, hpos, hout⟩ := h.fits hfull
    have hbuf : w.out.length = out.length := h.length
    rw [if_neg Bool.false_ne_true]
    split
    · next hfit =>
      refine ⟨?_, ?_, nofun, fun _ => ⟨by omega, ?_, ?_⟩⟩
      · show w.needed + b.length = _
        omega
      · show (placed w.out w.pos b).length = _
        rw [length_placed hfit, hbuf]
      · show w.pos + b.length = _
        omega
      · show placed w.out w.pos b = _
        rw [hout, hpos, placed_placed (by omega)]
    · next hno =>
      refine ⟨?_, hbuf, fun _ => by omega, nofun⟩
      show w.needed + b.length = _
      omega

theorem Holds.lenPrefixed (h : Holds out start text w) (b : Bytes) :
    Holds out start (text ++ packedComponent b) (w.lenPrefixed b) := by
  have hall := (h.bytes (le32 b.length)).bytes b
  rwa [List.append_assoc] at hall

/-- A reserved field can only be filled in by a writer that still writes, and it stands where it was
reserved. -/
theorem Holds.patchU32 {a b : Bytes} {n offset : Nat}
    (h : Holds out start (a ++ (le32 n ++ b)) w) (hoffset : w.full = false → offset = start + a.length)
    (value : Nat) : Holds out start (a ++ (le32 value ++ b)) (w.patchU32 offset value) := by
  have hlen : (a ++ (le32 n ++ b)).length = (a ++ (le32 value ++ b)).length := by
    simp only [List.length_append, length_le32]
  obtain ⟨hneeded, hbuf, hshort, hfits⟩ := h
  rw [hlen] at hneeded hshort hfits
  unfold ResultWriter.patchU32
  cases hfull : w.full with
  | true =>
    rw [if_neg (by rw [Bool.not_true, Bool.false_and]; exact Bool.false_ne_true)]
    exact ⟨hneeded, hbuf, hshort, fun hno => absurd hfull (by rw [hno]; decide)⟩
  | false =>
    obtain ⟨hroom, hpos, hout⟩ := hfits hfull
    have hat := hoffset hfull
    have hinside : offset + 4 ≤ w.out.length := by
      simp only [List.length_append, length_le32] at hroom
      omega
    rw [if_pos (by rw [Bool.not_false, Bool.true_and]; exact decide_eq_true hinside)]
    refine ⟨hneeded, ?_, nofun, fun _ => ⟨hroom, hpos, ?_⟩⟩
    · show (placed w.out offset (le32 value)).length = _
      rw [length_placed (by rw [length_le32]; exact hinside), hbuf]
    · have hfield : (le32 value).length = (le32 n).length := rfl
      show placed w.out offset (le32 value) = _
      rw [hout, hat, placed_patch (by omega) hfield]

/-- **The commit**: the size of the whole result, and the result itself where there is room. -/
theorem Holds.commit {header : Bytes} (h : Holds out header.length text w) :
    (w.commit header).1 = (header ++ text).length ∧ (w.commit header).2.length = out.length ∧
      ((header ++ text).length ≤ out.length →
        (w.commit header).2 = placed out 0 (header ++ text)) := by
  have hneeded := h.needed
  have hbuf := h.length
  rw [List.length_append]
  unfold ResultWriter.commit
  cases hfull : w.full with
  | true =>
    have hshort := h.short hfull
    rw [if_pos (by rw [Bool.true_or])]
    exact ⟨hneeded, hbuf, fun hroom => by omega⟩
  | false =>
    obtain ⟨hroom, hpos, hout⟩ := h.fits hfull
    have hnot : ¬ w.out.length < w.needed := by omega
    rw [if_neg (by rw [Bool.false_or]; exact fun hlt => hnot (of_decide_eq_true hlt))]
    have hlength : (placed w.out 0 header).length = w.out.length :=
      length_placed (by omega)
    refine ⟨hpos, hlength.trans hbuf, fun _ => ?_⟩
    have hdrop := drop_placed (show header.length ≤ out.length by omega) text 0
    rw [Nat.add_zero, List.drop_zero] at hdrop
    show header ++ w.out.drop (0 + header.length) = header ++ text ++ _
    rw [Nat.zero_add, hout, hdrop, List.append_assoc, Nat.zero_add, List.length_append]

end ResultWriter

/-! ## What a section holds -/

/-- The pairs that are taken when `count` of them are there already. -/
def cappedPairs (maxPairs count : Nat) (ps : List (Bytes × Bytes)) : List (Bytes × Bytes) :=
  if 0 < maxPairs then ps.take (maxPairs - count) else ps

def isCapped (maxPairs count : Nat) (ps : List (Bytes × Bytes)) : Bool :=
  0 < maxPairs && maxPairs - count < ps.length

theorem cappedPairs_nil (maxPairs count : Nat) : cappedPairs maxPairs count [] = [] := by
  unfold cappedPairs
  split
  · exact List.take_nil
  · rfl

/-- The cap is reached while a pair is left. -/
theorem cappedPairs_stop {maxPairs count : Nat} (h : 0 < maxPairs ∧ maxPairs ≤ count)
    (ps : List (Bytes × Bytes)) : cappedPairs maxPairs count ps = [] := by
  rw [cappedPairs, if_pos h.1, Nat.sub_eq_zero_of_le h.2, List.take_zero]

theorem cappedPairs_more {maxPairs count : Nat} (h : ¬ (0 < maxPairs ∧ maxPairs ≤ count))
    (p : Bytes × Bytes) (ps : List (Bytes × Bytes)) :
    cappedPairs maxPairs count (p :: ps) = p :: cappedPairs maxPairs (count + 1) ps := by
  unfold cappedPairs
  split
  · next hmax =>
    rw [show maxPairs - count = maxPairs - (count + 1) + 1 by omega, List.take_succ_cons]
  · rfl

theorem writePairsFrom_eq {decode : Bytes → Bytes → Bytes × Bytes} {f : Bytes → Bytes}
    (hdecode : ∀ src scratch, (decode src scratch).1 = f src) (maxPairs : Nat)
    (ps : List (Bytes × Bytes)) {out text : Bytes} {start : Nat} {w : ResultWriter}
    (h : w.Holds out start text) (scratch : Bytes) (count : Nat) :
    let taken := (cappedPairs maxPairs count ps).map fun p => (f p.1, f p.2)
    let r := writePairsFrom decode maxPairs ps w scratch count
    r.1.Holds out start (text ++ packedPairs taken) ∧ r.2.1 = count + taken.length ∧
      r.2.2 = isCapped maxPairs count ps := by
  induction ps generalizing text w scratch count with
  | nil =>
    rw [cappedPairs_nil]
    refine ⟨?_, rfl, ?_⟩
    · rw [List.map_nil, packedPairs, List.flatMap_nil, List.append_nil]
      exact h
    · show false = (_ && _)
      rw [List.length_nil, decide_eq_false (Nat.not_lt_zero _), Bool.and_false]
  | cons p ps ih =>
    unfold writePairsFrom
    by_cases hstop : 0 < maxPairs ∧ maxPairs ≤ count
    · rw [if_pos hstop, cappedPairs_stop hstop]
      refine ⟨?_, rfl, ?_⟩
      · rw [List.map_nil, packedPairs, List.flatMap_nil, List.append_nil]
        exact h
      · have hlt : maxPairs - count < (p :: ps).length := by
          rw [List.length_cons]
          omega
        show true = (_ && _)
        rw [decide_eq_true hstop.1, decide_eq_true hlt]
        rfl
    · rw [if_neg hstop]
      have hcapped : isCapped maxPairs count (p :: ps) = isCapped maxPairs (count + 1) ps := by
        unfold isCapped
        rw [Bool.eq_iff_iff]
        simp only [Bool.and_eq_true, decide_eq_true_eq, List.length_cons]
        omega
      -- one pair more; what the scratch buffer holds does not matter
      have hpair := (h.lenPrefixed (decode p.1 scratch).1).lenPrefixed
        (decode p.2 (decode p.1 scratch).2).1
      rw [hdecode, hdecode] at hpair
      obtain ⟨hholds, hcount, hcap⟩ := ih hpair (decode p.2 (decode p.1 scratch).2).2 (count + 1)
      rw [cappedPairs_more hstop, hcapped]
      dsimp only
      rw [hdecode, hdecode]
      refine ⟨?_, ?_, hcap⟩
      · rw [List.map_cons, packedPairs, List.flatMap_cons]
        rw [List.append_assoc, List.append_assoc] at hholds
        rw [List.append_assoc]
        exact hholds
      · rw [hcount, List.map_cons, List.length_cons]
        omega

theorem cappedPairs_map (f : Bytes × Bytes → Bytes × Bytes) (maxPairs : Nat)
    (ps : List (Bytes × Bytes)) :
    (cappedPairs maxPairs 0 ps).map f = cappedPairs maxPairs 0 (ps.map f) := by
  unfold cappedPairs
  split
  · exact List.map_take
  · rfl

theorem isCapped_map (f : Bytes × Bytes → Bytes × Bytes) (maxPairs : Nat)
    (ps : List (Bytes × Bytes)) : isCapped maxPairs 0 (ps.map f) = isCapped maxPairs 0 ps := by
  rw [isCapped, isCapped, List.length_map]

theorem ResultWriter.Holds.writePairSection {decode : Bytes → Bytes → Bytes × Bytes}
    {f : Bytes → Bytes} (hdecode : ∀ src scratch, (decode src scratch).1 = f src) {out text : Bytes}
    {start : Nat} {w : ResultWriter} (h : w.Holds out start text) (pairs : List (Bytes × Bytes))
    (maxPairs : Nat) :
    let ps := pairs.map fun p => (f p.1, f p.2)
    let r := Castrum.writePairSection decode w pairs maxPairs
    r.1.Holds out start (text ++ packedText (cappedPairs maxPairs 0 ps)) ∧
      r.2 = isCapped maxPairs 0 ps := by
  obtain ⟨hholds, hcount, hcapped⟩ := writePairsFrom_eq hdecode maxPairs pairs (h.bytes (le32 0)) [] 0
  dsimp only
  rw [← cappedPairs_map, isCapped_map]
  refine ⟨?_, hcapped⟩
  rw [List.append_assoc] at hholds
  unfold Castrum.writePairSection packedText
  dsimp only
  -- a section that fits began in a buffer with room
  have hpos : (writePairsFrom decode maxPairs pairs (w.u32 0) [] 0).1.full = false →
      w.pos = start + text.length := by
    intro hfull
    have hroom := (hholds.fits hfull).1
    rw [List.length_append] at hroom
    cases hw : w.full with
    | true =>
      have hshort := h.short hw
      omega
    | false => exact (h.fits hw).2.1
  have hpatched := hholds.patchU32 hpos (writePairsFrom decode maxPairs pairs (w.u32 0) [] 0).2.1
  rwa [show (writePairsFrom decode maxPairs pairs (w.u32 0) [] 0).2.1 = _ from hcount,
    Nat.zero_add] at hpatched ⊢

theorem rawComponent_fst (src scratch : Bytes) : (rawComponent src scratch).1 = id src := rfl

theorem map_rawQueryPairs (query : Bytes) :
    ((rawQueryPairs query).map fun p => (formDecode p.1, formDecode p.2)) = queryPairs query := by
  rw [rawQueryPairs, List.map_map]
  rfl

/-! ## What the stages say -/

/-- A result, with its parts read as `S`. -/
structure RouteResult (S : Type) where
  flags : Nat
  errorCode : Nat
  query : List (S × S)
  cookie : List (S × S)
  deriving DecidableEq, Repr

def RouteResult.map {S T : Type} (f : S → T) (r : RouteResult S) : RouteResult T :=
  { flags := r.flags
    errorCode := r.errorCode
    query := r.query.map fun p => (f p.1, f p.2)
    cookie := r.cookie.map fun p => (f p.1, f p.2) }

namespace NativeRoute

/-- The query is parsed, whole and within its limit. -/
def queryValid (route : NativeRoute) (query : Bytes) : Bool :=
  route.parseQuery && !isCapped route.maxPairs 0 (queryPairs query) &&
    query.length ≤ route.maxQueryBytes

def cookieValid (route : NativeRoute) (cookie : Bytes) : Bool :=
  route.parseCookies && !isCapped route.maxPairs 0 (cookiePairs cookie) &&
    cookie.length ≤ route.maxCookieBytes

/-- The verdict and the pairs of a request. -/
def result (crates : Crates) (route : NativeRoute) (f : RouteFrame) : RouteResult Bytes :=
  let body := route.bodyVerdict crates f.hasBody f.body
  { flags := (routeResultFlags body (route.queryValid f.query) (route.cookieValid f.cookie)).toNat
    errorCode := body.errorCode.toNat
    query := if route.parseQuery then cappedPairs route.maxPairs 0 (queryPairs f.query) else []
    cookie := if route.parseCookies then cappedPairs route.maxPairs 0 (cookiePairs f.cookie) else [] }

end NativeRoute

/-- A section is there if its stage is in the plan. -/
def sectionText (present : Bool) (ps : List (Bytes × Bytes)) : Bytes :=
  if present then packedText ps else []

/-- The wire of a result. -/
def RouteResult.bytes (r : RouteResult Bytes) (query cookie : Bool) : Bytes :=
  le32 r.flags ++ (le32 r.errorCode ++ (sectionText query r.query ++ sectionText cookie r.cookie))

/-- A stage that is in the plan writes its section; one that is not leaves the writer as it is, and
is never reported as valid. -/
theorem optionalSection_eq (present short : Bool) {out text : Bytes} {start maxPairs : Nat}
    {w : ResultWriter} (h : w.Holds out start text) {written : ResultWriter × Bool}
    {ps : List (Bytes × Bytes)}
    (hwritten : written.1.Holds out start (text ++ packedText (cappedPairs maxPairs 0 ps)) ∧
      written.2 = isCapped maxPairs 0 ps) :
    let r := if present then written else (w, false)
    r.1.Holds out start
        (text ++ sectionText present (if present then cappedPairs maxPairs 0 ps else [])) ∧
      (present && !r.2 && short) = (present && !isCapped maxPairs 0 ps && short) := by
  cases present with
  | false =>
    refine ⟨?_, rfl⟩
    show w.Holds out start (text ++ [])
    rwa [List.append_nil]
  | true =>
    refine ⟨hwritten.1, ?_⟩
    show (true && !written.2 && short) = _
    rw [hwritten.2]

theorem NativeRoute.writeSections_eq (crates : Crates) (route : NativeRoute) (f : RouteFrame)
    {out : Bytes} {w : ResultWriter} (h : w.Holds out resultHeaderLen []) :
    let r := route.writeSections f w
    r.1.Holds out resultHeaderLen
        (sectionText route.parseQuery (route.result crates f).query ++
          sectionText route.parseCookies (route.result crates f).cookie) ∧
      r.2.1 = route.queryValid f.query ∧ r.2.2 = route.cookieValid f.cookie := by
  have hwrittenQuery := h.writePairSection decodeFormComponentScratch_fst (rawQueryPairs f.query)
    route.maxPairs
  dsimp only at hwrittenQuery
  rw [map_rawQueryPairs] at hwrittenQuery
  obtain ⟨hquery, hqueryValid⟩ := optionalSection_eq route.parseQuery
    (f.query.length ≤ route.maxQueryBytes) h hwrittenQuery
  -- the cookie section is written behind it
  have hwrittenCookie := hquery.writePairSection rawComponent_fst (cookiePairs f.cookie)
    route.maxPairs
  have hself : ((cookiePairs f.cookie).map fun p => (id p.1, id p.2)) = cookiePairs f.cookie :=
    List.map_id _
  dsimp only at hwrittenCookie
  rw [hself] at hwrittenCookie
  obtain ⟨hcookie, hcookieValid⟩ := optionalSection_eq route.parseCookies
    (f.cookie.length ≤ route.maxCookieBytes) hquery hwrittenCookie
  rw [List.nil_append] at hcookie
  exact ⟨hcookie, hqueryValid, hcookieValid⟩

/-- **A run** answers the size of the result whatever the buffer, and writes the result where there
is room for all of it. -/
theorem NativeRoute.run_eq (crates : Crates) (route : NativeRoute) {frame : Bytes} {f : RouteFrame}
    (hframe : readRouteFrame frame = .ok f) (out : Bytes) :
    let text := (route.result crates f).bytes route.parseQuery route.parseCookies
    ∃ r, route.run crates frame out = .ok r ∧ r.1 = text.length ∧ r.2.length = out.length ∧
      (text.length ≤ out.length → r.2 = placed out 0 text) := by
  obtain ⟨hholds, hqueryValid, hcookieValid⟩ :=
    route.writeSections_eq crates f (ResultWriter.holds_new out resultHeaderLen)
  let header := le32 (route.result crates f).flags ++ le32 (route.result crates f).errorCode
  have hcommit := ResultWriter.Holds.commit
    (show ResultWriter.Holds out header.length _ _ from hholds)
  rw [show header ++ _ = (route.result crates f).bytes route.parseQuery route.parseCookies from
    List.append_assoc _ _ _] at hcommit
  refine ⟨_, ?_, hcommit⟩
  rw [NativeRoute.run, hframe]
  show Except.ok (ResultWriter.commit _ (le32 (routeResultFlags _ _ _).toNat ++ _)) = _
  rw [hqueryValid, hcookieValid]
  rfl

end Castrum
