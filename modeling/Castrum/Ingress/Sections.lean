import Castrum.Ingress.Stages
import Castrum.Json.QueryJson
import Castrum.Json.Strict

/-!
# Castrum — the sections of a result (`rust/ingress/pipeline.rs`, `rust/json/json_ser.rs`)

Behind the header the cookies go first, then the query, then a metadata envelope that repeats both.
Each section takes what room the ones before it left, and a section that does not fit is left out.

* `writeFullBodyJson_eq` — the envelope is written whole or not at all;
* `cookieSection_eq` / `querySection_eq` — when a section is there, and when it counts as truncated;
* `metadataText_strict` — the envelope is a strict JSON text;
* `writeBodySections_placed` — what a buffer holds of the three.
-/

namespace Castrum

open Ascii

/-! ## The envelope -/

def metadataOpen : Bytes := utf8 "\x7b\"ok\":true,\"requestId\":\""
def metadataPath : Bytes := utf8 "\",\"path\":\""
def metadataCookies : Bytes := utf8 "\",\"cookies\":"
def metadataQuery : Bytes := utf8 ",\"query\":"

/-- A section that is not there is written as an empty object. -/
def orEmptyObject (part : Bytes) : Bytes := if part = [] then [lbrace, rbrace] else part

/-- The envelope of the request id, the path and the two sections. -/
def metadataText (rid path cookies query : Bytes) : Bytes :=
  metadataOpen ++ escaped rid ++ metadataPath ++ escaped path ++ metadataCookies ++
    orEmptyObject cookies ++ metadataQuery ++ orEmptyObject query ++ [rbrace]

/-- A section, copied from where it was written. -/
def putPart (o : Out UInt8) (start len : Nat) : Option (Out UInt8) :=
  if 0 < len then o.copyWithin start len else o.put [lbrace, rbrace]

/-- The sections are copied from where they were written; what is returned is the length. -/
def writeFullBodyJson (out : Bytes) (pos : Nat) (rid path : Bytes)
    (cookiesStart cookiesLen queryStart queryLen : Nat) : Nat × Bytes :=
  let cookiesEffLen := if 0 < cookiesLen then cookiesLen else 2
  let queryEffLen := if 0 < queryLen then queryLen else 2
  let required := metadataOpen.length + jsonEscapedLen rid + metadataPath.length +
    jsonEscapedLen path + metadataCookies.length + cookiesEffLen + metadataQuery.length +
    queryEffLen + 1
  if out.length < pos + required then (0, out)
  else
    let written : Option (Out UInt8) := do
      let o ← ({ written := out.take pos, room := out.drop pos } : Out UInt8).put metadataOpen
      let o ← putEscaped o rid
      let o ← o.put metadataPath
      let o ← putEscaped o path
      let o ← o.put metadataCookies
      let o ← putPart o cookiesStart cookiesLen
      let o ← o.put metadataQuery
      let o ← putPart o queryStart queryLen
      o.put [rbrace]
    match written with
    | some o => (o.pos - pos, o.bytes)
    | none => (0, out) -- a panic, had the room not been checked

/-- A part copied from before the write position, with more to come. -/
theorem put_bind_putPart {o : Out UInt8} {start len : Nat} (h : start + len ≤ o.written.length) :
    (orEmptyObject ((o.bytes.drop start).take len)).length = (if 0 < len then len else 2) ∧
    ∀ (w : Bytes) (k : Out UInt8 → Option (Out UInt8)),
      ((o.put w).bind fun o => (putPart o start len).bind k) =
        (o.put (w ++ orEmptyObject ((o.bytes.drop start).take len))).bind k := by
  have hlen : ((o.bytes.drop start).take len).length = len := by
    rw [List.length_take, List.length_drop, Out.bytes, List.length_append]
    omega
  unfold orEmptyObject putPart
  by_cases hpos : 0 < len
  · have hne : (o.bytes.drop start).take len ≠ [] := List.ne_nil_of_length_pos (by omega)
    simp only [if_neg hne, if_pos hpos]
    exact ⟨hlen, fun w k => Out.put_bind_copyWithin o h w k⟩
  · have he : (o.bytes.drop start).take len = [] := List.eq_nil_of_length_eq_zero (by omega)
    simp only [if_pos he, if_neg hpos]
    exact ⟨rfl, fun w k => Out.put_bind_put o w _ k⟩

/-- **The envelope** is written whole, or there is no room for it. -/
theorem writeFullBodyJson_eq {out : Bytes} {pos : Nat} (rid path : Bytes)
    {cookiesStart cookiesLen queryStart queryLen : Nat} (hpos : pos ≤ out.length)
    (hcookies : cookiesStart + cookiesLen ≤ pos) (hquery : queryStart + queryLen ≤ pos) :
    writeFullBodyJson out pos rid path cookiesStart cookiesLen queryStart queryLen =
      let text := metadataText rid path ((out.drop cookiesStart).take cookiesLen)
        ((out.drop queryStart).take queryLen)
      if out.length < pos + text.length then (0, out)
      else (text.length, placed out pos text) := by
  let o : Out UInt8 := { written := out.take pos, room := out.drop pos }
  have hbytes : o.bytes = out := List.take_append_drop pos out
  have hwritten : o.written.length = pos := List.length_take_of_le hpos
  obtain ⟨hcookiesLen, hcookiesPut⟩ := put_bind_putPart (hcookies.trans_eq hwritten.symm)
  obtain ⟨hqueryLen, hqueryPut⟩ := put_bind_putPart (hquery.trans_eq hwritten.symm)
  rw [hbytes] at hcookiesLen hcookiesPut hqueryLen hqueryPut
  unfold writeFullBodyJson
  dsimp only
  set text := metadataText rid path ((out.drop cookiesStart).take cookiesLen)
    ((out.drop queryStart).take queryLen) with htext
  -- what is asked for before anything is written is the length of the text
  have hrequired : metadataOpen.length + jsonEscapedLen rid + metadataPath.length +
      jsonEscapedLen path + metadataCookies.length + (if 0 < cookiesLen then cookiesLen else 2) +
      metadataQuery.length + (if 0 < queryLen then queryLen else 2) + 1 = text.length := by
    rw [htext, metadataText, jsonEscapedLen_eq, jsonEscapedLen_eq, ← hcookiesLen, ← hqueryLen]
    simp only [List.length_append, List.length_singleton]
  rw [hrequired]
  split
  · rfl
  · next hfit =>
    have hput : o.put text =
        some { written := out.take pos ++ text, room := (out.drop pos).drop text.length } :=
      Out.put_of_le (by show _ ≤ (out.drop pos).length; rw [List.length_drop]; omega)
    -- the nine pieces are one text
    have hchain : (do
        let o ← o.put metadataOpen
        let o ← putEscaped o rid
        let o ← o.put metadataPath
        let o ← putEscaped o path
        let o ← o.put metadataCookies
        let o ← putPart o cookiesStart cookiesLen
        let o ← o.put metadataQuery
        let o ← putPart o queryStart queryLen
        o.put [rbrace]) = o.put text := by
      simp only [putEscaped_eq, Option.bind_eq_bind]
      rw [Out.put_bind_put, Out.put_bind_put, Out.put_bind_put, Out.put_bind_put, hcookiesPut,
        Out.put_bind_put, hqueryPut, Out.put_put]
      rfl
    rw [hchain, hput]
    show ((out.take pos ++ text).length - pos, _) = _
    rw [List.length_append, show (out.take pos).length = pos from hwritten, Nat.add_sub_cancel_left]
    show (_, (out.take pos ++ text) ++ (out.drop pos).drop text.length) = _
    rw [List.drop_drop, List.append_assoc]
    rfl

theorem Member.plain {T : Json → Bytes → Prop} {raw s : Bytes} {v : Json} (hraw : IsStringBody raw)
    (hs : T v s) : Member T (raw, v) (quote :: (raw ++ quote :: colon :: s)) := by
  have h := Member.mk IsWs.nil hraw IsWs.nil IsWs.nil hs IsWs.nil
  simpa using h

theorem isText_string {raw : Bytes} (h : IsStringBody raw) :
    IsText (.str raw) (quote :: (raw ++ [quote])) := ⟨0, rfl, h⟩

theorem orEmptyObject_strict {part : Bytes} (h : part ≠ [] → IsStrictText part) :
    IsStrictText (orEmptyObject part) := by
  unfold orEmptyObject
  split
  · exact ⟨.obj [], ⟨0, [], rfl, .inl ⟨rfl, IsWs.nil⟩⟩, trivial⟩
  · next hne => exact h hne

/-- **The envelope is a strict JSON text**, where the sections in it are. The request id and the path
are escaped like the names and values of the sections. -/
theorem metadataText_strict (rid path : Bytes) {cookies query : Bytes}
    (hcookies : cookies ≠ [] → IsStrictText cookies) (hquery : query ≠ [] → IsStrictText query) :
    IsStrictText (metadataText rid path cookies query) := by
  obtain ⟨vc, hvc, hstrictC⟩ := orEmptyObject_strict hcookies
  obtain ⟨vq, hvq, hstrictQ⟩ := orEmptyObject_strict hquery
  -- the names need no escapes
  have name : ∀ {raw : Bytes}, (∀ b ∈ raw, b ≠ quote ∧ b ≠ backslash ∧ 32 ≤ b) →
      IsStringBody raw := isStringBody_plain
  have mOk : Member IsText (utf8 "ok", .bool true) _ :=
    .plain (name (by decide)) (⟨0, rfl⟩ : IsText (.bool true) trueTok)
  have mRid : Member IsText (utf8 "requestId", .str (escaped rid)) _ :=
    .plain (name (by decide)) (isText_string (isStringBody_escaped rid))
  have mPath : Member IsText (utf8 "path", .str (escaped path)) _ :=
    .plain (name (by decide)) (isText_string (isStringBody_escaped path))
  have mCookies : Member IsText (utf8 "cookies", vc) _ := .plain (name (by decide)) hvc
  have mQuery : Member IsText (utf8 "query", vq) _ := .plain (name (by decide)) hvq
  have members := Members.cons mOk (.cons mRid (.cons mPath (.cons mCookies (.one mQuery))))
  have strictName : ∀ {raw : Bytes},
      (∀ b ∈ raw, b ≠ quote ∧ b ≠ backslash ∧ 32 ≤ b ∧ b < 0x80) → IsStrictBody raw :=
    isStrictBody_plain
  refine ⟨.obj _, (isText_iff _ _).mpr ⟨_, ?_, .inr members⟩, ?_⟩
  · have hopen : metadataOpen = lbrace :: quote :: (utf8 "ok" ++ quote :: colon :: (trueTok ++
        comma :: quote :: (utf8 "requestId" ++ [quote, colon, quote]))) := by decide
    have hpath : metadataPath = quote :: comma :: quote :: (utf8 "path" ++ [quote, colon, quote]) := by
      decide
    have hcookiesName : metadataCookies = quote :: comma :: quote :: (utf8 "cookies" ++
        [quote, colon]) := by decide
    have hqueryName : metadataQuery = comma :: quote :: (utf8 "query" ++ [quote, colon]) := by decide
    rw [metadataText, hopen, hpath, hcookiesName, hqueryName]
    simp only [List.append_assoc, List.cons_append, List.nil_append]
  · exact ⟨strictName (by decide), trivial, strictName (by decide), isStrictBody_escaped rid,
      strictName (by decide), isStrictBody_escaped path, strictName (by decide), hstrictC,
      strictName (by decide), hstrictQ, trivial⟩

/-! ## Cookies and query -/

/-- What a section writer did: the length it reports (`as u32`), the buffer, and whether the section
was left out for want of room. What a writer that failed left behind `pos` is not kept track of: the
next section overwrites it, or it lies behind the result. -/
def writeSection {ε : Type} (out : Bytes) (pos : Nat) (r : Except (Failure ε) (Out UInt8)) :
    UInt32 × Bytes × Bool :=
  match r with
  | .ok part => (UInt32.ofNat part.pos, out.take pos ++ part.bytes, false)
  | .error _ => (0, out, true)

theorem writeSection_put {ε : Type} {out : Bytes} {pos : Nat} (hpos : pos ≤ out.length) (e : ε)
    (text : Bytes) :
    writeSection out pos (orFail (.fail e) ((Out.new (out.drop pos)).put text)) =
      if pos + text.length ≤ out.length then
        (UInt32.ofNat text.length, placed out pos text, false)
      else (0, out, true) := by
  have hroom : (Out.new (out.drop pos)).room.length = out.length - pos := List.length_drop
  split
  · next hfit =>
    rw [Out.put_of_le (by omega)]
    show (UInt32.ofNat (List.length ([] ++ text)), out.take pos ++ (([] ++ text) ++
      (out.drop pos).drop text.length), false) = _
    rw [List.nil_append, List.drop_drop]
    rfl
  · next hfit =>
    rw [Out.put_of_lt (by omega)]
    rfl

section

variable (inner : IngressInner) (headers : HeaderRefs) (rawQuery : Bytes)

def cookieSection (out : Bytes) : UInt32 × Bytes × Bool :=
  if inner.parseCookies then
    match headers.cookie with
    | some cookie =>
      if cookie.length ≤ inner.limits.maxCookieBytes.toNat then
        writeSection out outDataStart
          (cookieJsonIntoSlice cookie (out.drop outDataStart) inner.limits.maxPairs.toNat)
      else (0, out, false)
    | none => (0, out, false)
  else (0, out, false)

def querySection (out : Bytes) (pos : Nat) : UInt32 × Bytes × Bool :=
  if inner.parseQuery ∧ rawQuery ≠ [] ∧ pos < out.length then
    writeSection out pos
      (queryToJsonIntoSlice rawQuery (out.drop pos) inner.limits.maxPairs.toNat)
  else (0, out, false)

structure BodySections where
  cookiesJsonLen : UInt32
  queryJsonLen : UInt32
  bodyJsonLen : Nat
  truncated : Bool
  deriving DecidableEq, Repr

def writeBodySections (url rid : Bytes) (out : Bytes) : BodySections × Bytes :=
  let cookies := cookieSection inner headers out
  let cookiesStart := outDataStart
  let pos := outDataStart + cookies.1.toNat
  let query := querySection inner rawQuery cookies.2.1 pos
  let queryStart := pos
  let pos := pos + query.1.toNat
  let body :=
    if inner.emitMetadataJson then
      writeFullBodyJson query.2.1 pos rid (extractPath url) cookiesStart cookies.1.toNat queryStart
        query.1.toNat
    else (0, query.2.1)
  ({ cookiesJsonLen := cookies.1, queryJsonLen := query.1, bodyJsonLen := body.1,
     truncated := cookies.2.2 || query.2.2 }, body.2)

/-! ## What they write -/

/-- The text of the cookies section, for a request that has one. -/
def cookiesText : Bytes :=
  if inner.parseCookies then
    match headers.cookie with
    | some cookie =>
      if cookie.length ≤ inner.limits.maxCookieBytes.toNat then
        objectText ((cookiePairs cookie).take inner.limits.maxPairs.toNat)
      else []
    | none => []
  else []

/-- The text of the query section, for a request that has one. -/
def queryText : Bytes :=
  if inner.parseQuery ∧ rawQuery ≠ [] then
    objectText ((queryPairs rawQuery).take inner.limits.maxPairs.toNat)
  else []

theorem cookiesText_cases :
    cookiesText inner headers = [] ∨ ∃ ps, cookiesText inner headers = objectText ps := by
  unfold cookiesText
  split
  · split
    · split
      · exact .inr ⟨_, rfl⟩
      · exact .inl rfl
    · exact .inl rfl
  · exact .inl rfl

theorem cookiesText_strict (h : cookiesText inner headers ≠ []) :
    IsStrictText (cookiesText inner headers) := by
  rcases cookiesText_cases inner headers with hnil | ⟨ps, hps⟩
  · exact absurd hnil h
  · rw [hps]
    exact objectText_strict ps

theorem queryText_strict (h : queryText inner rawQuery ≠ []) :
    IsStrictText (queryText inner rawQuery) := by
  unfold queryText at h ⊢
  split
  · exact objectText_strict _
  · next hparse =>
    rw [if_neg hparse] at h
    exact absurd rfl h

/-- The length of the envelope around sections of these lengths. -/
def envelopeLen (rid path : Bytes) (cookiesLen queryLen : Nat) : Nat :=
  metadataOpen.length + (escaped rid).length + metadataPath.length + (escaped path).length +
    metadataCookies.length + (if 0 < cookiesLen then cookiesLen else 2) + metadataQuery.length +
    (if 0 < queryLen then queryLen else 2) + 1

theorem length_metadataText (rid path cookies query : Bytes) :
    (metadataText rid path cookies query).length =
      envelopeLen rid path cookies.length query.length := by
  have hpart : ∀ part : Bytes,
      (orEmptyObject part).length = if 0 < part.length then part.length else 2 := by
    intro part
    unfold orEmptyObject
    cases part <;> rfl
  rw [metadataText, envelopeLen, ← hpart, ← hpart]
  simp only [List.length_append, List.length_singleton]

/-- **The cookies** are written if they fit, and otherwise count as truncated. -/
theorem cookieSection_eq {out : Bytes} (hout : outDataStart ≤ out.length) :
    cookieSection inner headers out =
      if outDataStart + (cookiesText inner headers).length ≤ out.length then
        (UInt32.ofNat (cookiesText inner headers).length,
          placed out outDataStart (cookiesText inner headers), false)
      else (0, out, true) := by
  have hnone : (0, out, false) =
      if outDataStart + ([] : Bytes).length ≤ out.length then
        (UInt32.ofNat ([] : Bytes).length, placed out outDataStart [], false)
      else ((0 : UInt32), out, true) := by
    rw [List.length_nil, Nat.add_zero, if_pos hout, placed_nil]
    rfl
  unfold cookieSection cookiesText
  split
  · cases headers.cookie with
    | none => exact hnone
    | some cookie =>
      dsimp only
      split
      · rw [cookieJsonIntoSlice_eq, writeSection_put hout]
      · exact hnone
  · exact hnone

/-- **The query** is written if it fits, and otherwise counts as truncated; but where no byte is left
it is not tried at all. -/
theorem querySection_eq {out : Bytes} {pos : Nat} (hpos : pos ≤ out.length) :
    querySection inner rawQuery out pos =
      if queryText inner rawQuery = [] ∨ pos = out.length then (0, out, false)
      else if pos + (queryText inner rawQuery).length ≤ out.length then
        (UInt32.ofNat (queryText inner rawQuery).length,
          placed out pos (queryText inner rawQuery), false)
      else (0, out, true) := by
  unfold querySection queryText
  by_cases hparse : inner.parseQuery = true ∧ rawQuery ≠ []
  · have hne : objectText ((queryPairs rawQuery).take inner.limits.maxPairs.toNat) ≠ [] :=
      List.cons_ne_nil _ _
    rw [if_pos hparse]
    by_cases hfull : pos = out.length
    · rw [if_neg (by omega), if_pos (.inr hfull)]
    · rw [if_pos ⟨hparse.1, hparse.2, by omega⟩, if_neg (not_or.mpr ⟨hne, hfull⟩),
        queryToJsonIntoSlice_eq, writeSection_put hpos]
  · rw [if_neg hparse, if_neg fun h => hparse ⟨h.1, h.2.1⟩, if_pos (.inl rfl)]

end

/-! ## All three -/

/-- The lengths of the sections in a buffer of `cap` bytes, from the lengths of their texts. -/
structure Lengths where
  cookies : Nat
  query : Nat
  body : Nat
  truncated : Bool
  deriving DecidableEq, Repr

/-- Each section takes what room is left; the lengths of the first two are cut to 32 bits. -/
def sectionLengths (emit : Bool) (cookies query : Nat) (envelope : Nat → Nat → Nat) (cap : Nat) :
    Lengths :=
  let c := if outDataStart + cookies ≤ cap then cookies % 2 ^ 32 else 0
  let tried := query ≠ 0 ∧ outDataStart + c ≠ cap
  let q := if tried ∧ outDataStart + c + query ≤ cap then query % 2 ^ 32 else 0
  { cookies := c
    query := q
    body := if emit ∧ outDataStart + c + q + envelope c q ≤ cap then envelope c q else 0
    truncated := cap < outDataStart + cookies ∨ tried ∧ cap < outDataStart + c + query }

/-- A section that begins at `pos`: its whole text where there is room for it, nothing otherwise. -/
def fitted (cap pos : Nat) (text : Bytes) : Bytes := if pos + text.length ≤ cap then text else []

/-- The sections that a request puts into a buffer of `cap` bytes. Each of them takes what room the
ones before it left, and the envelope repeats those two that are there. -/
def sectionsOf (inner : IngressInner) (headers : HeaderRefs) (rawQuery url rid : Bytes) (cap : Nat) :
    Sections :=
  let cookies := fitted cap outDataStart (cookiesText inner headers)
  let query := fitted cap (outDataStart + cookies.length) (queryText inner rawQuery)
  let body :=
    if inner.emitMetadataJson then
      fitted cap (outDataStart + cookies.length + query.length)
        (metadataText rid (extractPath url) cookies query)
    else []
  ⟨cookies, query, body⟩

/-- A section is its text, if it is there. -/
theorem fitted_strict (cap pos : Nat) {text : Bytes} (h : text ≠ [] → IsStrictText text) :
    fitted cap pos text ≠ [] → IsStrictText (fitted cap pos text) := by
  unfold fitted
  split
  · exact h
  · exact fun hne => absurd rfl hne

/-- **Every section that is there is a strict JSON text.** -/
theorem sectionsOf_strict (inner : IngressInner) (headers : HeaderRefs) (rawQuery url rid : Bytes)
    (cap : Nat) :
    let s := sectionsOf inner headers rawQuery url rid cap
    (s.cookies ≠ [] → IsStrictText s.cookies) ∧ (s.query ≠ [] → IsStrictText s.query) ∧
      (s.body ≠ [] → IsStrictText s.body) := by
  have hcookies := fitted_strict cap outDataStart (cookiesText_strict inner headers)
  have hquery := fitted_strict cap
    (outDataStart + (fitted cap outDataStart (cookiesText inner headers)).length)
    (queryText_strict inner rawQuery)
  refine ⟨hcookies, hquery, ?_⟩
  unfold sectionsOf
  dsimp only
  split
  · exact fitted_strict _ _ fun _ => metadataText_strict rid (extractPath url) hcookies hquery
  · exact fun hne => absurd rfl hne

/-- The length of every section fits the 32 bits that the header has for it. -/
structure Sections.Narrow (s : Sections) : Prop where
  cookies_lt : s.cookies.length < 2 ^ 32
  query_lt : s.query.length < 2 ^ 32
  body_lt : s.body.length < 2 ^ 32

theorem fitted_le {cap pos : Nat} (text : Bytes) (hpos : pos ≤ cap) :
    pos + (fitted cap pos text).length ≤ cap := by
  unfold fitted
  split
  · next hfit => exact hfit
  · exact hpos

/-- A buffer that 32 bits can measure has no room for a longer section. -/
theorem sectionsOf_narrow (inner : IngressInner) (headers : HeaderRefs) (rawQuery url rid : Bytes)
    {cap : Nat} (hcap : outDataStart ≤ cap) (hsmall : cap < 2 ^ 32 + outDataStart) :
    (sectionsOf inner headers rawQuery url rid cap).Narrow := by
  have hcookies := fitted_le (cookiesText inner headers) hcap
  have hquery := fitted_le (queryText inner rawQuery) hcookies
  refine ⟨?_, ?_, ?_⟩
  · show (fitted cap outDataStart (cookiesText inner headers)).length < 2 ^ 32
    omega
  · show (fitted cap _ (queryText inner rawQuery)).length < 2 ^ 32
    omega
  · unfold sectionsOf
    dsimp only
    split
    · have hbody := fitted_le (metadataText rid (extractPath url)
        (fitted cap outDataStart (cookiesText inner headers))
        (fitted cap (outDataStart + (fitted cap outDataStart (cookiesText inner headers)).length)
          (queryText inner rawQuery))) hquery
      omega
    · exact Nat.two_pow_pos 32

section

variable (inner : IngressInner) (headers : HeaderRefs) (rawQuery url rid : Bytes) {out : Bytes}

theorem cookieSection_lengths (hout : outDataStart ≤ out.length) :
    let r := cookieSection inner headers out
    let cookies := (cookiesText inner headers).length
    r.1.toNat = (if outDataStart + cookies ≤ out.length then cookies % 2 ^ 32 else 0) ∧
      r.2.1.length = out.length ∧ r.2.2 = decide (out.length < outDataStart + cookies) := by
  dsimp only
  rw [cookieSection_eq inner headers hout]
  split
  · next hfit => exact ⟨UInt32.toNat_ofNat', length_placed hfit, (decide_eq_false (by omega)).symm⟩
  · next hfit => exact ⟨rfl, rfl, (decide_eq_true (by omega)).symm⟩

theorem querySection_lengths {pos : Nat} (hpos : pos ≤ out.length) :
    let r := querySection inner rawQuery out pos
    let query := (queryText inner rawQuery).length
    r.1.toNat = (if (query ≠ 0 ∧ pos ≠ out.length) ∧ pos + query ≤ out.length then query % 2 ^ 32
      else 0) ∧ r.2.1.length = out.length ∧
      r.2.2 = decide ((query ≠ 0 ∧ pos ≠ out.length) ∧ out.length < pos + query) := by
  dsimp only
  rw [querySection_eq inner rawQuery hpos]
  by_cases htried : queryText inner rawQuery = [] ∨ pos = out.length
  · have hnot : ¬ ((queryText inner rawQuery).length ≠ 0 ∧ pos ≠ out.length) := by
      rintro ⟨hne, hlt⟩
      rcases htried with hnil | hfull
      · exact hne (List.length_eq_zero_iff.mpr hnil)
      · exact hlt hfull
    rw [if_pos htried, if_neg fun h => hnot h.1]
    exact ⟨rfl, rfl, (decide_eq_false fun h => hnot h.1).symm⟩
  · have hyes : (queryText inner rawQuery).length ≠ 0 ∧ pos ≠ out.length :=
      ⟨fun h => htried (.inl (List.length_eq_zero_iff.mp h)), fun h => htried (.inr h)⟩
    rw [if_neg htried]
    split
    · next hfit =>
      rw [if_pos ⟨hyes, hfit⟩]
      exact ⟨UInt32.toNat_ofNat', length_placed hfit, (decide_eq_false (by omega)).symm⟩
    · next hfit =>
      rw [if_neg fun h => hfit h.2]
      exact ⟨rfl, rfl, (decide_eq_true ⟨hyes, by omega⟩).symm⟩

theorem writeFullBodyJson_lengths {pos cookiesStart cookiesLen queryStart queryLen : Nat}
    (path : Bytes) (hpos : pos ≤ out.length) (hcookies : cookiesStart + cookiesLen ≤ pos)
    (hquery : queryStart + queryLen ≤ pos) :
    let r := writeFullBodyJson out pos rid path cookiesStart cookiesLen queryStart queryLen
    r.1 = (if pos + envelopeLen rid path cookiesLen queryLen ≤ out.length then
      envelopeLen rid path cookiesLen queryLen else 0) ∧ r.2.length = out.length := by
  have hslice : ∀ {start len : Nat}, start + len ≤ pos → ((out.drop start).take len).length = len := by
    intro start len hspan
    rw [List.length_take, List.length_drop]
    omega
  dsimp only
  rw [writeFullBodyJson_eq rid path hpos hcookies hquery]
  dsimp only
  rw [length_metadataText, hslice hcookies, hslice hquery]
  split
  · next hroom =>
    rw [if_neg (by omega)]
    exact ⟨rfl, rfl⟩
  · next hroom =>
    rw [if_pos (by omega)]
    refine ⟨rfl, length_placed ?_⟩
    rw [length_metadataText, hslice hcookies, hslice hquery]
    omega

/-- **The lengths that are reported**, and that the buffer keeps its size. -/
theorem writeBodySections_lengths (hout : outDataStart ≤ out.length) :
    let r := writeBodySections inner headers rawQuery url rid out
    r.2.length = out.length ∧
    (⟨r.1.cookiesJsonLen.toNat, r.1.queryJsonLen.toNat, r.1.bodyJsonLen, r.1.truncated⟩ : Lengths) =
      sectionLengths inner.emitMetadataJson (cookiesText inner headers).length
        (queryText inner rawQuery).length (envelopeLen rid (extractPath url)) out.length := by
  obtain ⟨hc, hcLen, hcTrunc⟩ := cookieSection_lengths inner headers hout
  have hcRoom : outDataStart + (cookieSection inner headers out).1.toNat ≤ out.length := by
    rw [hc]
    split <;> omega
  obtain ⟨hq, hqLen, hqTrunc⟩ := querySection_lengths inner rawQuery (hcRoom.trans_eq hcLen.symm)
  rw [hcLen] at hq hqLen hqTrunc
  set cookies := cookieSection inner headers out with hcookies
  set query := querySection inner rawQuery cookies.2.1 (outDataStart + cookies.1.toNat) with hquery
  have hqRoom : outDataStart + cookies.1.toNat + query.1.toNat ≤ out.length := by
    rw [hq]
    split <;> omega
  -- the envelope, if there is one, behind both
  have hbody : ∀ body : Nat × Bytes,
      body = (if inner.emitMetadataJson then
        writeFullBodyJson query.2.1 (outDataStart + cookies.1.toNat + query.1.toNat) rid
          (extractPath url) outDataStart cookies.1.toNat (outDataStart + cookies.1.toNat)
          query.1.toNat
        else (0, query.2.1)) →
      body.2.length = out.length ∧
      body.1 = (if inner.emitMetadataJson = true ∧ outDataStart + cookies.1.toNat + query.1.toNat +
          envelopeLen rid (extractPath url) cookies.1.toNat query.1.toNat ≤ out.length then
        envelopeLen rid (extractPath url) cookies.1.toNat query.1.toNat else 0) := by
    rintro body rfl
    by_cases hemit : inner.emitMetadataJson = true
    · obtain ⟨hlen, hsize⟩ := writeFullBodyJson_lengths rid (extractPath url)
        (hqRoom.trans_eq hqLen.symm) (Nat.le_add_right _ _) (Nat.le_refl _)
      rw [if_pos hemit, hsize, hlen, hqLen]
      simp only [hemit, true_and, and_self]
    · rw [if_neg hemit, if_neg fun h => hemit h.1]
      exact ⟨hqLen, rfl⟩
  obtain ⟨hbodyLen, hbodySize⟩ := hbody _ rfl
  refine ⟨hbodyLen, ?_⟩
  unfold sectionLengths
  dsimp only
  rw [Lengths.mk.injEq]
  refine ⟨hc, ?_, ?_, ?_⟩
  · rw [← hc]
    exact hq
  · rw [← hc, ← hq]
    exact hbodySize
  · rw [← hc]
    show (cookies.2.2 || query.2.2) = _
    rw [hcTrunc, hqTrunc, Bool.decide_or]

/-- The cookies are written at the start of the data. -/
theorem cookieSection_placed (hout : outDataStart ≤ out.length)
    (hwide : (fitted out.length outDataStart (cookiesText inner headers)).length < 2 ^ 32) :
    (cookieSection inner headers out).2.1 =
        placed out outDataStart (fitted out.length outDataStart (cookiesText inner headers)) ∧
      (cookieSection inner headers out).1.toNat =
        (fitted out.length outDataStart (cookiesText inner headers)).length ∧
      outDataStart + (fitted out.length outDataStart (cookiesText inner headers)).length ≤ out.length := by
  unfold fitted at hwide ⊢
  rw [cookieSection_eq inner headers hout]
  split
  · next hfit =>
    rw [if_pos hfit] at hwide
    exact ⟨rfl, UInt32.toNat_ofNat_of_lt' hwide, hfit⟩
  · exact ⟨(placed_nil _ _).symm, rfl, hout⟩

/-- The query is written behind the cookies `C`. -/
theorem querySection_placed (hout : outDataStart ≤ out.length) {C : Bytes}
    (hroom : outDataStart + C.length ≤ out.length)
    (hwide : (fitted out.length (outDataStart + C.length) (queryText inner rawQuery)).length < 2 ^ 32) :
    (querySection inner rawQuery (placed out outDataStart C) (outDataStart + C.length)).2.1 =
        placed out outDataStart
          (C ++ fitted out.length (outDataStart + C.length) (queryText inner rawQuery)) ∧
      (querySection inner rawQuery (placed out outDataStart C) (outDataStart + C.length)).1.toNat =
        (fitted out.length (outDataStart + C.length) (queryText inner rawQuery)).length ∧
      outDataStart + C.length +
        (fitted out.length (outDataStart + C.length) (queryText inner rawQuery)).length ≤ out.length := by
  have hlength : (placed out outDataStart C).length = out.length := length_placed hroom
  have hleft : placed out outDataStart C = placed out outDataStart (C ++ []) := by
    rw [List.append_nil]
  rw [querySection_eq inner rawQuery (hroom.trans_eq hlength.symm), hlength]
  by_cases hnone : queryText inner rawQuery = [] ∨ outDataStart + C.length = out.length
  · -- nothing to write, or no byte to write it in
    have hempty : fitted out.length (outDataStart + C.length) (queryText inner rawQuery) = [] := by
      unfold fitted
      by_cases hnil : queryText inner rawQuery = []
      · rw [hnil]
        split <;> rfl
      · have hpos := List.length_pos_iff.mpr hnil
        rw [if_neg]
        rcases hnone with hnil' | hfull
        · exact absurd hnil' hnil
        · omega
    rw [if_pos hnone, hempty]
    exact ⟨hleft, rfl, hroom⟩
  · unfold fitted at hwide ⊢
    rw [if_neg hnone]
    split
    · next hfit =>
      rw [if_pos hfit] at hwide
      exact ⟨placed_placed hout _ _, UInt32.toNat_ofNat_of_lt' hwide, hfit⟩
    · exact ⟨hleft, rfl, hroom⟩

/-- **The sections are written one behind another**, each of them whole or not at all, where none is
so long that its length is cut to 32 bits. -/
theorem writeBodySections_placed (hout : outDataStart ≤ out.length)
    (hnarrow : (sectionsOf inner headers rawQuery url rid out.length).Narrow) :
    let r := writeBodySections inner headers rawQuery url rid out
    let s := sectionsOf inner headers rawQuery url rid out.length
    r.2 = placed out outDataStart (s.cookies ++ (s.query ++ s.body)) ∧
      outDataStart + (s.cookies ++ (s.query ++ s.body)).length ≤ out.length ∧
      r.1.cookiesJsonLen.toNat = s.cookies.length ∧ r.1.queryJsonLen.toNat = s.query.length ∧
      r.1.bodyJsonLen = s.body.length := by
  obtain ⟨hwideC, hwideQ, -⟩ := hnarrow
  unfold sectionsOf at hwideC hwideQ ⊢
  dsimp only at hwideC hwideQ ⊢
  obtain ⟨hCbuf, hClen, hCroom⟩ := cookieSection_placed inner headers hout hwideC
  generalize fitted out.length outDataStart (cookiesText inner headers) = C
    at hCbuf hClen hCroom hwideQ ⊢
  obtain ⟨hQbuf, hQlen, hQroom⟩ := querySection_placed inner rawQuery hout hCroom hwideQ
  generalize fitted out.length (outDataStart + C.length) (queryText inner rawQuery) = Q
    at hQbuf hQlen hQroom ⊢
  have hbufQ : (placed out outDataStart (C ++ Q)).length = out.length :=
    length_placed (by rw [List.length_append]; omega)
  have hsliceC : ((placed out outDataStart (C ++ Q)).drop outDataStart).take C.length = C := by
    have hdrop := drop_placed hout (C ++ Q) 0
    rw [Nat.add_zero, List.drop_zero] at hdrop
    rw [hdrop, List.append_assoc, List.take_left]
  have hsliceQ : ((placed out outDataStart (C ++ Q)).drop (outDataStart + C.length)).take Q.length =
      Q := by
    rw [drop_placed hout, List.append_assoc, List.drop_left, List.take_left]
  -- the envelope copies both sections from the buffer
  unfold writeBodySections
  dsimp only
  rw [hCbuf, hClen, hQbuf, hQlen]
  by_cases hemit : inner.emitMetadataJson = true
  · rw [if_pos hemit, if_pos hemit, writeFullBodyJson_eq rid (extractPath url)
      (by rw [hbufQ]; omega) (Nat.le_add_right _ _) (Nat.le_refl _), hsliceC, hsliceQ, hbufQ]
    unfold fitted
    dsimp only
    split
    · rw [if_neg (by omega), List.append_nil, List.length_append]
      exact ⟨rfl, by omega, rfl, rfl, rfl⟩
    · next hroom =>
      rw [if_pos (by omega)]
      refine ⟨?_, ?_, rfl, rfl, rfl⟩
      · rw [Nat.add_assoc, ← List.length_append]
        show placed (placed out outDataStart (C ++ Q)) _ _ = _
        rw [placed_placed hout, List.append_assoc]
      · rw [List.length_append, List.length_append]
        omega
  · rw [if_neg hemit, if_neg hemit, List.append_nil, List.length_append]
    exact ⟨rfl, by omega, rfl, rfl, rfl⟩

end

end Castrum
