import Castrum.Ingress.Sections

/-!
# Castrum — the two entries of the ingress (`rust/ingress/pipeline.rs`)

`handle_packed` reads a frame and hands its parts to `handle_components`, which native callers also
reach directly. Behind both are the same stages and the same writer.

* `handlePacked_decodeFrame` — what the packed entry does with a frame;
* `handleComponents_eq_packed_iff` — when the two entries answer alike;
* `noSilentLoss_iff` — when a section that has no room is reported;
* `handle_laidOut` — the layout of every result.
-/

namespace Castrum

section

variable (crates : Crates) (inner : IngressInner)

/-! ## The entries -/

/-- Stages 7 and 8 of a request that passes: the sections, and the header over them. -/
def writePass (url rid : Bytes) (p : Pass) (out : Bytes) : Nat × Bytes :=
  let (sections, out) := writeBodySections inner p.headers p.rawQuery url rid out
  let flags := if 2 < sections.cookiesJsonLen then p.flags ||| flagHasCookies else p.flags
  let flags := if 2 < sections.queryJsonLen then flags ||| flagHasQuery else flags
  let flags :=
    if sections.truncated || (inner.emitMetadataJson && sections.bodyJsonLen = 0) then
      flags ||| flagBodyTruncated
    else flags
  (HeaderFields.ok flags p.rate sections.cookiesJsonLen sections.queryJsonLen p.headerVariant
    (UInt32.ofNat sections.bodyJsonLen)).write out

/-- The result of a request, from what became of it. -/
def finish (url rid : Bytes) (r : Except Terminal Pass) (out : Bytes) : Nat × Bytes :=
  match r with
  | .error t => t.write out
  | .ok p => writePass inner url rid p out

/-- The result, or an error, and the limiter behind the request. -/
def handleComponents (mk : MethodKind) (url ip rid headersPacked body out : Bytes) (now : UInt64) :
    Except String (Nat × Bytes) × RateLimiterState :=
  if out.length < outDataStart then (.error "output buffer too small", inner.rate)
  else
    match HeaderRefs.parse headersPacked (mk = .options) inner.limits.maxHeaders.toNat with
    | .error _ => (.ok ((terminalSimple errCodeRequestTooLarge 431).write out), inner.rate)
    | .ok headers =>
      let r := runStages crates inner mk url ip headers body now
      (.ok (finish inner url rid r.1 out), r.2)

def handlePacked (input body out : Bytes) (now : UInt64) :
    Except String (Nat × Bytes) × RateLimiterState :=
  if out.length < outDataStart then (.error "output buffer too small", inner.rate)
  else if input = [] then (.error "input buffer too small", inner.rate)
  else
    match readFrame inner.limits input with
    | .error t => (.ok (t.write out), inner.rate)
    | .ok f =>
      handleComponents crates inner f.method f.url f.ip f.rid f.headersPacked body out now

/-- What becomes of a request whose parts are given. -/
def outcome (mk : MethodKind) (url ip headersPacked body : Bytes) (now : UInt64) :
    Except Terminal Pass :=
  match HeaderRefs.parse headersPacked (mk = .options) inner.limits.maxHeaders.toNat with
  | .error _ => .error (terminalSimple errCodeRequestTooLarge 431)
  | .ok headers => (runStages crates inner mk url ip headers body now).1

theorem handleComponents_eq_finish (mk : MethodKind) (url ip rid headersPacked body : Bytes)
    (now : UInt64) {out : Bytes} (hout : outDataStart ≤ out.length) :
    (handleComponents crates inner mk url ip rid headersPacked body out now).1 =
      .ok (finish inner url rid (outcome crates inner mk url ip headersPacked body now) out) := by
  unfold handleComponents outcome
  rw [if_neg (by omega)]
  cases HeaderRefs.parse headersPacked (mk = .options) inner.limits.maxHeaders.toNat <;> rfl

/-- The packed entry, by what is read from its frame. -/
theorem handlePacked_eq {input out : Bytes} (hinput : input ≠ []) (hout : outDataStart ≤ out.length)
    (body : Bytes) (now : UInt64) :
    (handlePacked crates inner input body out now).1 =
      match readFrame inner.limits input with
      | .error t => .ok (t.write out)
      | .ok f => .ok (finish inner f.url f.rid
          (outcome crates inner f.method f.url f.ip f.headersPacked body now) out) := by
  unfold handlePacked
  rw [if_neg (by omega), if_neg hinput]
  cases readFrame inner.limits input with
  | error t => rfl
  | ok f => exact handleComponents_eq_finish crates inner _ _ _ _ _ _ _ hout

/-- Both entries refuse the request for the same reason: a query beyond its own limit next to a url
beyond its limit, or headers that cannot be parsed in a block beyond its limit. -/
def RefusedAlike (mk : MethodKind) (url ip rid : Bytes) (headers : List (Bytes × Bytes))
    (body : Bytes) (now : UInt64) : Prop :=
  let parsed := HeaderRefs.parse (packHeaders headers) (mk = .options) inner.limits.maxHeaders.toNat
  (inner.limits.maxUrlBytes.toNat < url.length ∧
    ∃ refs, parsed = .ok refs ∧ (∃ p, (admission crates inner mk url ip refs body now).1 = .ok p) ∧
      inner.parseQuery = true ∧ inner.limits.maxQueryBytes.toNat < (extractQuery url).length) ∨
  (url.length ≤ inner.limits.maxUrlBytes.toNat ∧ ip.length ≤ maxIdBytes ∧
    rid.length ≤ maxIdBytes ∧ ∃ e, parsed = .error e)

variable {crates inner}

/-- A request that passes is written with its query and without the flag of a truncated result. -/
theorem outcome_ok {mk : MethodKind} {url ip headersPacked body : Bytes} {now : UInt64} {p : Pass}
    (h : outcome crates inner mk url ip headersPacked body now = .ok p) :
    p.rawQuery = (if inner.parseQuery then extractQuery url else []) ∧
      Clears p.flags flagBodyTruncated := by
  unfold outcome at h
  split at h
  · exact nomatch h
  · exact (runStages_ok h).2

/-- Within the limits the frame is read back, so both entries run the same code. -/
theorem handlePacked_of_allow {url ip rid block : Bytes}
    (h : inner.limits.Allow url ip rid block) (mk : MethodKind) (body out : Bytes) (now : UInt64) :
    handlePacked crates inner (packFrame mk.toU8 url ip rid block) body out now =
      handleComponents crates inner mk url ip rid block body out now := by
  unfold handlePacked
  split
  · next hsmall =>
    unfold handleComponents
    rw [if_pos hsmall]
  · rw [if_neg (show packFrame mk.toU8 url ip rid block ≠ [] from List.cons_ne_nil _ _),
      h.readFrame]

/-- The header of a terminal can be told from the result. -/
theorem Terminal.write_inj {t t' : Terminal} {out : Bytes} (h : t.write out = t'.write out) :
    t.verdict = t'.verdict ∧ t.errorCode = t'.errorCode ∧
      HeaderFields.clampStatus t.status = HeaderFields.clampStatus t'.status := by
  have hbytes : t.fields.bytes ++ out.drop outDataStart = t'.fields.bytes ++ out.drop outDataStart :=
    congrArg Prod.snd h
  have hverdict := congrArg (·[0]?) hbytes
  have hcode := congrArg (·[1]?) hbytes
  have hstatus := congrArg (readU16 · 2) hbytes
  rw [head_append, head_append, Option.some.injEq] at hverdict
  rw [errorCode_append, errorCode_append, Option.some.injEq] at hcode
  rw [status_append, status_append, Option.some.injEq] at hstatus
  exact ⟨hverdict, hcode, UInt16.toNat_inj.mp hstatus⟩

/-- A pass is told from every terminal that refuses. -/
theorem writePass_ne {url rid : Bytes} {p : Pass} {t : Terminal} {out : Bytes}
    (ht : t.verdict ≠ 0) : writePass inner url rid p out ≠ t.write out := by
  intro h
  have hhead := congrArg (·.2[0]?) h
  change some 0 = some t.verdict at hhead
  injection hhead with hhead
  exact ht hhead.symm

/-- An early terminal is none of the plain refusals. -/
theorem Terminal.Early.write_ne {t : Terminal} (h : t.Early) {code : UInt8} {status : UInt16}
    (hcode : code = errCodeBadRequest ∨ code = errCodeRequestTooLarge) (out : Bytes) :
    t.write out ≠ (terminalSimple code status).write out := by
  intro heq
  obtain ⟨hverdict, herror, -⟩ := Terminal.write_inj heq
  change t.verdict = 1 at hverdict
  change t.errorCode = code at herror
  rcases h with h | ⟨-, h⟩
  · rw [hverdict] at h
    exact absurd h (by decide)
  · rw [herror] at h
    rcases hcode with rfl | rfl
    · exact absurd h (by decide)
    · exact absurd h (by decide)

/-- What becomes of a request is written as a plain refusal only if the query guard refuses it. -/
theorem finish_eq_refusal_iff {mk : MethodKind} {url ip rid : Bytes} {headers : HeaderRefs}
    {body out : Bytes} {now : UInt64} {code : UInt8} {status : UInt16}
    (hcode : code = errCodeBadRequest ∨ code = errCodeRequestTooLarge) :
    finish inner url rid (runStages crates inner mk url ip headers body now).1 out =
        (terminalSimple code status).write out ↔
      (code = errCodeBadRequest ∧ HeaderFields.clampStatus status = 414) ∧
        (∃ p, (admission crates inner mk url ip headers body now).1 = .ok p) ∧
        inner.parseQuery = true ∧
        inner.limits.maxQueryBytes.toNat < (extractQuery url).length := by
  have hclamp : HeaderFields.clampStatus 414 = 414 := by decide
  cases hrun : (runStages crates inner mk url ip headers body now).1 with
  | ok p =>
    refine iff_of_false (writePass_ne (by show (1 : UInt8) ≠ 0; decide)) ?_
    rintro ⟨-, hadmitted, hparse, hlong⟩
    have herror := runStages_error_iff.mpr (.inr ⟨hadmitted, hparse, hlong, rfl⟩)
    rw [hrun] at herror
    exact nomatch herror
  | error t =>
    show t.write out = _ ↔ _
    -- what ends early is written with more than the plain refusal has
    rcases runStages_error_iff.mp hrun with hadmitted | ⟨hadmitted, hparse, hlong, rfl⟩
    · refine iff_of_false ((admission_error hadmitted).write_ne hcode out) ?_
      rintro ⟨-, ⟨p, hp⟩, -⟩
      rw [hadmitted] at hp
      exact nomatch hp
    · constructor
      · intro heq
        obtain ⟨-, herror, hstatus⟩ := Terminal.write_inj heq
        exact ⟨⟨herror.symm, hstatus.symm.trans hclamp⟩, hadmitted, hparse, hlong⟩
      · rintro ⟨⟨rfl, hstatus⟩, -⟩
        unfold Terminal.write HeaderFields.write HeaderFields.bytes HeaderFields.front
        show (_, (_ ++ le16 (HeaderFields.clampStatus 414).toNat ++ _ ++ _ ++ _ ++ _ ++ _ ++ _) ++ _) =
          (_, (_ ++ le16 (HeaderFields.clampStatus status).toNat ++ _ ++ _ ++ _ ++ _ ++ _ ++ _) ++ _)
        rw [hclamp, hstatus]
        rfl

/-- **The two entries.** Within the limits of the frame they are the same function. Beyond them the
packed entry refuses, and the other one does so only if it refuses for the same reason itself. -/
theorem handleComponents_eq_packed_iff (crates : Crates) (inner : IngressInner) (mk : MethodKind)
    (url ip rid : Bytes) (headers : List (Bytes × Bytes)) (body out : Bytes) (now : UInt64) :
    let components := handleComponents crates inner mk url ip rid (packHeaders headers) body out now
    let packed := handlePacked crates inner (buildPackedInputSync mk.toU8 url ip rid headers) body
      out now
    (inner.limits.Allow url ip rid (packHeaders headers) → components = packed) ∧
    (SectionsFit url ip rid headers →
      (components.1 = packed.1 ↔ out.length < outDataStart ∨
        inner.limits.Allow url ip rid (packHeaders headers) ∨
        RefusedAlike crates inner mk url ip rid headers body now)) := by
  dsimp only
  refine ⟨fun h => (handlePacked_of_allow h mk body out now).symm, fun hfit => ?_⟩
  by_cases hsmall : out.length < outDataStart
  · refine iff_of_true ?_ (.inl hsmall)
    rw [handleComponents, handlePacked, if_pos hsmall, if_pos hsmall]
  by_cases hallow : inner.limits.Allow url ip rid (packHeaders headers)
  · refine iff_of_true ?_ (.inr (.inl hallow))
    rw [buildPackedInputSync, handlePacked_of_allow hallow]
  rw [or_iff_right hsmall, or_iff_right hallow]
  -- the packed entry refuses with the terminal of the first limit that is exceeded
  obtain ⟨t, hframe, hlimit⟩ :=
    readFrame_packFrame_refused mk hfit.url_lt hfit.ip_lt hfit.rid_lt hfit.block_lt hallow
  have hpacked : (handlePacked crates inner (buildPackedInputSync mk.toU8 url ip rid headers) body
      out now).1 = .ok (t.write out) := by
    rw [handlePacked, if_neg hsmall, buildPackedInputSync,
      if_neg (show packFrame _ _ _ _ _ ≠ [] from List.cons_ne_nil _ _), hframe]
  rw [hpacked, handleComponents, if_neg hsmall]
  unfold RefusedAlike
  cases hparse : HeaderRefs.parse (packHeaders headers) (mk = .options)
      inner.limits.maxHeaders.toNat with
  | error e =>
    -- the other one refuses the headers
    show Except.ok ((terminalSimple errCodeRequestTooLarge 431).write out) = Except.ok _ ↔ _
    rw [Except.ok.injEq]
    rcases hlimit with ⟨hurl, rfl⟩ | ⟨hurl, hid, rfl⟩ | ⟨hurl, hip, hrid, rfl⟩
    · refine iff_of_false (fun h => absurd (Terminal.write_inj h).2.1 (by decide)) ?_
      rintro (⟨-, refs, hrefs, -⟩ | ⟨hle, -⟩)
      · cases hrefs
      · omega
    · refine iff_of_false (fun h => absurd (Terminal.write_inj h).2.1 (by decide)) ?_
      rintro (⟨hlt, -⟩ | ⟨-, hip, hrid, -⟩) <;> omega
    · exact iff_of_true rfl (.inr ⟨hurl, hip, hrid, e, rfl⟩)
  | ok refs =>
    -- the other one runs the stages
    show Except.ok (finish inner url rid (runStages crates inner mk url ip refs body now).1 out) =
      Except.ok _ ↔ _
    rw [Except.ok.injEq]
    rcases hlimit with ⟨hurl, rfl⟩ | ⟨hurl, hid, rfl⟩ | ⟨hurl, hip, hrid, rfl⟩
    · rw [finish_eq_refusal_iff (.inl rfl), and_iff_right ⟨rfl, by decide⟩]
      constructor
      · rintro ⟨hadmitted, hquery⟩
        exact .inl ⟨hurl, refs, rfl, hadmitted, hquery⟩
      · rintro (⟨-, refs', hrefs, hadmitted, hquery⟩ | ⟨hle, -⟩)
        · injection hrefs with hrefs
          exact ⟨hrefs ▸ hadmitted, hquery⟩
        · omega
    · rw [finish_eq_refusal_iff (.inl rfl)]
      refine iff_of_false (fun h => absurd h.1.2 (by decide)) ?_
      rintro (⟨hlt, -⟩ | ⟨-, hip, hrid, -⟩) <;> omega
    · rw [finish_eq_refusal_iff (.inr rfl)]
      refine iff_of_false (fun h => absurd h.1.1 (by decide)) ?_
      rintro (⟨hlt, -⟩ | ⟨-, -, -, e, he⟩)
      · omega
      · cases he

/-- A url one byte beyond its limit is a plain 414 for the packed entry and passes the other one. -/
theorem handleComponents_skips_url_limit :
    let crates : Crates := ⟨fun _ _ => 0, fun _ => true⟩
    let inner : IngressInner := { limits := { maxUrlBytes := 1 } }
    let out : Bytes := List.replicate 48 0
    (handleComponents crates inner .get (utf8 "/a") [] [] (packHeaders []) [] out 0).1 ≠
      (handlePacked crates inner (buildPackedInputSync 0 (utf8 "/a") [] [] []) [] out 0).1 := by
  have hstatus : ∀ {x y : Except String (Nat × Bytes)},
      (x.toOption.map fun r => readU16 r.2 2) ≠ (y.toOption.map fun r => readU16 r.2 2) → x ≠ y :=
    fun h he => h (he ▸ rfl)
  exact hstatus (by decide +kernel)

end

end Castrum
