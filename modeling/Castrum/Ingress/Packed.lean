import Castrum.Http.Headers
import Castrum.Ingress.Output

/-!
# Castrum — the packed request frame (`rust/ingress/packed.rs`, `rust/ingress/options.rs`)

A request travels as one frame: the method, then url, client address, request id and header block,
each behind a 32-bit length. The builder casts every length and count to the width of its field; the
reader checks the announced lengths against the limits of the instance.

* `decodeFrame_build` — what is read from a frame whose fields fit;
* `fieldsFit_of_decodeFrame` — nothing else is read back as it was;
* `packedInput_roundTrip_iff` — which requests, and which limits, survive the frame.
-/

namespace Castrum

/-! ## Limits -/

structure IngressLimitsOptions where
  maxUrlBytes : Option UInt32 := none
  maxQueryBytes : Option UInt32 := none
  maxCookieBytes : Option UInt32 := none
  maxHeadersBytes : Option UInt32 := none
  maxHeaders : Option UInt32 := none
  maxPairs : Option UInt32 := none
  deriving DecidableEq, Repr

/-- The limits of an instance: 32-bit options, widened. -/
structure Limits where
  maxUrlBytes : UInt32 := 65536
  maxQueryBytes : UInt32 := 16384
  maxCookieBytes : UInt32 := 8192
  maxHeadersBytes : UInt32 := 65536
  maxHeaders : UInt32 := 100
  maxPairs : UInt32 := 1024
  deriving DecidableEq, Repr

def Limits.fromOptions (opts : Option IngressLimitsOptions) : Limits :=
  let d : Limits := {}
  match opts with
  | none => d
  | some o =>
    { maxUrlBytes := o.maxUrlBytes.getD d.maxUrlBytes
      maxQueryBytes := o.maxQueryBytes.getD d.maxQueryBytes
      maxCookieBytes := o.maxCookieBytes.getD d.maxCookieBytes
      maxHeadersBytes := o.maxHeadersBytes.getD d.maxHeadersBytes
      maxHeaders := o.maxHeaders.getD d.maxHeaders
      maxPairs := o.maxPairs.getD d.maxPairs }

/-! ## The frame -/

/-- The method byte and the four sections. -/
def packFrame (methodKind : UInt8) (url ip rid headersPacked : Bytes) : Bytes :=
  [methodKind] ++ (packedComponent url ++ (packedComponent ip ++ (packedComponent rid ++
    packedComponent headersPacked)))

/-- The header length is a placeholder until the block is there; this is the frame at the end. -/
def buildPackedInputSync (methodKind : UInt8) (url ip rid : Bytes)
    (headers : List (Bytes × Bytes)) : Bytes :=
  packFrame methodKind url ip rid (packHeaders headers)

def sectionTooLarge : String := "packed input: section too large"

/-- The section at `pos`, and the position behind it. -/
def readSection (input : Bytes) (pos max : Nat) : Except String (Bytes × Nat) := do
  let len ← orFail "packed input: truncated u32" (readU32 input pos)
  if max < len then .error sectionTooLarge
  else
    let part ← orFail "packed input: truncated section" (readBytes input (pos + 4) len)
    .ok (part, pos + 4 + len)

structure Frame where
  method : MethodKind
  url : Bytes
  ip : Bytes
  rid : Bytes
  headersPacked : Bytes
  deriving DecidableEq, Repr

/-- The longest client address and request id. -/
def maxIdBytes : Nat := 128

/-- `Err(_) => return Ok(terminal)`. -/
def orTerminal {α : Type} (t : Terminal) : Except String α → Except Terminal α
  | .ok a => .ok a
  | .error _ => .error t

/-- Stage 1 of `handle_packed`: each section has its own terminal. -/
def readFrame (limits : Limits) (input : Bytes) : Except Terminal Frame := do
  let url ← orTerminal (terminalSimple errCodeBadRequest 414)
    (readSection input 1 limits.maxUrlBytes.toNat)
  let ip ← orTerminal (terminalSimple errCodeBadRequest 400) (readSection input url.2 maxIdBytes)
  let rid ← orTerminal (terminalSimple errCodeBadRequest 400) (readSection input ip.2 maxIdBytes)
  let headers ← orTerminal (terminalSimple errCodeRequestTooLarge 431)
    (readSection input rid.2 limits.maxHeadersBytes.toNat)
  .ok { method := .fromU8 (input.headD 0), url := url.1, ip := ip.1, rid := rid.1,
        headersPacked := headers.1 }

/-! ## Sections -/

theorem orTerminal_eq_ok_iff {α : Type} {t : Terminal} {x : Except String α} {a : α} :
    orTerminal t x = .ok a ↔ x = .ok a := by
  cases x with
  | error e => exact iff_of_false nofun nofun
  | ok b => rw [orTerminal, Except.ok.injEq, Except.ok.injEq]

/-- A computation that ends early ends with the terminal of one of its steps. -/
theorem orTerminal_bind_eq_error {α β : Type} {t t' : Terminal} {x : Except String α}
    {f : α → Except Terminal β} (h : (orTerminal t x >>= f) = .error t') :
    t' = t ∨ ∃ a, f a = .error t' := by
  rcases bind_eq_error_iff.mp h with hx | ⟨a, -, ha⟩
  · cases x with
    | error e =>
      injection hx with hx
      exact .inl hx.symm
    | ok a => exact nomatch hx
  · exact .inr ⟨a, ha⟩

theorem readSection_append {part : Bytes} (hpart : part.length < 2 ^ 32) (before behind : Bytes)
    (max : Nat) :
    readSection (before ++ (packedComponent part ++ behind)) before.length max =
      if max < part.length then .error sectionTooLarge
      else .ok (part, (before ++ packedComponent part).length) := by
  have hlen : readU32 (before ++ (packedComponent part ++ behind)) before.length =
      some part.length := by
    rw [packedComponent, List.append_assoc, readU32_append, Nat.mod_eq_of_lt hpart]
  have hbytes : readBytes (before ++ (packedComponent part ++ behind)) (before.length + 4)
      part.length = some part := by
    have h := readBytes_append (before ++ le32 part.length) part behind
    rw [List.length_append, length_le32] at h
    rw [← h]
    simp only [packedComponent, List.append_assoc]
  unfold readSection
  rw [hlen]
  show (if max < part.length then _ else _) = _
  split
  · rfl
  · rw [hbytes, List.length_append, length_packedComponent, ← Nat.add_assoc]
    rfl

/-- A section is never longer than its length field can say. -/
theorem length_readSection {input part : Bytes} {pos max pos' : Nat}
    (h : readSection input pos max = .ok (part, pos')) : part.length < 2 ^ 32 := by
  unfold readSection at h
  obtain ⟨len, hlen, h⟩ := bind_eq_ok_iff.mp h
  split at h
  · exact nomatch h
  · obtain ⟨part', hpart, h⟩ := bind_eq_ok_iff.mp h
    injection h with h
    injection h with hp _
    rw [← hp, length_readBytes (orFail_eq_ok_iff.mp hpart)]
    exact readWord_lt (orFail_eq_ok_iff.mp hlen)

/-- **Reading a frame back**, where every section is as long as its field says. -/
theorem readFrame_packFrame (limits : Limits) (mk : MethodKind) {url ip rid block : Bytes}
    (hurl : url.length < 2 ^ 32) (hip : ip.length < 2 ^ 32) (hrid : rid.length < 2 ^ 32)
    (hblock : block.length < 2 ^ 32) :
    readFrame limits (packFrame mk.toU8 url ip rid block) =
      if limits.maxUrlBytes.toNat < url.length then .error (terminalSimple errCodeBadRequest 414)
      else if maxIdBytes < ip.length then .error (terminalSimple errCodeBadRequest 400)
      else if maxIdBytes < rid.length then .error (terminalSimple errCodeBadRequest 400)
      else if limits.maxHeadersBytes.toNat < block.length then
        .error (terminalSimple errCodeRequestTooLarge 431)
      else .ok ⟨mk, url, ip, rid, block⟩ := by
  -- the frame, cut before each of its sections
  let input := packFrame mk.toU8 url ip rid block
  let atIp := [mk.toU8] ++ packedComponent url
  let atRid := atIp ++ packedComponent ip
  let atBlock := atRid ++ packedComponent rid
  have readUrl : ∀ max, readSection input 1 max =
      if max < url.length then .error sectionTooLarge else .ok (url, atIp.length) :=
    readSection_append hurl [mk.toU8] _
  have readIp : ∀ max, readSection input atIp.length max =
      if max < ip.length then .error sectionTooLarge else .ok (ip, atRid.length) := by
    have h := readSection_append hip atIp (packedComponent rid ++ packedComponent block)
    rwa [show atIp ++ _ = input by simp only [atIp, input, packFrame, List.append_assoc]] at h
  have readRid : ∀ max, readSection input atRid.length max =
      if max < rid.length then .error sectionTooLarge else .ok (rid, atBlock.length) := by
    have h := readSection_append hrid atRid (packedComponent block)
    rwa [show atRid ++ _ = input by simp only [atRid, atIp, input, packFrame, List.append_assoc]]
      at h
  have readBlock : ∀ max, readSection input atBlock.length max =
      if max < block.length then .error sectionTooLarge
      else .ok (block, (atBlock ++ packedComponent block).length) := by
    have h := readSection_append hblock atBlock []
    rwa [show atBlock ++ _ = input by
      simp only [atBlock, atRid, atIp, input, packFrame, List.append_assoc, List.append_nil]] at h
  show readFrame limits input = _
  unfold readFrame
  rw [readUrl]
  split
  · rfl
  show (do
    let ip ← orTerminal _ (readSection input atIp.length maxIdBytes)
    let rid ← orTerminal _ (readSection input ip.2 maxIdBytes)
    let headers ← orTerminal _ (readSection input rid.2 limits.maxHeadersBytes.toNat)
    Except.ok (Frame.mk (.fromU8 mk.toU8) url ip.1 rid.1 headers.1)) = _
  rw [readIp]
  split
  · rfl
  show (do
    let rid ← orTerminal _ (readSection input atRid.length maxIdBytes)
    let headers ← orTerminal _ (readSection input rid.2 limits.maxHeadersBytes.toNat)
    Except.ok (Frame.mk (.fromU8 mk.toU8) url ip rid.1 headers.1)) = _
  rw [readRid]
  split
  · rfl
  show (do
    let headers ← orTerminal _ (readSection input atBlock.length limits.maxHeadersBytes.toNat)
    Except.ok (Frame.mk (.fromU8 mk.toU8) url ip rid headers.1)) = _
  rw [readBlock, MethodKind.fromU8_toU8]
  split
  · rfl
  · rfl

/-- The sections are within the limits of the reader. -/
structure Limits.Allow (limits : Limits) (url ip rid block : Bytes) : Prop where
  url_le : url.length ≤ limits.maxUrlBytes.toNat
  ip_le : ip.length ≤ maxIdBytes
  rid_le : rid.length ≤ maxIdBytes
  block_le : block.length ≤ limits.maxHeadersBytes.toNat

/-- Limits are 32 bits wide, so what they allow fits its field. -/
theorem Limits.Allow.readFrame {limits : Limits} {url ip rid block : Bytes}
    (h : limits.Allow url ip rid block) (mk : MethodKind) :
    readFrame limits (packFrame mk.toU8 url ip rid block) = .ok ⟨mk, url, ip, rid, block⟩ := by
  have hurl := h.url_le
  have hip := h.ip_le
  have hrid := h.rid_le
  have hblock := h.block_le
  have hmaxUrl := limits.maxUrlBytes.toNat_lt
  have hmaxBlock := limits.maxHeadersBytes.toNat_lt
  have hid : maxIdBytes < 2 ^ 32 := by decide
  rw [readFrame_packFrame limits mk (by omega) (by omega) (by omega) (by omega),
    if_neg (by omega), if_neg (by omega), if_neg (by omega), if_neg (by omega)]

/-- A frame beyond the limits is refused by the first limit it exceeds. -/
theorem readFrame_packFrame_refused {limits : Limits} (mk : MethodKind) {url ip rid block : Bytes}
    (hurl : url.length < 2 ^ 32) (hip : ip.length < 2 ^ 32) (hrid : rid.length < 2 ^ 32)
    (hblock : block.length < 2 ^ 32) (hnot : ¬ limits.Allow url ip rid block) :
    ∃ t, readFrame limits (packFrame mk.toU8 url ip rid block) = .error t ∧
      (limits.maxUrlBytes.toNat < url.length ∧ t = terminalSimple errCodeBadRequest 414 ∨
      url.length ≤ limits.maxUrlBytes.toNat ∧ (maxIdBytes < ip.length ∨ maxIdBytes < rid.length) ∧
        t = terminalSimple errCodeBadRequest 400 ∨
      url.length ≤ limits.maxUrlBytes.toNat ∧ ip.length ≤ maxIdBytes ∧ rid.length ≤ maxIdBytes ∧
        t = terminalSimple errCodeRequestTooLarge 431) := by
  rw [readFrame_packFrame limits mk hurl hip hrid hblock]
  split
  · next h => exact ⟨_, rfl, .inl ⟨h, rfl⟩⟩
  split
  · next h => exact ⟨_, rfl, .inr (.inl ⟨by omega, .inl h, rfl⟩)⟩
  split
  · next h => exact ⟨_, rfl, .inr (.inl ⟨by omega, .inr h, rfl⟩)⟩
  split
  · exact ⟨_, rfl, .inr (.inr ⟨by omega, by omega, by omega, rfl⟩)⟩
  · exact absurd ⟨by omega, by omega, by omega, by omega⟩ hnot

/-! ## What is decoded -/

/-- A request as `handle_packed` takes it from a frame. -/
structure Request where
  method : MethodKind
  url : Bytes
  ip : Bytes
  rid : Bytes
  headers : List (Bytes × Bytes)
  deriving DecidableEq, Repr

/-- The sections, and the pairs that `HeaderRefs::parse` walks over. -/
def decodeFrame (limits : Limits) (input : Bytes) : Except Terminal Request := do
  let frame ← readFrame limits input
  let headers ← orTerminal (terminalSimple errCodeRequestTooLarge 431)
    (readPairs frame.headersPacked limits.maxHeaders.toNat)
  .ok { method := frame.method, url := frame.url, ip := frame.ip, rid := frame.rid, headers }

/-- Every length and count of a request fits its field in the frame. -/
structure FieldsFit (url ip rid : Bytes) (headers : List (Bytes × Bytes)) : Prop where
  url_lt : url.length < 2 ^ 32
  ip_lt : ip.length < 2 ^ 32
  rid_lt : rid.length < 2 ^ 32
  block_lt : (packHeaders headers).length < 2 ^ 32
  count_lt : headers.length < 2 ^ 16
  pairs : ∀ p ∈ headers, PairFits p

/-- **A request whose fields fit** is decoded as it was, or refused by a limit it exceeds. -/
theorem decodeFrame_build (limits : Limits) (mk : MethodKind) {url ip rid : Bytes}
    {headers : List (Bytes × Bytes)} (h : FieldsFit url ip rid headers) :
    decodeFrame limits (buildPackedInputSync mk.toU8 url ip rid headers) =
      if limits.maxUrlBytes.toNat < url.length then .error (terminalSimple errCodeBadRequest 414)
      else if maxIdBytes < ip.length then .error (terminalSimple errCodeBadRequest 400)
      else if maxIdBytes < rid.length then .error (terminalSimple errCodeBadRequest 400)
      else if limits.maxHeadersBytes.toNat < (packHeaders headers).length ∨
          limits.maxHeaders.toNat < headers.length then
        .error (terminalSimple errCodeRequestTooLarge 431)
      else .ok ⟨mk, url, ip, rid, headers⟩ := by
  unfold decodeFrame buildPackedInputSync
  rw [readFrame_packFrame limits mk h.url_lt h.ip_lt h.rid_lt h.block_lt]
  split
  · rfl
  split
  · rfl
  split
  · rfl
  split
  · next hover => rw [if_pos (.inl hover)]; rfl
  · next hover =>
    show (do
      let headers ← orTerminal _ (readPairs (packHeaders headers) limits.maxHeaders.toNat)
      Except.ok (Request.mk mk url ip rid headers)) = _
    rw [readPairs_packHeaders h.count_lt h.pairs]
    split
    · next hcount => rw [if_pos (.inr hcount)]; rfl
    · next hcount => rw [if_neg (by rintro (ho | hc) <;> contradiction)]; rfl

theorem readFrame_fits {limits : Limits} {input : Bytes} {frame : Frame}
    (h : readFrame limits input = .ok frame) :
    frame.url.length < 2 ^ 32 ∧ frame.ip.length < 2 ^ 32 ∧ frame.rid.length < 2 ^ 32 ∧
      frame.headersPacked.length < 2 ^ 32 := by
  unfold readFrame at h
  obtain ⟨url, hurl, h⟩ := bind_eq_ok_iff.mp h
  obtain ⟨ip, hip, h⟩ := bind_eq_ok_iff.mp h
  obtain ⟨rid, hrid, h⟩ := bind_eq_ok_iff.mp h
  obtain ⟨headers, hheaders, h⟩ := bind_eq_ok_iff.mp h
  injection h with h
  rw [← h]
  exact ⟨length_readSection (orTerminal_eq_ok_iff.mp hurl),
    length_readSection (orTerminal_eq_ok_iff.mp hip),
    length_readSection (orTerminal_eq_ok_iff.mp hrid),
    length_readSection (orTerminal_eq_ok_iff.mp hheaders)⟩

/-- **Whatever is decoded, fits**: a reduced length or count is never read back as it was. -/
theorem fieldsFit_of_decodeFrame {limits : Limits} {input : Bytes} {req : Request}
    (h : decodeFrame limits input = .ok req) : FieldsFit req.url req.ip req.rid req.headers := by
  unfold decodeFrame at h
  obtain ⟨frame, hframe, h⟩ := bind_eq_ok_iff.mp h
  obtain ⟨headers, hheaders, h⟩ := bind_eq_ok_iff.mp h
  obtain ⟨hurl, hip, hrid, hpacked⟩ := readFrame_fits hframe
  obtain ⟨hcount, hpairs, hspan⟩ := readPairs_fits (orTerminal_eq_ok_iff.mp hheaders)
  injection h with h
  rw [← h]
  refine ⟨hurl, hip, hrid, ?_, hcount, hpairs⟩
  rcases hspan with rfl | hspan
  · exact show 2 < 2 ^ 32 by decide
  · exact Nat.lt_of_le_of_lt hspan hpacked

/-! ## The round trip -/

/-- The terminals of a frame that is too large for its limits, or cut short. -/
def sizeTerminals : List Terminal :=
  [terminalSimple errCodeBadRequest 414, terminalSimple errCodeBadRequest 400,
    terminalSimple errCodeRequestTooLarge 431]

theorem readFrame_eq_error {limits : Limits} {input : Bytes} {t : Terminal}
    (h : readFrame limits input = .error t) : t ∈ sizeTerminals := by
  unfold readFrame at h
  rcases orTerminal_bind_eq_error h with rfl | ⟨url, h⟩
  · decide
  rcases orTerminal_bind_eq_error h with rfl | ⟨ip, h⟩
  · decide
  rcases orTerminal_bind_eq_error h with rfl | ⟨rid, h⟩
  · decide
  rcases orTerminal_bind_eq_error h with rfl | ⟨headers, h⟩
  · decide
  · exact nomatch h

theorem decodeFrame_eq_error {limits : Limits} {input : Bytes} {t : Terminal}
    (h : decodeFrame limits input = .error t) : t ∈ sizeTerminals := by
  unfold decodeFrame at h
  cases hframe : readFrame limits input with
  | error t' =>
    rw [hframe] at h
    injection h with h
    rw [← h]
    exact readFrame_eq_error hframe
  | ok frame =>
    rw [hframe] at h
    rcases orTerminal_bind_eq_error h with rfl | ⟨headers, h⟩
    · decide
    · exact nomatch h

/-- The frame of the request is refused for its size. -/
def FrameRefused (limits : Limits) (mk : MethodKind) (url ip rid : Bytes)
    (headers : List (Bytes × Bytes)) : Prop :=
  ∃ t ∈ sizeTerminals,
    decodeFrame limits (buildPackedInputSync mk.toU8 url ip rid headers) = .error t

/-- The frame of the request is refused for its size, or read back as the request. -/
def RoundTrips (limits : Limits) (mk : MethodKind) (url ip rid : Bytes)
    (headers : List (Bytes × Bytes)) : Prop :=
  FrameRefused limits mk url ip rid headers ∨
    decodeFrame limits (buildPackedInputSync mk.toU8 url ip rid headers) =
      .ok ⟨mk, url, ip, rid, headers⟩

theorem roundTrips_of_fieldsFit (limits : Limits) (mk : MethodKind) {url ip rid : Bytes}
    {headers : List (Bytes × Bytes)} (h : FieldsFit url ip rid headers) :
    RoundTrips limits mk url ip rid headers := by
  cases hdecode : decodeFrame limits (buildPackedInputSync mk.toU8 url ip rid headers) with
  | error t => exact .inl ⟨t, decodeFrame_eq_error hdecode, hdecode⟩
  | ok req =>
    right
    rw [decodeFrame_build limits mk h] at hdecode ⊢
    split at hdecode
    · exact nomatch hdecode
    split at hdecode
    · exact nomatch hdecode
    split at hdecode
    · exact nomatch hdecode
    split at hdecode
    · exact nomatch hdecode
    · simp only [*, if_false]

theorem roundTrips_iff (limits : Limits) (mk : MethodKind) (url ip rid : Bytes)
    (headers : List (Bytes × Bytes)) :
    RoundTrips limits mk url ip rid headers ↔
      FieldsFit url ip rid headers ∨ FrameRefused limits mk url ip rid headers := by
  constructor
  · rintro (hrefused | hsame)
    · exact .inr hrefused
    · exact .inl (fieldsFit_of_decodeFrame hsame)
  · rintro (hfit | hrefused)
    · exact roundTrips_of_fieldsFit limits mk hfit
    · exact .inl hrefused

/-- The sections and values of the request are shorter than 4 GiB. -/
structure SectionsFit (url ip rid : Bytes) (headers : List (Bytes × Bytes)) : Prop where
  url_lt : url.length < 2 ^ 32
  ip_lt : ip.length < 2 ^ 32
  rid_lt : rid.length < 2 ^ 32
  block_lt : (packHeaders headers).length < 2 ^ 32

section

variable {limits : Limits} {url ip rid : Bytes} {headers : List (Bytes × Bytes)}

/-- The header block of a request inside the limits reaches the walk as it is. -/
theorem Limits.Allow.decodeFrame_eq (h : limits.Allow url ip rid (packHeaders headers))
    (mk : MethodKind) :
    decodeFrame limits (buildPackedInputSync mk.toU8 url ip rid headers) = (do
      let headers ← orTerminal (terminalSimple errCodeRequestTooLarge 431)
        (readPairs (packHeaders headers) limits.maxHeaders.toNat)
      .ok ⟨mk, url, ip, rid, headers⟩) := by
  rw [decodeFrame, buildPackedInputSync, h.readFrame]
  rfl

theorem SectionsFit.refused_of_not_allow (mk : MethodKind) (h : SectionsFit url ip rid headers)
    (hallow : ¬ limits.Allow url ip rid (packHeaders headers)) :
    FrameRefused limits mk url ip rid headers := by
  obtain ⟨t, hframe, -⟩ :=
    readFrame_packFrame_refused mk h.url_lt h.ip_lt h.rid_lt h.block_lt hallow
  refine ⟨t, readFrame_eq_error hframe, ?_⟩
  rw [decodeFrame, buildPackedInputSync, hframe]
  rfl

/-- Such a frame is refused just when a section exceeds its limit or the header walk fails. -/
theorem SectionsFit.frameRefused_iff (limits : Limits) (mk : MethodKind)
    (h : SectionsFit url ip rid headers) :
    FrameRefused limits mk url ip rid headers ↔
      ¬ limits.Allow url ip rid (packHeaders headers) ∨
      ∃ e, readPairs (packHeaders headers) limits.maxHeaders.toNat = .error e := by
  by_cases hallow : limits.Allow url ip rid (packHeaders headers)
  · rw [FrameRefused, hallow.decodeFrame_eq mk]
    cases hread : readPairs (packHeaders headers) limits.maxHeaders.toNat with
    | error e =>
      exact iff_of_true ⟨terminalSimple errCodeRequestTooLarge 431, by decide, rfl⟩ (.inr ⟨e, rfl⟩)
    | ok ps =>
      refine iff_of_false ?_ ?_
      · rintro ⟨t, -, hrefused⟩
        exact nomatch hrefused
      · rintro (hnot | ⟨e, he⟩)
        · exact hnot hallow
        · exact nomatch he
  · exact iff_of_true (h.refused_of_not_allow mk hallow) (.inl hallow)

end

/-- The configured limits keep every count and name length inside its 16 bits: no block that holds
65536 headers, or a name of 65536 bytes in a header that is counted, is let through. -/
def Limits.Narrow (limits : Limits) : Prop :=
  limits.maxHeadersBytes.toNat < 65544 ∨
    limits.maxHeaders = 0 ∧ limits.maxHeadersBytes.toNat < 393218

theorem Limits.Narrow.roundTrips {limits : Limits} (hlimits : limits.Narrow) (mk : MethodKind)
    {url ip rid : Bytes} {headers : List (Bytes × Bytes)} (h : SectionsFit url ip rid headers) :
    RoundTrips limits mk url ip rid headers := by
  by_cases hallow : limits.Allow url ip rid (packHeaders headers)
  case neg => exact .inl (h.refused_of_not_allow mk hallow)
  have hblock := hallow.block_le
  have hcount := length_packHeaders_ge_count headers
  by_cases hnames : ∀ p ∈ headers, p.1.length < 2 ^ 16
  · -- then the count fits too: the block is within its limit
    have hlt : headers.length < 2 ^ 16 := by
      rcases hlimits with hlimits | ⟨-, hlimits⟩ <;> omega
    refine roundTrips_of_fieldsFit limits mk
      ⟨h.url_lt, h.ip_lt, h.rid_lt, h.block_lt, hlt, fun p hp => ⟨hnames p hp, ?_⟩⟩
    have hpair := length_packHeaders_ge_pair hp
    have hlt := h.block_lt
    omega
  · -- a long name needs a wide block, and then no header is allowed at all
    push Not at hnames
    obtain ⟨p, hp, hlong⟩ := hnames
    have hpair := length_packHeaders_ge_pair hp
    rcases hlimits with hlimits | ⟨hzero, hlimits⟩
    · omega
    refine .inl ⟨terminalSimple errCodeRequestTooLarge 431, by decide, ?_⟩
    have hread : readU16 (packHeaders headers) 0 = some headers.length := by
      have hfield := readU16_append headers.length [] (headers.flatMap packPair)
      rwa [Nat.mod_eq_of_lt (by omega)] at hfield
    have hpos : 0 < headers.length := List.length_pos_of_mem hp
    rw [hallow.decodeFrame_eq mk, readPairs, hread, hzero]
    show (do
      let headers ← orTerminal _ (if 0 < headers.length then _ else _)
      Except.ok (Request.mk mk url ip rid headers)) = _
    rw [if_pos hpos]
    rfl

/-- A name of zero bytes: where its length is written as 0, its first bytes are read as the length
of an empty value. -/
def zeroName (n : Nat) : Bytes × Bytes := (List.replicate n 0, [])

theorem length_packHeaders_zeroName (n : Nat) : (packHeaders [zeroName n]).length = n + 8 := by
  rw [packHeaders, List.flatMap_singleton, List.length_append, length_le16, length_packPair,
    zeroName, List.length_replicate, List.length_nil]
  omega

theorem readPairs_zeroName {n maxHeaders : Nat} (hmod : n % 2 ^ 16 = 0) (hn : 4 ≤ n)
    (h : 0 < maxHeaders) : readPairs (packHeaders [zeroName n]) maxHeaders = .ok [([], [])] := by
  let packed := packHeaders [zeroName n]
  -- The first four zeros of the name serve as the length of the value.
  have hzeros : (List.replicate n 0 : Bytes) = le32 0 ++ List.replicate (n - 4) 0 := by
    rw [show le32 0 = List.replicate 4 0 from rfl, List.replicate_append_replicate,
      Nat.add_sub_cancel' hn]
  have hpacked : packed = le16 1 ++ (le16 n ++ (le32 0 ++ (List.replicate (n - 4) 0 ++
      le32 0))) := by
    show le16 1 ++ [zeroName n].flatMap packPair = _
    rw [List.flatMap_singleton, packPair, zeroName, List.length_replicate, hzeros]
    simp only [List.append_assoc, List.append_nil, List.length_nil]
  have hlength : packed.length = n + 8 := length_packHeaders_zeroName n
  have hcount : readU16 packed 0 = some 1 := by
    rw [hpacked]
    exact readU16_append 1 [] _
  have hname : readU16 packed 2 = some 0 := by
    rw [hpacked, ← hmod]
    exact readU16_append n (le16 1) _
  have hvalue : readU32 packed 4 = some 0 := by
    rw [hpacked, ← List.append_assoc]
    exact readU32_append 0 (le16 1 ++ le16 n) _
  have hempty : ∀ pos ≤ 8, readBytes packed pos 0 = some [] := by
    intro pos hpos
    rw [readBytes, if_pos (by omega), List.take_zero]
  have hpair : readPair packed 2 = .ok (([], []), 8) :=
    readPair_eq_ok_iff.mpr
      ⟨0, 0, hname, hempty 4 (by omega), hvalue, hempty 8 (by omega), rfl⟩
  show readPairs packed maxHeaders = _
  rw [readPairs, hcount]
  show (if maxHeaders < 1 then _ else readPairsFrom packed 1 2) = _
  rw [if_neg (by omega), readPairsFrom, hpair]
  rfl

theorem length_packHeaders_empty (n : Nat) :
    (packHeaders (List.replicate n ([], []))).length = 2 + 6 * n := by
  rw [packHeaders, List.length_append, length_le16]
  congr 1
  induction n with
  | zero => rfl
  | succ n ih =>
    rw [List.replicate_succ, List.flatMap_cons, List.length_append, ih, length_packPair]
    show 6 + 0 + 0 + 6 * n = _
    omega

theorem readPairs_empty {n : Nat} (hmod : n % 2 ^ 16 = 0) (maxHeaders : Nat) :
    readPairs (packHeaders (List.replicate n ([], []))) maxHeaders = .ok [] := by
  have hcount : readU16 (packHeaders (List.replicate n ([], []))) 0 = some 0 := by
    have hread := readU16_append n [] ((List.replicate n ([], [])).flatMap packPair)
    rw [hmod] at hread
    rwa [packHeaders, List.length_replicate]
  rw [readPairs, hcount]
  rfl

theorem decodeFrame_of_readPairs {limits : Limits} {headers ps : List (Bytes × Bytes)}
    (hblock : (packHeaders headers).length ≤ limits.maxHeadersBytes.toNat)
    (hread : readPairs (packHeaders headers) limits.maxHeaders.toNat = .ok ps) :
    decodeFrame limits (buildPackedInputSync MethodKind.get.toU8 [] [] [] headers) =
      .ok ⟨.get, [], [], [], ps⟩ := by
  have hallow : limits.Allow [] [] [] (packHeaders headers) :=
    ⟨Nat.zero_le _, Nat.zero_le _, Nat.zero_le _, hblock⟩
  rw [decodeFrame, buildPackedInputSync, hallow.readFrame]
  show (do
    let headers ← orTerminal _ (readPairs (packHeaders headers) limits.maxHeaders.toNat)
    Except.ok (Request.mk .get [] [] [] headers)) = _
  rw [hread]
  rfl

/-- A block that is let through but announces something else does not survive. -/
theorem not_roundTrips {limits : Limits} {headers ps : List (Bytes × Bytes)}
    (hblock : (packHeaders headers).length ≤ limits.maxHeadersBytes.toNat)
    (hread : readPairs (packHeaders headers) limits.maxHeaders.toNat = .ok ps)
    (hne : ps ≠ headers) :
    SectionsFit [] [] [] headers ∧ ¬ RoundTrips limits .get [] [] [] headers := by
  have hlt := limits.maxHeadersBytes.toNat_lt
  have hdecode := decodeFrame_of_readPairs hblock hread
  refine ⟨⟨by decide, by decide, by decide, by omega⟩, ?_⟩
  rintro (⟨t, -, hrefused⟩ | hsame)
  · rw [hdecode] at hrefused
    exact nomatch hrefused
  · rw [hdecode] at hsame
    injection hsame with hsame
    injection hsame with _ _ _ _ hheaders
    exact hne hheaders

theorem ne_zeroName {n : Nat} (hn : n ≠ 0) : [([], [])] ≠ [zeroName n] := by
  intro he
  injection he with he
  have hlen := congrArg (·.1.length) he
  change 0 = (List.replicate n (0 : UInt8)).length at hlen
  rw [List.length_replicate] at hlen
  exact hn hlen.symm

theorem Limits.narrow_of_roundTrips {limits : Limits}
    (h : ∀ mk url ip rid headers, SectionsFit url ip rid headers →
      RoundTrips limits mk url ip rid headers) : limits.Narrow := by
  by_contra hwide
  have hbytes : 65544 ≤ limits.maxHeadersBytes.toNat := by
    by_contra hlt
    exact hwide (.inl (by omega))
  obtain ⟨n, hn⟩ : ∃ n : Nat, n = 65536 := ⟨_, rfl⟩
  have hmod : n % 2 ^ 16 = 0 := by omega
  by_cases hzero : limits.maxHeaders = 0
  · -- 65536 headers are announced as none
    have hmany : 393218 ≤ limits.maxHeadersBytes.toNat := by
      by_contra hlt
      exact hwide (.inr ⟨hzero, by omega⟩)
    have hlength := length_packHeaders_empty n
    obtain ⟨hfit, hbad⟩ := not_roundTrips (by omega)
      (readPairs_empty hmod limits.maxHeaders.toNat) (by
        intro he
        have hlen := congrArg List.length he
        rw [List.length_replicate, List.length_nil] at hlen
        omega)
    exact hbad (h _ _ _ _ _ hfit)
  · -- a name of 65536 bytes is announced as empty
    have hpos : 0 < limits.maxHeaders.toNat := by
      rw [Nat.pos_iff_ne_zero]
      exact fun he => hzero (UInt32.toNat_inj.mp he)
    have hlength := length_packHeaders_zeroName n
    obtain ⟨hfit, hbad⟩ := not_roundTrips (by omega) (readPairs_zeroName hmod (by omega) hpos)
      (ne_zeroName (by omega))
    exact hbad (h _ _ _ _ _ hfit)

/-- **The round trip of a request through its frame.** Below 4 GiB a request survives just when each
of its lengths and counts fits its field, or a section exceeds its limit, or the header walk fails
on the block as it was written; from 4 GiB on only a refusal of the frame saves it. A configuration
is safe for every request below 4 GiB just when its limits are narrow. -/
theorem packedInput_roundTrip_iff (limits : Limits) :
    (∀ mk url ip rid headers, SectionsFit url ip rid headers →
      (RoundTrips limits mk url ip rid headers ↔
        FieldsFit url ip rid headers ∨ ¬ limits.Allow url ip rid (packHeaders headers) ∨
        ∃ e, readPairs (packHeaders headers) limits.maxHeaders.toNat = .error e)) ∧
    (∀ mk url ip rid headers, ¬ SectionsFit url ip rid headers →
      (RoundTrips limits mk url ip rid headers ↔ FrameRefused limits mk url ip rid headers)) ∧
    ((∀ mk url ip rid headers, SectionsFit url ip rid headers →
      RoundTrips limits mk url ip rid headers) ↔ limits.Narrow) := by
  refine ⟨fun mk url ip rid headers h => ?_, fun mk url ip rid headers h => ?_,
    Limits.narrow_of_roundTrips, fun h mk _ _ _ _ => h.roundTrips mk⟩
  · rw [roundTrips_iff, h.frameRefused_iff]
  · rw [roundTrips_iff, or_iff_right]
    exact fun hfit => h ⟨hfit.url_lt, hfit.ip_lt, hfit.rid_lt, hfit.block_lt⟩

/-- With a header limit of 128 KiB, a name of 65536 zero bytes is read back as an empty header. -/
theorem packedInput_name_reduced :
    decodeFrame { maxHeadersBytes := 131072 }
        (buildPackedInputSync MethodKind.get.toU8 [] [] [] [zeroName 65536]) =
          .ok ⟨.get, [], [], [], [([], [])]⟩ ∧
      ¬ RoundTrips { maxHeadersBytes := 131072 } .get [] [] [] [zeroName 65536] := by
  have key : ∀ n, n = 65536 →
      decodeFrame { maxHeadersBytes := 131072 }
          (buildPackedInputSync MethodKind.get.toU8 [] [] [] [zeroName n]) =
            .ok ⟨.get, [], [], [], [([], [])]⟩ ∧
        ¬ RoundTrips { maxHeadersBytes := 131072 } .get [] [] [] [zeroName n] := by
    intro n hn
    have hblock : (packHeaders [zeroName n]).length ≤ (131072 : UInt32).toNat := by
      rw [length_packHeaders_zeroName, hn]
      decide
    have hread : readPairs (packHeaders [zeroName n]) (100 : UInt32).toNat = .ok [([], [])] :=
      readPairs_zeroName (by omega) (by omega) (by decide)
    exact ⟨decodeFrame_of_readPairs hblock hread,
      (not_roundTrips hblock hread (ne_zeroName (by omega))).2⟩
  exact key 65536 rfl

end Castrum
