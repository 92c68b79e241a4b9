import Castrum.Ingress.Packed
import Castrum.Ingress.SelectHeaders

/-!
# Castrum — the request frame, as JavaScript packs it (`src/ingress/packing/input-packer.ts`)

One packer serves every request of a handler. Its buffer grows and keeps what earlier frames left in
it; strings are encoded in place, behind four bytes for their length.

* `packParts_eq` / `packFromStrings_eq` / `pack_eq` — each way of packing gives the frame of its parts;
* `headerPacking` — from the headers of a request to what the native side reads.
-/

namespace Castrum.Packing

/-! ## The packer -/

/-- A packer between two frames. The cached view that strings are written through is renewed with the
buffer, so it is left out. -/
structure IngressInputPacker where
  buf : Bytes
  size_ge : 1024 ≤ buf.length

def IngressInputPacker.new (initialSize : Nat) : IngressInputPacker where
  buf := List.replicate (max 1024 initialSize) 0
  size_ge := by
    rw [List.length_replicate]
    exact Nat.le_max_left _ _

/-- The loop that doubles a size, at most `fuel` times. -/
def doubled (needed : Nat) : Nat → Nat → Nat
  | 0, size => size
  | fuel + 1, size => if size < needed then doubled needed fuel (size * 2) else size

/-- Position and buffer, with room for so many bytes more. -/
def ensure (r : Nat × Bytes) (additional : Nat) : Nat × Bytes :=
  let needed := r.1 + additional
  if needed ≤ r.2.length then r
  else (r.1, r.2.take r.1 ++ List.replicate (doubled needed needed (r.2.length * 2) - r.1) 0)

def writeU8 (r : Nat × Bytes) (value : UInt8) : Nat × Bytes :=
  let r := ensure r 1
  (r.1 + 1, placed r.2 r.1 [value])

def writeLenPrefixed (r : Nat × Bytes) (bytes : Bytes) : Nat × Bytes :=
  let r := ensure r (4 + bytes.length)
  let buf := placed r.2 r.1 (le32 bytes.length)
  (r.1 + 4 + bytes.length, placed buf (r.1 + 4) bytes)

def writeStringLenPrefixed (r : Nat × Bytes) (value : JsString) : Nat × Bytes :=
  let r := ensure r (4 + value.length * 3)
  let valueLenPos := r.1
  let pos := r.1 + 4
  let (written, buf) := encodeUtf8Into value r.2 pos
  (pos + written, placed buf valueLenPos (le32 written))

/-- `EMPTY_IP_BYTES`. -/
def emptyIpBytes : Bytes := utf8 "0.0.0.0"

/-- The section of the address. -/
def writeIp (r : Nat × Bytes) (ip : Option JsString) : Nat × Bytes :=
  match ip with
  | some ip => if 0 < ip.length then writeStringLenPrefixed r ip else writeLenPrefixed r emptyIpBytes
  | none => writeLenPrefixed r emptyIpBytes

/-- The section of a request id that is a string. -/
def writeRequestId (r : Nat × Bytes) (requestId : Option JsString) : Nat × Bytes :=
  match requestId with
  | some rid => if 0 < rid.length then writeStringLenPrefixed r rid else writeLenPrefixed r []
  | none => writeLenPrefixed r []

section

variable (p : IngressInputPacker) (methodKind : UInt8) (headers : Bytes)

def pack (url ip requestId : Bytes) : Nat × Bytes :=
  let r := writeU8 (0, p.buf) methodKind
  writeLenPrefixed (writeLenPrefixed (writeLenPrefixed (writeLenPrefixed r url) ip) requestId) headers

def packFromStrings (url : JsString) (ip requestId : Option JsString) : Nat × Bytes :=
  let r := writeU8 (0, p.buf) methodKind
  writeLenPrefixed (writeRequestId (writeIp (writeStringLenPrefixed r url) ip) requestId) headers

def packParts (url : JsString) (ip : Option JsString) (requestId : Bytes) : Nat × Bytes :=
  let r := writeU8 (0, p.buf) methodKind
  writeLenPrefixed (writeLenPrefixed (writeIp (writeStringLenPrefixed r url) ip) requestId) headers

end

/-- `buf.subarray(0, pos)`. -/
def subarrayTo (r : Nat × Bytes) : Bytes := r.2.take r.1

/-! ## What each step writes -/

theorem le_doubled {needed fuel size : Nat} (hpos : 0 < size) (hfuel : needed ≤ size + fuel) :
    needed ≤ doubled needed fuel size := by
  induction fuel generalizing size with
  | zero => exact hfuel
  | succ fuel ih =>
    rw [doubled]
    split
    · exact ih (by omega) (by omega)
    · omega

/-- Writing on, in a buffer that is not empty and never shrinks. -/
structure Writes (r r' : Nat × Bytes) (w : Bytes) : Prop extends Appends r r' w where
  size : r.2.length ≤ r'.2.length

theorem Writes.trans {r r' r'' : Nat × Bytes} {w v : Bytes} (h : Writes r r' w)
    (h' : Writes r' r'' v) : Writes r r'' (w ++ v) :=
  ⟨h.toAppends.trans h'.toAppends, Nat.le_trans h.size h'.size⟩

section

variable {r : Nat × Bytes}

/-- The room that was asked for, in front of it what was there. -/
theorem ensure_spec (hle : r.1 ≤ r.2.length) (hpos : 0 < r.2.length) (additional : Nat) :
    (ensure r additional).1 = r.1 ∧ r.1 + additional ≤ (ensure r additional).2.length ∧
      (ensure r additional).2.take r.1 = r.2.take r.1 ∧
      r.2.length ≤ (ensure r additional).2.length := by
  unfold ensure
  dsimp only
  split
  · next hroom => exact ⟨rfl, hroom, rfl, Nat.le_refl _⟩
  · next hroom =>
    have hneeded : r.1 + additional ≤
        doubled (r.1 + additional) (r.1 + additional) (r.2.length * 2) :=
      le_doubled (by omega) (by omega)
    have hlen : (r.2.take r.1 ++
        List.replicate (doubled (r.1 + additional) (r.1 + additional) (r.2.length * 2) - r.1)
          (0 : UInt8)).length = doubled (r.1 + additional) (r.1 + additional) (r.2.length * 2) := by
      rw [List.length_append, List.length_take_of_le hle, List.length_replicate]
      omega
    refine ⟨rfl, ?_, List.take_left' (List.length_take_of_le hle), ?_⟩
    · exact Nat.le_trans hneeded (Nat.le_of_eq hlen.symm)
    · have hless : r.2.length ≤ r.1 + additional := by omega
      exact Nat.le_trans hless (Nat.le_trans hneeded (Nat.le_of_eq hlen.symm))

/-- A step that asks for room and then writes. -/
theorem writes_ensure {r' : Nat × Bytes} {w : Bytes} (hle : r.1 ≤ r.2.length)
    (hpos : 0 < r.2.length) (additional : Nat)
    (h : ∀ buf : Bytes, r.1 + additional ≤ buf.length → ensure r additional = (r.1, buf) →
      Appends (r.1, buf) r' w ∧ buf.length ≤ r'.2.length) : Writes r r' w := by
  obtain ⟨hfst, hroom, htake, hsize⟩ := ensure_spec hle hpos additional
  obtain ⟨happends, hkeep⟩ := h (ensure r additional).2 hroom (Prod.ext hfst rfl)
  exact ⟨happends.of_take htake, Nat.le_trans hsize hkeep⟩

theorem writeU8_writes (hle : r.1 ≤ r.2.length) (hpos : 0 < r.2.length) (value : UInt8) :
    Writes r (writeU8 r value) [value] := by
  apply writes_ensure hle hpos 1
  intro buf hroom hensure
  have hroom' : r.1 + [value].length ≤ buf.length := hroom
  unfold writeU8
  rw [hensure]
  exact ⟨Appends.placed hroom', Nat.le_of_eq (length_placed hroom').symm⟩

theorem writeLenPrefixed_writes (hle : r.1 ≤ r.2.length) (hpos : 0 < r.2.length) (bytes : Bytes) :
    Writes r (writeLenPrefixed r bytes) (packedComponent bytes) := by
  apply writes_ensure hle hpos (4 + bytes.length)
  intro buf hroom hensure
  have hfield : r.1 + (le32 bytes.length).length ≤ buf.length := by
    rw [length_le32]
    omega
  have hbytes : r.1 + 4 + bytes.length ≤ (placed buf r.1 (le32 bytes.length)).length := by
    rw [length_placed hfield]
    omega
  unfold writeLenPrefixed
  rw [hensure]
  dsimp only
  refine ⟨(Appends.placed hfield).trans (Appends.placed hbytes), ?_⟩
  rw [length_placed hbytes, length_placed hfield]

theorem writeStringLenPrefixed_writes (hle : r.1 ≤ r.2.length) (hpos : 0 < r.2.length)
    (value : JsString) :
    Writes r (writeStringLenPrefixed r value) (packedComponent (Utf16.encode value)) := by
  apply writes_ensure hle hpos (4 + value.length * 3)
  intro buf hroom hensure
  have hencode := Utf16.length_encode_le value
  have hfit : Utf16.encodeFitting (buf.length - (r.1 + 4)) value = Utf16.encode value :=
    Utf16.encodeFitting_of_le (by omega)
  have hall : r.1 + (le32 (Utf16.encode value).length).length + (Utf16.encode value).length ≤
      buf.length := by
    rw [length_le32]
    omega
  have hgap := Appends.behind_gap hall
  rw [length_le32] at hgap
  unfold writeStringLenPrefixed encodeUtf8Into
  rw [hensure]
  dsimp only
  rw [hfit]
  refine ⟨hgap, ?_⟩
  rw [length_placed (by rw [length_le32, length_placed (by omega)]; omega), length_placed (by omega)]

/-- What stands for an address: the address, or `0.0.0.0` where it is missing or empty. -/
def ipSection (ip : Option JsString) : Bytes :=
  match ip with
  | some ip => if 0 < ip.length then Utf16.encode ip else emptyIpBytes
  | none => emptyIpBytes

def requestIdSection (requestId : Option JsString) : Bytes := (requestId.map Utf16.encode).getD []

theorem writeIp_writes (hle : r.1 ≤ r.2.length) (hpos : 0 < r.2.length) (ip : Option JsString) :
    Writes r (writeIp r ip) (packedComponent (ipSection ip)) := by
  unfold writeIp ipSection
  split
  · split
    · exact writeStringLenPrefixed_writes hle hpos _
    · exact writeLenPrefixed_writes hle hpos _
  · exact writeLenPrefixed_writes hle hpos _

theorem writeRequestId_writes (hle : r.1 ≤ r.2.length) (hpos : 0 < r.2.length)
    (requestId : Option JsString) :
    Writes r (writeRequestId r requestId) (packedComponent (requestIdSection requestId)) := by
  unfold writeRequestId
  split
  · next rid =>
    split
    · exact writeStringLenPrefixed_writes hle hpos _
    · next hempty =>
      rw [List.eq_nil_of_length_eq_zero (Nat.eq_zero_of_not_pos hempty)]
      exact writeLenPrefixed_writes hle hpos _
  · exact writeLenPrefixed_writes hle hpos _

end

/-- The frame that was written from the start of the buffer. -/
theorem Writes.subarray_eq {buf : Bytes} {r : Nat × Bytes} {w : Bytes} (h : Writes (0, buf) r w) :
    subarrayTo r = w := h.take

/-! ## The three ways of packing -/

section

variable (p : IngressInputPacker) (methodKind : UInt8) (headers : Bytes)

theorem IngressInputPacker.pos (p : IngressInputPacker) : 0 < p.buf.length :=
  Nat.lt_of_lt_of_le (by decide) p.size_ge

/-- Four sections behind the method, each of them written where the one before it ended. -/
theorem writes_frame {r₀ r₁ r₂ r₃ r₄ : Nat × Bytes} {url ip rid block : Bytes}
    (h₀ : r₀ = writeU8 (0, p.buf) methodKind)
    (h₁ : r₀.1 ≤ r₀.2.length → 0 < r₀.2.length → Writes r₀ r₁ (packedComponent url))
    (h₂ : r₁.1 ≤ r₁.2.length → 0 < r₁.2.length → Writes r₁ r₂ (packedComponent ip))
    (h₃ : r₂.1 ≤ r₂.2.length → 0 < r₂.2.length → Writes r₂ r₃ (packedComponent rid))
    (h₄ : r₃.1 ≤ r₃.2.length → 0 < r₃.2.length → Writes r₃ r₄ (packedComponent block)) :
    subarrayTo r₄ = packFrame methodKind url ip rid block ∧ p.buf.length ≤ r₄.2.length := by
  have w₀ : Writes (0, p.buf) r₀ [methodKind] := by
    rw [h₀]
    exact writeU8_writes (Nat.zero_le _) p.pos methodKind
  have w₁ := h₁ w₀.le (Nat.lt_of_lt_of_le p.pos w₀.size)
  have w₀₁ := w₀.trans w₁
  have w₂ := h₂ w₁.le (Nat.lt_of_lt_of_le p.pos w₀₁.size)
  have w₀₂ := w₀₁.trans w₂
  have w₃ := h₃ w₂.le (Nat.lt_of_lt_of_le p.pos w₀₂.size)
  have w₀₃ := w₀₂.trans w₃
  have w₄ := h₄ w₃.le (Nat.lt_of_lt_of_le p.pos w₀₃.size)
  have w₀₄ := w₀₃.trans w₄
  refine ⟨?_, w₀₄.size⟩
  rw [w₀₄.subarray_eq, packFrame]
  simp only [List.append_assoc]

theorem pack_eq (url ip requestId : Bytes) :
    subarrayTo (pack p methodKind headers url ip requestId) =
        packFrame methodKind url ip requestId headers ∧
      p.buf.length ≤ (pack p methodKind headers url ip requestId).2.length :=
  writes_frame p methodKind rfl (fun hle hpos => writeLenPrefixed_writes hle hpos url)
    (fun hle hpos => writeLenPrefixed_writes hle hpos ip)
    (fun hle hpos => writeLenPrefixed_writes hle hpos requestId)
    (fun hle hpos => writeLenPrefixed_writes hle hpos headers)

theorem packFromStrings_eq (url : JsString) (ip requestId : Option JsString) :
    subarrayTo (packFromStrings p methodKind headers url ip requestId) =
        packFrame methodKind (Utf16.encode url) (ipSection ip) (requestIdSection requestId) headers ∧
      p.buf.length ≤ (packFromStrings p methodKind headers url ip requestId).2.length :=
  writes_frame p methodKind rfl (fun hle hpos => writeStringLenPrefixed_writes hle hpos url)
    (fun hle hpos => writeIp_writes hle hpos ip)
    (fun hle hpos => writeRequestId_writes hle hpos requestId)
    (fun hle hpos => writeLenPrefixed_writes hle hpos headers)

/-- **Packing a request of the pre-baked handler.** -/
theorem packParts_eq (url : JsString) (ip : Option JsString) (requestId : Bytes) :
    subarrayTo (packParts p methodKind headers url ip requestId) =
        packFrame methodKind (Utf16.encode url) (ipSection ip) requestId headers ∧
      p.buf.length ≤ (packParts p methodKind headers url ip requestId).2.length :=
  writes_frame p methodKind rfl (fun hle hpos => writeStringLenPrefixed_writes hle hpos url)
    (fun hle hpos => writeIp_writes hle hpos ip)
    (fun hle hpos => writeLenPrefixed_writes hle hpos requestId)
    (fun hle hpos => writeLenPrefixed_writes hle hpos headers)

end

/-! ## From the headers to the native side -/

/-- The origin as a caller hands it over: left out, or fetched before if the plan asks for it. -/
def originArgument (req : JsRequest) (plan : HeaderPlan) (fetched : Bool) :
    Option (Option JsString) :=
  if fetched then some (if plan.cors then req.get hdrOrigin else none) else none

/-- An origin that was fetched before is the request's. -/
theorem forEachSelectedHeader_origin (req : JsRequest) (plan : HeaderPlan) (methodKind : MethodKind)
    (fetched : Bool) :
    forEachSelectedHeader req plan methodKind (originArgument req plan fetched) none =
      forEachSelectedHeader req plan methodKind none none := by
  unfold forEachSelectedHeader originArgument
  cases fetched with
  | false => rfl
  | true =>
    cases hcors : plan.cors with
    | false => rfl
    | true => rfl

/-- **From the headers of a request to what the native side reads.** Whatever was packed before, both
paths give the same block; a block of Latin-1 values is within the native limit; it parses to the
selected headers if the instance allows as many; and a frame around it within the limits of the
instance is read back part by part, with `0.0.0.0` for an address that is missing or empty. -/
theorem headerPacking (history : List CacheCall) (scratch scratch' : Scratch) (req : JsRequest)
    (plan : HeaderPlan) (fetched : Bool) :
    let kind := methodKindOf req.method
    let selected := forEachSelectedHeader req plan kind none none
    let block := (gatherRawHeadersPacked (history.foldl OriginCache.after []) scratch req plan kind
      (originArgument req plan fetched)).1
    block = packHeaders scratch' req plan ∧
    (req.Latin1 → block.length ≤ 65536) ∧
    (∀ maxHeaders, selected.length ≤ maxHeaders →
      readPairs block maxHeaders = .ok (selected.map encoded) ∧
      HeaderRefs.parse block (kind = .options) maxHeaders = .ok (selectedRefs req plan kind)) ∧
    ∀ (limits : Limits) (p : IngressInputPacker) (mk : MethodKind),
      (∀ url ip rid, limits.Allow url ip rid block →
        readFrame limits (subarrayTo (pack p mk.toU8 block url ip rid)) =
          .ok ⟨mk, url, ip, rid, block⟩) ∧
      (∀ url ip rid, limits.Allow (Utf16.encode url) (ipSection ip) rid block →
        readFrame limits (subarrayTo (packParts p mk.toU8 block url ip rid)) =
          .ok ⟨mk, Utf16.encode url, ipSection ip, rid, block⟩) ∧
      ∀ url ip rid, limits.Allow (Utf16.encode url) (ipSection ip) (requestIdSection rid) block →
        readFrame limits (subarrayTo (packFromStrings p mk.toU8 block url ip rid)) =
          .ok ⟨mk, Utf16.encode url, ipSection ip, requestIdSection rid, block⟩ := by
  intro kind selected gathered
  -- the cache only saves work: with any history the block is that of the selected headers
  have hblock : gathered = block selected := by
    show (gatherRawHeadersPacked _ _ _ _ _ _).1 = _
    rw [(gather_spec (OriginCache.sound_history history) scratch req plan kind _).1,
      forEachSelectedHeader_origin]
  refine ⟨?_, ?_, ?_, ?_⟩
  · rw [hblock, packHeaders_eq]
  · intro hlatin
    rw [hblock]
    exact Nat.le_trans (length_block_le hlatin plan kind) (by decide)
  · intro maxHeaders hmax
    rw [hblock]
    constructor
    · rw [readPairs_block, if_neg (Nat.not_lt.mpr hmax)]
    · exact parse_block req plan kind hmax
  · intro limits p mk
    refine ⟨?_, ?_, ?_⟩
    · intro url ip rid hallow
      rw [(pack_eq p mk.toU8 gathered url ip rid).1, hallow.readFrame]
    · intro url ip rid hallow
      rw [(packParts_eq p mk.toU8 gathered url ip rid).1, hallow.readFrame]
    · intro url ip rid hallow
      rw [(packFromStrings_eq p mk.toU8 gathered url ip rid).1, hallow.readFrame]

/-- The empty string as an address is read back as `0.0.0.0`. -/
theorem packParts_emptyIp :
    ¬ ∀ (p : IngressInputPacker) (url ip : JsString) (rid block : Bytes) (f : Frame),
      readFrame {} (subarrayTo (packParts p 0 block url (some ip) rid)) = .ok f →
        f.ip = Utf16.encode ip := by
  intro h
  have hallow : Limits.Allow {} (Utf16.encode []) (ipSection (some [])) [] emptyHeadersBlock := by
    constructor <;> decide
  have hframe : readFrame {} (subarrayTo
      (packParts (.new 0) MethodKind.get.toU8 emptyHeadersBlock [] (some []) [])) =
        .ok ⟨.get, Utf16.encode [], ipSection (some []), [], emptyHeadersBlock⟩ := by
    rw [(packParts_eq (.new 0) MethodKind.get.toU8 emptyHeadersBlock [] (some []) []).1,
      hallow.readFrame]
  have hip := h (.new 0) [] [] [] emptyHeadersBlock _ hframe
  exact absurd hip (by decide)

end Castrum.Packing
