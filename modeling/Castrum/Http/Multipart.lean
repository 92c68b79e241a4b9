import Castrum.Json.Pairs
import Castrum.Lib.Find

/-!
# Castrum — multipart bodies (`rust/http/multipart.rs`)

A body is an opening `--boundary` and then parts: a line end, header lines, a blank line, and data
up to the next CRLF `--boundary`. The blank line and the next delimiter are found by two searches
that know nothing of each other. A returned part is a slice of the body in each of its fields, so
the parser is written here as one that finds the ranges of the parts (`Block`), and the part is
read off a range. `usize` sums are `Nat`: no sum of lengths of slices of one body overflows.

* `nextDelimiter_eq` — the loop over the markers finds the first delimiter;
* `blockAt_eq_some_iff` — what one round of the parser takes, as a decomposition of the text;
* `multipartBlocks_tidy_iff` — the bodies of which no part swallows a delimiter.
-/

namespace Castrum

open Ascii

/-! ## Content-Disposition -/

abbrev semicolon : UInt8 := 59

def crlf : Bytes := [13, 10]

/-- `<[u8]>::eq_ignore_ascii_case`. -/
def eqIgnoreAsciiCase (a b : Bytes) : Bool := a.map asciiLower = b.map asciiLower

/-- The `name` and `filename` parameters found so far. -/
structure Disposition where
  name : Option Bytes
  filename : Option Bytes
  deriving DecidableEq, Repr

/-- One `key=value` attribute (`parse_disposition_attr`). -/
def parseDispositionAttr (attr : Bytes) (found : Disposition) : Disposition :=
  let attr := trimAsciiWhitespace attr
  if attr = [] then found
  else
    match cutAt 61 attr with
    | none => found
    | some (key, val) =>
      let key := trimAsciiWhitespace key
      let val := unquote (trimAsciiWhitespace val)
      if eqIgnoreAsciiCase key (utf8 "name") then { found with name := some val }
      else if eqIgnoreAsciiCase key (utf8 "filename") then { found with filename := some val }
      else found

/-- The loop of `parse_disposition`: `attr` is what lies between `start` and the position. -/
def dispositionFrom : Bytes → Bytes → Bool → Disposition → Disposition
  | [], attr, _, found => parseDispositionAttr attr found
  | backslash :: quote :: rest, attr, inQuotes, found =>
    -- an escaped quote does not toggle
    dispositionFrom rest (attr ++ [backslash, quote]) inQuotes found
  | b :: rest, attr, inQuotes, found =>
    if b = quote then dispositionFrom rest (attr ++ [b]) (!inQuotes) found
    else if b = semicolon ∧ inQuotes = false then
      dispositionFrom rest [] inQuotes (parseDispositionAttr attr found)
    else dispositionFrom rest (attr ++ [b]) inQuotes found

def parseDisposition (value : Bytes) : Disposition :=
  dispositionFrom value [] false { name := none, filename := none }

/-! ## Parts -/

structure Part where
  name : Bytes
  filename : Option Bytes
  contentType : Option Bytes
  data : Bytes
  deriving DecidableEq, Repr

/-- What the header lines of a part say. -/
structure PartHeader where
  name : Option Bytes
  filename : Option Bytes
  contentType : Option Bytes
  deriving DecidableEq, Repr

def headerLine (header : PartHeader) (line : Bytes) : PartHeader :=
  let line := if line.getLast? = some 13 then line.dropLast else line
  match cutAt colon line with
  | none => header
  | some (field, value) =>
    let field := trimAsciiWhitespace field
    let value := trimAsciiWhitespace value
    if eqIgnoreAsciiCase field (utf8 "content-disposition") then
      let found := parseDisposition value
      { header with name := found.name, filename := found.filename }
    else if eqIgnoreAsciiCase field (utf8 "content-type") then
      { header with contentType := some value }
    else header

def parseHeader (headerBlock : Bytes) : PartHeader :=
  (headerBlock.splitOn 10).foldl headerLine { name := none, filename := none, contentType := none }

/-- The ranges of a part in the body: its header block and its data. -/
structure Block where
  headerStart : Nat
  headerEnd : Nat
  dataStart : Nat
  dataEnd : Nat
  deriving DecidableEq, Repr

namespace Block

variable (b : Block) (body : Bytes)

def header : Bytes := (body.take b.headerEnd).drop b.headerStart

def data : Bytes := (body.take b.dataEnd).drop b.dataStart

def part : Part :=
  let header := parseHeader (b.header body)
  { name := header.name.getD []
    filename := header.filename
    contentType := header.contentType
    data := b.data body }

end Block

/-! ## The parser -/

/-- CRLF and two dashes. -/
def marker : Bytes := [13, 10, 45, 45]

/-- Index of the next delimiter from `base` on (`next_delimiter`). -/
def nextDelimiter (body boundary : Bytes) (base : Nat) : Option Nat :=
  if base < body.length then
    match memmem marker (body.drop base) with
    | none => none
    | some rel =>
      let delim := base + rel
      let after := delim + marker.length
      if (body.drop after).take boundary.length = boundary then some delim
      else nextDelimiter body boundary after
  else none
termination_by body.length - base
decreasing_by
  simp only [marker, List.length_cons, List.length_nil]
  omega

structure MultipartLimits where
  maxParts : Nat
  maxFieldCount : Nat
  maxPartBytes : Nat
  maxTotalBytes : Nat

/-- `MultipartLimits::default`. -/
def MultipartLimits.default : MultipartLimits where
  maxParts := 1000
  maxFieldCount := 1000
  maxPartBytes := 10 * 1024 * 1024
  maxTotalBytes := 64 * 1024 * 1024

/-- The part behind the delimiter that ends at `pos`, if there is one. -/
def blockAt (body boundary : Bytes) (pos : Nat) : Option Block :=
  -- closing delimiter
  if (body.drop pos).take 2 = [minus, minus] then none
  else if (body.drop pos).take 2 ≠ crlf then none
  else
    let start := pos + 2
    match memmem (crlf ++ crlf) (body.drop start) with
    | none => none
    | some rel =>
      let dataStart := start + rel + 4
      match nextDelimiter body boundary dataStart with
      | none => none
      | some delim =>
        some { headerStart := start, headerEnd := start + rel, dataStart := dataStart,
               dataEnd := delim }

theorem nextDelimiter_bounds {body boundary : Bytes} {base delim : Nat}
    (h : nextDelimiter body boundary base = some delim) : base ≤ delim ∧ delim < body.length := by
  fun_induction nextDelimiter body boundary base with
  | case1 base hlt hnone => cases h
  | case2 base hlt rel hrel delim' after hhere =>
    obtain ⟨hat, -, -⟩ := memmem_eq_some_iff.mp hrel
    have hlen := hat.length_le
    rw [List.length_drop, List.length_drop, show marker.length = 4 from rfl] at hlen
    have := Option.some.inj h
    omega
  | case3 base hlt rel hrel delim' after hhere ih =>
    have := ih h
    omega
  | case4 base hlt => cases h

theorem blockAt_bounds {body boundary : Bytes} {pos : Nat} {b : Block}
    (h : blockAt body boundary pos = some b) :
    b.headerStart = pos + 2 ∧ b.headerStart ≤ b.headerEnd ∧ b.dataStart = b.headerEnd + 4 ∧
      b.dataStart ≤ b.dataEnd ∧ b.dataEnd < body.length := by
  unfold blockAt at h
  split at h
  · cases h
  split at h
  · cases h
  dsimp only at h
  split at h
  · cases h
  · next rel hrel =>
    split at h
    · cases h
    · next delim hdelim =>
      obtain rfl := Option.some.inj h
      have := nextDelimiter_bounds hdelim
      exact ⟨rfl, Nat.le_add_right _ _, rfl, this.1, this.2⟩

/-- The loop of `parse_multipart_limited`; `count` is `parts.len()`. -/
def blocksFrom (body boundary : Bytes) (limits : MultipartLimits) (pos totalData fieldCount count : Nat) :
    List Block :=
  match hb : blockAt body boundary pos with
  | none => []
  | some b =>
    let part := b.part body
    if limits.maxParts ≤ count then []
    else if part.filename = none ∧ limits.maxFieldCount ≤ fieldCount then []
    else if limits.maxPartBytes < part.data.length then []
    else if limits.maxTotalBytes < totalData + part.data.length then []
    else
      b :: blocksFrom body boundary limits (b.dataEnd + 2 + 2 + boundary.length)
        (totalData + part.data.length)
        (if part.filename = none then fieldCount + 1 else fieldCount) (count + 1)
termination_by body.length + 1 - pos
decreasing_by
  have := blockAt_bounds hb
  omega

/-- The ranges of the parts of a body. -/
def multipartBlocks (body boundary : Bytes) (limits : MultipartLimits) : List Block :=
  if boundary = [] then []
  else if body.take 2 ≠ [minus, minus] ∨ (body.drop 2).take boundary.length ≠ boundary then []
  else blocksFrom body boundary limits (2 + boundary.length) 0 0 0

def parseMultipartLimited (body boundary : Bytes) (limits : MultipartLimits) : List Part :=
  (multipartBlocks body boundary limits).map (·.part body)

def parseMultipart (body boundary : Bytes) : List Part :=
  parseMultipartLimited body boundary MultipartLimits.default

/-! ## What one round takes -/

/-- A delimiter inside the body: CRLF, two dashes and the boundary. -/
def delimiter (boundary : Bytes) : Bytes := marker ++ boundary

theorem delimiter_ne_nil (boundary : Bytes) : delimiter boundary ≠ [] := List.cons_ne_nil _ _

theorem prefix_delimiter_iff {s boundary : Bytes} :
    delimiter boundary <+: s ↔ marker <+: s ∧ boundary <+: s.drop marker.length := by
  constructor
  · rintro ⟨t, rfl⟩
    rw [delimiter, List.append_assoc, List.drop_left]
    exact ⟨List.prefix_append _ _, List.prefix_append _ _⟩
  · rintro ⟨⟨t, rfl⟩, hb⟩
    rw [List.drop_left] at hb
    exact List.prefix_append_right_inj marker |>.mpr hb

/-- Two markers do not overlap. -/
theorem marker_not_prefix {s : Bytes} (h : marker <+: s) {i : Nat} (hpos : 0 < i)
    (hi : i < marker.length) : ¬ marker <+: s.drop i := by
  obtain ⟨t, rfl⟩ := h
  change i < 4 at hi
  rintro ⟨u, hu⟩
  have hhead := congrArg List.head? hu
  obtain rfl | rfl | rfl : i = 1 ∨ i = 2 ∨ i = 3 := by omega
  · exact absurd (show some (13 : UInt8) = some 10 from hhead) (by decide)
  · exact absurd (show some (13 : UInt8) = some 45 from hhead) (by decide)
  · exact absurd (show some (13 : UInt8) = some 45 from hhead) (by decide)

/-- **The loop over the markers finds the first delimiter.** -/
theorem nextDelimiter_eq (body boundary : Bytes) (base : Nat) :
    nextDelimiter body boundary base =
      (memmem (delimiter boundary) (body.drop base)).map (base + ·) := by
  fun_induction nextDelimiter body boundary base with
  | case1 base hlt hnone =>
    have hnot : memmem (delimiter boundary) (body.drop base) = none := by
      rw [memmem_eq_none_iff] at hnone ⊢
      exact fun h => hnone ((List.prefix_append marker boundary).isInfix.trans h)
    rw [hnot, Option.map_none]
  | case2 base hlt rel hrel delim after hhere =>
    obtain ⟨hat, hfirst, hle⟩ := memmem_eq_some_iff.mp hrel
    have hfound : memmem (delimiter boundary) (body.drop base) = some rel := by
      refine memmem_eq_some_iff.mpr ⟨prefix_delimiter_iff.mpr ⟨hat, ?_⟩, ?_, hle⟩
      · rw [List.drop_drop, List.drop_drop]
        exact hhere ▸ List.take_prefix _ _
      · exact fun j hj hd => hfirst j hj (prefix_delimiter_iff.mp hd).1
    rw [hfound, Option.map_some]
  | case3 base hlt rel hrel delim after hhere ih =>
    obtain ⟨hat, hfirst, hle⟩ := memmem_eq_some_iff.mp hrel
    have hlen := hat.length_le
    rw [List.length_drop, show marker.length = 4 from rfl] at hlen
    -- no delimiter begins before or inside the marker that was passed over
    have hskip : ∀ j < rel + 4, ¬ delimiter boundary <+: (body.drop base).drop j := by
      intro j hj hd
      obtain ⟨hmarker, hboundary⟩ := prefix_delimiter_iff.mp hd
      obtain hlt | heq | hgt := Nat.lt_trichotomy j rel
      · exact hfirst j hlt hmarker
      · subst heq
        rw [List.drop_drop, List.drop_drop] at hboundary
        exact hhere (List.prefix_iff_eq_take.mp hboundary).symm
      · have hdrop : (body.drop base).drop j = ((body.drop base).drop rel).drop (j - rel) := by
          conv_rhs => rw [List.drop_drop, Nat.add_sub_cancel' (Nat.le_of_lt hgt)]
        rw [hdrop] at hmarker
        exact marker_not_prefix hat (by omega) (show j - rel < 4 by omega) hmarker
    rw [ih, memmem_drop hskip (by omega), List.drop_drop, Option.map_map]
    rw [show base + (rel + 4) = after from (Nat.add_assoc base rel 4).symm]
    congr 1
    funext k
    show base + rel + 4 + k = base + (rel + 4 + k)
    omega
  | case4 base hlt =>
    rw [List.drop_eq_nil_iff.mpr (Nat.le_of_not_lt hlt), memmem, if_neg (delimiter_ne_nil boundary)]
    rfl

/-- A part as it stands behind a delimiter: a line end, the header up to the first blank line, and
the data up to the first delimiter. -/
structure IsPart (boundary text header data rest : Bytes) : Prop where
  text_eq : text = crlf ++ (header ++ (crlf ++ crlf ++ (data ++ (delimiter boundary ++ rest))))
  header_end : memmem (crlf ++ crlf)
    (header ++ (crlf ++ crlf ++ (data ++ (delimiter boundary ++ rest)))) = some header.length
  data_end : memmem (delimiter boundary) (data ++ (delimiter boundary ++ rest)) = some data.length

/-- The ranges of a part behind `pos`. -/
def blockOf (pos : Nat) (header data : Bytes) : Block where
  headerStart := pos + 2
  headerEnd := pos + 2 + header.length
  dataStart := pos + 2 + header.length + 4
  dataEnd := pos + 2 + header.length + 4 + data.length

section

variable {body boundary : Bytes} {pos : Nat}

/-- A needle that is found stands behind what is in front of it. -/
theorem eq_append_of_memmem {needle s : Bytes} {k : Nat} (h : memmem needle s = some k) :
    ∃ p q, s = p ++ (needle ++ q) ∧ p.length = k := by
  obtain ⟨⟨q, hq⟩, -, hle⟩ := memmem_eq_some_iff.mp h
  exact ⟨s.take k, q, by rw [hq, List.take_append_drop], List.length_take_of_le hle⟩

theorem IsPart.drops {header data rest : Bytes} (h : IsPart boundary (body.drop pos) header data rest) :
    body.drop (pos + 2) =
        header ++ (crlf ++ crlf ++ (data ++ (delimiter boundary ++ rest))) ∧
      body.drop (pos + 2 + header.length + 4) = data ++ (delimiter boundary ++ rest) ∧
      body.drop (pos + 2 + header.length + 4 + data.length) = delimiter boundary ++ rest ∧
      body.drop (pos + 2 + header.length + 4 + data.length + 2 + 2 + boundary.length) = rest := by
  have hstart := drop_of_drop (s := crlf) h.text_eq
  have hdata := drop_of_drop (s := crlf ++ crlf) (drop_of_drop hstart)
  have hdelim := drop_of_drop hdata
  have hrest := drop_of_drop hdelim
  have hlen : (delimiter boundary).length = 2 + 2 + boundary.length := by
    rw [delimiter, List.length_append]
    rfl
  refine ⟨hstart, hdata, hdelim, ?_⟩
  rw [hlen] at hrest
  rw [Nat.add_assoc _ 2 2, Nat.add_assoc _ (2 + 2)]
  exact hrest

/-- **What one round takes**: a part that stands behind the position. -/
theorem blockAt_eq_some_iff {b : Block} : blockAt body boundary pos = some b ↔
    ∃ header data rest, IsPart boundary (body.drop pos) header data rest ∧
      b = blockOf pos header data := by
  constructor
  · intro h
    unfold blockAt at h
    split at h
    · cases h
    split at h
    · cases h
    next _ hcrlf =>
    rw [not_not] at hcrlf
    dsimp only at h
    split at h
    · cases h
    next rel hrel =>
    split at h
    · cases h
    next delim hdelim =>
    -- the text behind the position: line end, header, blank line, data, delimiter
    obtain rfl := Option.some.inj h
    obtain ⟨header, behind, hheader, hlen⟩ := eq_append_of_memmem hrel
    have hstart : body.drop pos = crlf ++ body.drop (pos + 2) := by
      rw [← hcrlf, ← List.drop_drop, List.take_append_drop]
    have hbehind : body.drop (pos + 2 + rel + 4) = behind := by
      rw [← hlen]
      exact drop_of_drop (s := crlf ++ crlf) (drop_of_drop hheader)
    rw [nextDelimiter_eq, hbehind, Option.map_eq_some_iff] at hdelim
    obtain ⟨k, hk, rfl⟩ := hdelim
    obtain ⟨data, rest, rfl, rfl⟩ := eq_append_of_memmem hk
    refine ⟨header, data, rest, ⟨by rw [hstart, hheader], ?_, hk⟩, ?_⟩
    · rw [← hheader, hrel, hlen]
    · rw [blockOf, hlen]
  · rintro ⟨header, data, rest, h, rfl⟩
    obtain ⟨hstart, hdata, -, -⟩ := h.drops
    have hcrlf : (body.drop pos).take 2 = crlf := by
      rw [h.text_eq]
      rfl
    unfold blockAt
    rw [hcrlf, if_neg (by decide), if_neg (not_not.mpr rfl)]
    dsimp only
    rw [hstart, h.header_end]
    dsimp only
    rw [nextDelimiter_eq, hdata, h.data_end]
    rfl

theorem IsPart.header_eq {header data rest : Bytes}
    (h : IsPart boundary (body.drop pos) header data rest) :
    (blockOf pos header data).header body = header :=
  drop_take_of_drop h.drops.1

theorem IsPart.data_eq {header data rest : Bytes}
    (h : IsPart boundary (body.drop pos) header data rest) :
    (blockOf pos header data).data body = data :=
  drop_take_of_drop h.drops.2.1

end

/-! ## What the parts cover -/

/-- How much of the limits is used up. -/
structure Totals where
  totalData : Nat
  fieldCount : Nat
  count : Nat

def Totals.zero : Totals := { totalData := 0, fieldCount := 0, count := 0 }

/-- The limits have room for a part. -/
structure Totals.Admits (t : Totals) (limits : MultipartLimits) (header data : Bytes) : Prop where
  parts : t.count < limits.maxParts
  fields : (parseHeader header).filename = none → t.fieldCount < limits.maxFieldCount
  part : data.length ≤ limits.maxPartBytes
  total : t.totalData + data.length ≤ limits.maxTotalBytes

def Totals.add (t : Totals) (header data : Bytes) : Totals where
  totalData := t.totalData + data.length
  fieldCount :=
    if (parseHeader header).filename = none then t.fieldCount + 1 else t.fieldCount
  count := t.count + 1

/-- The parts in the rest of a body. -/
def Totals.blocks (t : Totals) (body boundary : Bytes) (limits : MultipartLimits) (pos : Nat) :
    List Block :=
  blocksFrom body boundary limits pos t.totalData t.fieldCount t.count

section

variable {body boundary : Bytes} {limits : MultipartLimits} {pos : Nat} {t : Totals}

/-- No part stands here. -/
theorem Totals.blocks_of_none (h : blockAt body boundary pos = none) :
    t.blocks body boundary limits pos = [] := by
  unfold Totals.blocks
  rw [blocksFrom]
  split
  · rfl
  · next b hb => rw [h] at hb; cases hb

variable {header data rest : Bytes} (h : IsPart boundary (body.drop pos) header data rest)

include h

/-- A part that the limits admit is taken … -/
theorem Totals.blocks_of_admits (hadmits : t.Admits limits header data) :
    t.blocks body boundary limits pos = blockOf pos header data ::
      (t.add header data).blocks body boundary limits
        ((blockOf pos header data).dataEnd + 2 + 2 + boundary.length) := by
  have hb := blockAt_eq_some_iff.mpr ⟨header, data, rest, h, rfl⟩
  have hfilename : ((blockOf pos header data).part body).filename = (parseHeader header).filename := by
    rw [Block.part, h.header_eq]
  have hdata : ((blockOf pos header data).part body).data = data := h.data_eq
  conv_lhs => unfold Totals.blocks; rw [blocksFrom]
  split
  · next hnone => rw [hb] at hnone; cases hnone
  · next b hsome =>
    obtain rfl := Option.some.inj (hb.symm.trans hsome)
    dsimp only
    rw [hfilename, hdata, if_neg (Nat.not_le.mpr hadmits.parts),
      if_neg fun hn => absurd (hadmits.fields hn.1) (Nat.not_lt.mpr hn.2),
      if_neg (Nat.not_lt.mpr hadmits.part), if_neg (Nat.not_lt.mpr hadmits.total)]
    rfl

/-- … and the parser stops at one that they do not. -/
theorem Totals.blocks_of_not_admits (hadmits : ¬ t.Admits limits header data) :
    t.blocks body boundary limits pos = [] := by
  have hb := blockAt_eq_some_iff.mpr ⟨header, data, rest, h, rfl⟩
  have hfilename : ((blockOf pos header data).part body).filename = (parseHeader header).filename := by
    rw [Block.part, h.header_eq]
  have hdata : ((blockOf pos header data).part body).data = data := h.data_eq
  unfold Totals.blocks
  rw [blocksFrom]
  split
  · rfl
  · next b hsome =>
    obtain rfl := Option.some.inj (hb.symm.trans hsome)
    dsimp only
    rw [hfilename, hdata]
    split
    · rfl
    next hparts =>
    split
    · rfl
    next hfields =>
    split
    · rfl
    next hpart =>
    split
    · rfl
    next htotal =>
    refine absurd ⟨Nat.not_le.mp hparts, ?_, Nat.not_lt.mp hpart, Nat.not_lt.mp htotal⟩ hadmits
    exact fun hnone => Nat.not_le.mp fun hle => hfields ⟨hnone, hle⟩

omit h

/-- A text is read as a part in one way only. -/
theorem IsPart.unique {text header header' data data' rest rest' : Bytes}
    (h : IsPart boundary text header data rest) (h' : IsPart boundary text header' data' rest') :
    header = header' ∧ data = data' ∧ rest = rest' := by
  have hbehind := List.append_cancel_left (h.text_eq.symm.trans h'.text_eq)
  have hlen := h.header_end
  rw [hbehind, h'.header_end, Option.some.injEq] at hlen
  obtain ⟨hheader, hbehind⟩ := List.append_inj hbehind hlen.symm
  have hbehind := List.append_cancel_left hbehind
  have hlen := h.data_end
  rw [hbehind, h'.data_end, Option.some.injEq] at hlen
  obtain ⟨hdata, hbehind⟩ := List.append_inj hbehind hlen.symm
  exact ⟨hheader, hdata, List.append_cancel_left hbehind⟩

end

/-- **Induction along a parse**: it stops where no part stands that the limits admit, or takes one
and goes on behind its delimiter. -/
theorem Totals.blocks_induction (body boundary : Bytes) (limits : MultipartLimits)
    {motive : Totals → Nat → Prop}
    (stop : ∀ t pos, (∀ header data rest, IsPart boundary (body.drop pos) header data rest →
      ¬ t.Admits limits header data) → motive t pos)
    (take : ∀ t pos header data rest, IsPart boundary (body.drop pos) header data rest →
      t.Admits limits header data →
      motive (t.add header data) ((blockOf pos header data).dataEnd + 2 + 2 + boundary.length) →
      motive t pos) (t : Totals) (pos : Nat) : motive t pos := by
  induction hn : body.length + 1 - pos using Nat.strong_induction_on generalizing t pos with
  | h n ih =>
    by_cases hpart : ∃ header data rest, IsPart boundary (body.drop pos) header data rest ∧
        t.Admits limits header data
    · obtain ⟨header, data, rest, h, hadmits⟩ := hpart
      have hbounds := blockAt_bounds (blockAt_eq_some_iff.mpr ⟨header, data, rest, h, rfl⟩)
      exact take t pos header data rest h hadmits (ih _ (by omega) _ _ rfl)
    · exact stop t pos fun header data rest h hadmits =>
        hpart ⟨header, data, rest, h, hadmits⟩

theorem Totals.blocks_of_stop {body boundary : Bytes} {limits : MultipartLimits} {t : Totals}
    {pos : Nat} (h : ∀ header data rest, IsPart boundary (body.drop pos) header data rest →
      ¬ t.Admits limits header data) : t.blocks body boundary limits pos = [] := by
  cases hb : blockAt body boundary pos with
  | none => exact Totals.blocks_of_none hb
  | some b =>
    obtain ⟨header, data, rest, hpart, -⟩ := blockAt_eq_some_iff.mp hb
    exact Totals.blocks_of_not_admits hpart (h header data rest hpart)

/-- The ranges lie in the body, in increasing order and apart from each other, and none of them
holds a delimiter. -/
structure Tidy (body boundary : Bytes) (blocks : List Block) : Prop where
  ranges : ∀ b ∈ blocks, b.headerStart ≤ b.headerEnd ∧ b.headerEnd ≤ b.dataStart ∧
    b.dataStart ≤ b.dataEnd ∧ b.dataEnd ≤ body.length
  ordered : blocks.Pairwise fun b b' => b.dataEnd ≤ b'.headerStart
  header : ∀ b ∈ blocks, ¬ delimiter boundary <:+: b.header body
  data : ∀ b ∈ blocks, ¬ delimiter boundary <:+: b.data body

/-- After some parts comes one with a delimiter in its header: the blank line that ends the header
stands behind the delimiter, and another delimiter ends the data. -/
inductive Swallows (boundary : Bytes) (limits : MultipartLimits) : Totals → Bytes → Prop where
  | here {t : Totals} {text header data rest : Bytes} :
      IsPart boundary text header data rest → t.Admits limits header data →
      delimiter boundary <:+: header → Swallows boundary limits t text
  | later {t : Totals} {text header data rest : Bytes} :
      IsPart boundary text header data rest → t.Admits limits header data →
      Swallows boundary limits (t.add header data) rest → Swallows boundary limits t text

section

variable (body boundary : Bytes) (limits : MultipartLimits)

/-- What holds of the parts of every body. -/
theorem Totals.blocks_ordered (t : Totals) (pos : Nat) :
    (∀ b ∈ t.blocks body boundary limits pos, pos ≤ b.headerStart ∧ b.headerStart ≤ b.headerEnd ∧
      b.headerEnd ≤ b.dataStart ∧ b.dataStart ≤ b.dataEnd ∧ b.dataEnd ≤ body.length ∧
      ¬ delimiter boundary <:+: b.data body) ∧
    (t.blocks body boundary limits pos).Pairwise fun b b' => b.dataEnd ≤ b'.headerStart := by
  induction t, pos using Totals.blocks_induction body boundary limits with
  | stop t pos h =>
    rw [Totals.blocks_of_stop h]
    exact ⟨fun b hb => absurd hb List.not_mem_nil, List.Pairwise.nil⟩
  | take t pos header data rest h hadmits ih =>
    have hbounds := blockAt_bounds (blockAt_eq_some_iff.mpr ⟨header, data, rest, h, rfl⟩)
    have hdata : ¬ delimiter boundary <:+: (blockOf pos header data).data body := by
      have := not_isInfix_take h.data_end (delimiter_ne_nil boundary)
      rwa [List.take_left, ← h.data_eq] at this
    rw [Totals.blocks_of_admits h hadmits]
    constructor
    · refine List.forall_mem_cons.mpr ⟨⟨by omega, hbounds.2.1, by omega, hbounds.2.2.2.1,
        hbounds.2.2.2.2.le, hdata⟩, ?_⟩
      exact fun b hb => ⟨by have := (ih.1 b hb).1; omega, (ih.1 b hb).2⟩
    · refine List.pairwise_cons.mpr ⟨fun b hb => ?_, ih.2⟩
      have := (ih.1 b hb).1
      omega

/-- **A header that holds a delimiter** comes from a text that has such a part. -/
theorem Totals.exists_header_iff (t : Totals) (pos : Nat) :
    (∃ b ∈ t.blocks body boundary limits pos, delimiter boundary <:+: b.header body) ↔
      Swallows boundary limits t (body.drop pos) := by
  induction t, pos using Totals.blocks_induction body boundary limits with
  | stop t pos h =>
    rw [Totals.blocks_of_stop h]
    refine iff_of_false (fun ⟨b, hb, _⟩ => absurd hb List.not_mem_nil) fun hs => ?_
    cases hs with
    | here hpart hadmits _ => exact h _ _ _ hpart hadmits
    | later hpart hadmits _ => exact h _ _ _ hpart hadmits
  | take t pos header data rest h hadmits ih =>
    have hnext : body.drop ((blockOf pos header data).dataEnd + 2 + 2 + boundary.length) = rest :=
      h.drops.2.2.2
    rw [hnext] at ih
    rw [Totals.blocks_of_admits h hadmits, List.exists_mem_cons_iff, h.header_eq, ih]
    constructor
    · rintro (hin | hs)
      · exact Swallows.here h hadmits hin
      · exact Swallows.later h hadmits hs
    · intro hs
      cases hs with
      | here hpart _ hin =>
        obtain ⟨rfl, -, -⟩ := h.unique hpart
        exact .inl hin
      | later hpart _ hs =>
        obtain ⟨rfl, rfl, rfl⟩ := h.unique hpart
        exact .inr hs

end

/-- A body with the boundary in front, in which a part swallows a delimiter. -/
def SwallowsDelimiter (body boundary : Bytes) (limits : MultipartLimits) : Prop :=
  boundary ≠ [] ∧ ∃ rest, body = [minus, minus] ++ (boundary ++ rest) ∧
    Swallows boundary limits Totals.zero rest

theorem multipartBlocks_of_opening {boundary : Bytes} (hne : boundary ≠ []) (rest : Bytes)
    (limits : MultipartLimits) :
    multipartBlocks ([minus, minus] ++ (boundary ++ rest)) boundary limits =
      Totals.zero.blocks ([minus, minus] ++ (boundary ++ rest)) boundary limits
        (2 + boundary.length) := by
  have hopen : ¬ (([minus, minus] ++ (boundary ++ rest)).take 2 ≠ [minus, minus] ∨
      (([minus, minus] ++ (boundary ++ rest)).drop 2).take boundary.length ≠ boundary) := by
    rw [not_or, not_not, not_not]
    refine ⟨rfl, ?_⟩
    show (boundary ++ rest).take boundary.length = boundary
    rw [List.take_left]
  rw [multipartBlocks, if_neg hne, if_neg hopen]
  rfl

theorem multipartBlocks_eq_nil {body boundary : Bytes} (limits : MultipartLimits)
    (h : ¬ (boundary ≠ [] ∧ ∃ rest, body = [minus, minus] ++ (boundary ++ rest))) :
    multipartBlocks body boundary limits = [] := by
  unfold multipartBlocks
  split
  · rfl
  · next hne =>
    split
    · rfl
    · next hopen =>
      rw [not_or, not_not, not_not] at hopen
      refine absurd ⟨hne, (body.drop 2).drop boundary.length, ?_⟩ h
      have hbehind : boundary ++ (body.drop 2).drop boundary.length = body.drop 2 := by
        conv_lhs =>
          arg 1
          rw [← hopen.2]
        exact List.take_append_drop _ _
      rw [hbehind, ← hopen.1, List.take_append_drop]

theorem exists_swallowed_iff (body boundary : Bytes) (limits : MultipartLimits) :
    (∃ b ∈ multipartBlocks body boundary limits, delimiter boundary <:+: b.header body) ↔
      SwallowsDelimiter body boundary limits := by
  by_cases hopen : boundary ≠ [] ∧ ∃ rest, body = [minus, minus] ++ (boundary ++ rest)
  · obtain ⟨hne, rest, rfl⟩ := hopen
    have hrest : ([minus, minus] ++ (boundary ++ rest)).drop (2 + boundary.length) = rest := by
      rw [← List.drop_drop]
      exact List.drop_left
    rw [multipartBlocks_of_opening hne, Totals.exists_header_iff, hrest]
    constructor
    · exact fun hs => ⟨hne, rest, rfl, hs⟩
    · rintro ⟨-, rest', heq, hs⟩
      rwa [List.append_cancel_left (List.append_cancel_left heq)]
  · rw [multipartBlocks_eq_nil limits hopen]
    refine iff_of_false (fun ⟨b, hb, _⟩ => absurd hb List.not_mem_nil) ?_
    exact fun ⟨hne, rest, heq, _⟩ => hopen ⟨hne, rest, heq⟩

/-- **The parts are tidy just when none of them swallows a delimiter.** The order of the ranges and
the data are never at fault; a header is when its blank line comes too late. -/
theorem multipartBlocks_tidy_iff (body boundary : Bytes) (limits : MultipartLimits) :
    Tidy body boundary (multipartBlocks body boundary limits) ↔
      ¬ SwallowsDelimiter body boundary limits := by
  rw [← exists_swallowed_iff]
  constructor
  · rintro h ⟨b, hb, hin⟩
    exact h.header b hb hin
  · intro h
    have hordered : (∀ b ∈ multipartBlocks body boundary limits,
        b.headerStart ≤ b.headerEnd ∧ b.headerEnd ≤ b.dataStart ∧ b.dataStart ≤ b.dataEnd ∧
          b.dataEnd ≤ body.length ∧ ¬ delimiter boundary <:+: b.data body) ∧
        (multipartBlocks body boundary limits).Pairwise fun b b' => b.dataEnd ≤ b'.headerStart := by
      by_cases hopen : boundary ≠ [] ∧ ∃ rest, body = [minus, minus] ++ (boundary ++ rest)
      · obtain ⟨hne, rest, rfl⟩ := hopen
        rw [multipartBlocks_of_opening hne]
        have := Totals.blocks_ordered ([minus, minus] ++ (boundary ++ rest)) boundary limits
          Totals.zero (2 + boundary.length)
        exact ⟨fun b hb => (this.1 b hb).2, this.2⟩
      · rw [multipartBlocks_eq_nil limits hopen]
        exact ⟨fun b hb => absurd hb List.not_mem_nil, List.Pairwise.nil⟩
    exact {
      ranges := fun b hb => ⟨(hordered.1 b hb).1, (hordered.1 b hb).2.1, (hordered.1 b hb).2.2.1,
        (hordered.1 b hb).2.2.2.1⟩
      ordered := hordered.2
      header := fun b hb hin => h ⟨b, hb, hin⟩
      data := fun b hb => (hordered.1 b hb).2.2.2.2 }

/-- Two parts, the first without a blank line. -/
def swallowingBody : Bytes :=
  utf8 "--B\r\nX: 1\r\n--B\r\nContent-Disposition: form-data; name=\"a\"\r\n\r\nd\r\n--B--\r\n"

/-- The second part is taken for the header of the first. -/
theorem multipartBlocks_swallows : ¬ Tidy swallowingBody (utf8 "B")
    (multipartBlocks swallowingBody (utf8 "B") MultipartLimits.default) := by
  intro h
  have hpart : IsPart (utf8 "B") (swallowingBody.drop 3)
      (utf8 "X: 1\r\n--B\r\nContent-Disposition: form-data; name=\"a\"") (utf8 "d")
      (utf8 "--\r\n") := ⟨by decide +kernel, by decide +kernel, by decide +kernel⟩
  have hswallows : SwallowsDelimiter swallowingBody (utf8 "B") MultipartLimits.default := by
    refine ⟨by decide, _, by decide +kernel, Swallows.here hpart ⟨by decide, fun _ => by decide,
      by decide, by decide⟩ ?_⟩
    exact ⟨utf8 "X: 1", utf8 "\r\nContent-Disposition: form-data; name=\"a\"", by decide +kernel⟩
  obtain ⟨b, hb, hin⟩ := (exists_swallowed_iff _ _ _).mpr hswallows
  exact h.header b hb hin

end Castrum
