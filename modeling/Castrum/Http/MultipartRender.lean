import Castrum.Http.Multipart

/-!
# Castrum — multipart bodies, rendered and parsed

The standard rendering of a list of parts, and what the parser makes of it. Names and filenames
stand between quotes, so they come back whatever whitespace or separators they hold; a content type
is the rest of its line, without the whitespace around it.

* `parseHeader_headerText` — the header lines of a part say what the part says;
* `isPart_renderTail` — no search stops too early;
* `parseMultipartLimited_renderMultipart` — the list comes back.
-/

namespace Castrum

open Ascii

/-! ## Rendering -/

def dispositionValue (p : Part) : Bytes :=
  utf8 "form-data" ++ semicolon :: 32 :: (utf8 "name" ++ 61 :: quote :: (p.name ++ quote ::
    match p.filename with
    | none => []
    | some f => semicolon :: 32 :: (utf8 "filename" ++ 61 :: quote :: (f ++ [quote]))))

def dispositionLine (p : Part) : Bytes :=
  utf8 "Content-Disposition" ++ colon :: 32 :: dispositionValue p

/-- The header lines of a part, the last one without its line end. -/
def headerText (p : Part) : Bytes :=
  dispositionLine p ++
    match p.contentType with
    | none => []
    | some c => crlf ++ (utf8 "Content-Type" ++ colon :: 32 :: c)

def renderPart (boundary : Bytes) (p : Part) : Bytes :=
  [minus, minus] ++ (boundary ++ (crlf ++ (headerText p ++ (crlf ++ crlf ++ (p.data ++ crlf)))))

/-- The standard rendering: the parts, each behind a delimiter, and the closing delimiter. -/
def renderMultipart (boundary : Bytes) (parts : List Part) : Bytes :=
  parts.flatMap (renderPart boundary) ++ ([minus, minus] ++ (boundary ++ ([minus, minus] ++ crlf)))

/-- What is behind the first boundary. -/
def renderTail (boundary : Bytes) : List Part → Bytes
  | [] => [minus, minus] ++ crlf
  | p :: parts =>
    crlf ++ (headerText p ++ (crlf ++ crlf ++ (p.data ++ (delimiter boundary ++
      renderTail boundary parts))))

theorem renderMultipart_eq (boundary : Bytes) (parts : List Part) :
    renderMultipart boundary parts = [minus, minus] ++ (boundary ++ renderTail boundary parts) := by
  induction parts with
  | nil => rfl
  | cons p parts ih =>
    have hcons : renderMultipart boundary (p :: parts) =
        renderPart boundary p ++ renderMultipart boundary parts := by
      rw [renderMultipart, List.flatMap_cons, List.append_assoc]
      rfl
    rw [hcons, ih, renderPart, renderTail, delimiter, show marker = crlf ++ [minus, minus] from rfl]
    simp only [List.append_assoc]

/-! ## Content-Disposition -/

section

variable {rest attr p : Bytes} {inQuotes : Bool} {found : Disposition}

theorem dispositionFrom_cons {b : UInt8} (hb : b ≠ backslash) :
    dispositionFrom (b :: rest) attr inQuotes found =
      if b = quote then dispositionFrom rest (attr ++ [b]) (!inQuotes) found
      else if b = semicolon ∧ inQuotes = false then
        dispositionFrom rest [] inQuotes (parseDispositionAttr attr found)
      else dispositionFrom rest (attr ++ [b]) inQuotes found := by
  conv_lhs => unfold dispositionFrom
  split
  · next heq => cases heq
  · next heq => exact absurd (List.cons.inj heq).1 hb
  · next heq =>
    obtain ⟨rfl, rfl⟩ := List.cons.inj heq
    rfl

/-- Bytes that are neither quotes nor separators belong to the attribute. -/
theorem dispositionFrom_append
    (hp : ∀ b ∈ p, b ≠ backslash ∧ b ≠ quote ∧ (inQuotes = false → b ≠ semicolon)) :
    dispositionFrom (p ++ rest) attr inQuotes found =
      dispositionFrom rest (attr ++ p) inQuotes found := by
  induction p generalizing attr with
  | nil => rw [List.nil_append, List.append_nil]
  | cons b p ih =>
    obtain ⟨⟨hback, hquote, hsemi⟩, hp⟩ := List.forall_mem_cons.mp hp
    rw [List.cons_append, dispositionFrom_cons hback, if_neg hquote, if_neg fun h => hsemi h.2 h.1,
      ih hp, List.append_assoc, List.singleton_append]

theorem dispositionFrom_quote :
    dispositionFrom (quote :: rest) attr inQuotes found =
      dispositionFrom rest (attr ++ [quote]) (!inQuotes) found := by
  rw [dispositionFrom_cons (by decide), if_pos rfl]

theorem dispositionFrom_semicolon :
    dispositionFrom (semicolon :: rest) attr false found =
      dispositionFrom rest [] false (parseDispositionAttr attr found) := by
  rw [dispositionFrom_cons (by decide), if_neg (by decide), if_pos ⟨rfl, rfl⟩]

/-- A byte that may stand between quotes. -/
def IsQuotable (b : UInt8) : Prop := b ≠ quote ∧ b ≠ backslash ∧ b ≠ 13 ∧ b ≠ 10

instance (b : UInt8) : Decidable (IsQuotable b) := inferInstanceAs (Decidable (_ ∧ _))

/-- A quoted value is read as one run, whatever separators it holds. -/
theorem dispositionFrom_quoted {key value : Bytes}
    (hkey : ∀ b ∈ key, b ≠ backslash ∧ b ≠ quote ∧ b ≠ semicolon)
    (hvalue : ∀ b ∈ value, IsQuotable b) :
    dispositionFrom (32 :: (key ++ 61 :: quote :: (value ++ quote :: rest))) [] false found =
      dispositionFrom rest (32 :: (key ++ 61 :: quote :: (value ++ [quote]))) false found := by
  have hfront : ∀ b ∈ 32 :: (key ++ [61]), b ≠ backslash ∧ b ≠ quote ∧ (false = false → b ≠ semicolon) :=
    List.forall_mem_cons.mpr ⟨by decide, List.forall_mem_append.mpr
      ⟨fun b hb => ⟨(hkey b hb).1, (hkey b hb).2.1, fun _ => (hkey b hb).2.2⟩, by decide⟩⟩
  have hinside : ∀ b ∈ value, b ≠ backslash ∧ b ≠ quote ∧ (true = false → b ≠ semicolon) :=
    fun b hb => ⟨(hvalue b hb).2.1, (hvalue b hb).1, fun h => absurd h (by decide)⟩
  have hsplit : 32 :: (key ++ 61 :: quote :: (value ++ quote :: rest)) =
      (32 :: (key ++ [61])) ++ quote :: (value ++ quote :: rest) := by
    rw [List.cons_append, List.append_assoc, List.singleton_append]
  rw [hsplit, dispositionFrom_append hfront, dispositionFrom_quote]
  show dispositionFrom (value ++ quote :: rest) _ true found = _
  rw [dispositionFrom_append hinside, dispositionFrom_quote]
  simp only [List.nil_append, List.append_assoc, List.cons_append, Bool.not_true]

theorem unquote_quoted (value : Bytes) : unquote (quote :: (value ++ [quote])) = value := by
  rw [unquote, if_pos]
  · rw [List.drop_succ_cons, List.drop_zero, List.dropLast_concat]
  · refine ⟨by simp, rfl, ?_⟩
    rw [← List.cons_append, List.getLast?_concat]

/-- An attribute with a quoted value. -/
theorem parseDispositionAttr_quoted {key : Bytes} (hkey : (61 : UInt8) ∉ key)
    (hhead : ∃ b r, key = b :: r ∧ isAsciiWhitespace b = false)
    (hlast : ∀ b ∈ key.getLast?, isAsciiWhitespace b = false) (value : Bytes) :
    parseDispositionAttr (32 :: (key ++ 61 :: quote :: (value ++ [quote]))) found =
      if eqIgnoreAsciiCase key (utf8 "name") then { found with name := some value }
      else if eqIgnoreAsciiCase key (utf8 "filename") then { found with filename := some value }
      else found := by
  -- Neither the attribute nor its value has space at an end, so trimming keeps both.
  obtain ⟨b, r, rfl, hb⟩ := hhead
  have hedge : ∀ x ∈ (some b), isAsciiWhitespace x = false := by
    intro x hx
    rwa [← Option.some.inj hx]
  have hquote : ∀ x ∈ (some quote), isAsciiWhitespace x = false := by
    intro x hx
    rw [← Option.some.inj hx]
    decide
  have hvalueLast : (quote :: (value ++ [quote])).getLast? = some quote := by
    rw [← List.cons_append, List.getLast?_concat]
  have hattrLast : ((b :: r) ++ 61 :: quote :: (value ++ [quote])).getLast? = some quote := by
    rw [List.getLast?_append, List.getLast?_cons_cons, hvalueLast]
    rfl
  have hattr : trimAsciiWhitespace ((b :: r) ++ 61 :: quote :: (value ++ [quote])) =
      (b :: r) ++ 61 :: quote :: (value ++ [quote]) :=
    trimAsciiWhitespace_eq_self hedge (by rwa [hattrLast])
  have hkeyTrim : trimAsciiWhitespace (b :: r) = b :: r := trimAsciiWhitespace_eq_self hedge hlast
  have hvalue : trimAsciiWhitespace (quote :: (value ++ [quote])) = quote :: (value ++ [quote]) :=
    trimAsciiWhitespace_eq_self hquote (by rwa [hvalueLast])
  unfold parseDispositionAttr
  dsimp only
  rw [trimAsciiWhitespace_cons (by decide), hattr, if_neg (by simp), cutAt_append hkey]
  dsimp only
  rw [hkeyTrim, hvalue, unquote_quoted]

/-- The parameters of a disposition are what was put between the quotes. -/
theorem parseDisposition_dispositionValue {p : Part} (hname : ∀ b ∈ p.name, IsQuotable b)
    (hfilename : ∀ f ∈ p.filename, ∀ b ∈ f, IsQuotable b) :
    parseDisposition (dispositionValue p) = { name := some p.name, filename := p.filename } := by
  have hform : parseDispositionAttr (utf8 "form-data") { name := none, filename := none } =
      { name := none, filename := none } := by decide
  have hnameAttr : ∀ found : Disposition,
      parseDispositionAttr (32 :: (utf8 "name" ++ 61 :: quote :: (p.name ++ [quote]))) found =
        { found with name := some p.name } := by
    intro found
    rw [parseDispositionAttr_quoted (by decide) ⟨110, utf8 "ame", by decide, by decide⟩ (by decide),
      if_pos (by decide)]
  rw [parseDisposition, dispositionValue, dispositionFrom_append (by decide),
    dispositionFrom_semicolon,
    List.nil_append, hform, dispositionFrom_quoted (by decide) hname]
  cases hf : p.filename with
  | none =>
    show parseDispositionAttr _ _ = _
    rw [hnameAttr]
  | some f =>
    dsimp only
    rw [dispositionFrom_semicolon, hnameAttr, dispositionFrom_quoted (by decide) (hfilename f hf)]
    show parseDispositionAttr _ _ = _
    rw [parseDispositionAttr_quoted (by decide) ⟨102, utf8 "ilename", by decide, by decide⟩
      (by decide), if_neg (by decide), if_pos (by decide)]

end

/-! ## Header lines -/

/-- A carriage return at the end of a line goes, with the whitespace around the value. -/
theorem dropCr_field (field value : Bytes) :
    ∃ value', (if (field ++ colon :: value).getLast? = some 13 then
        (field ++ colon :: value).dropLast else field ++ colon :: value) = field ++ colon :: value' ∧
      trimAsciiWhitespace value' = trimAsciiWhitespace value := by
  split
  · next hlast =>
    rw [List.getLast?_append, List.getLast?_cons] at hlast
    obtain ⟨v, rfl⟩ : ∃ v, value = v ++ [13] := by
      cases hv : value.getLast? with
      | none =>
        rw [hv] at hlast
        exact absurd (show some colon = some 13 from hlast) (by decide)
      | some b =>
        rw [hv] at hlast
        obtain rfl : b = 13 := by simpa using hlast
        exact List.getLast?_eq_some_iff.mp hv
    refine ⟨v, ?_, (trimAsciiWhitespace_concat (by decide) v).symm⟩
    rw [← List.cons_append, ← List.append_assoc, List.dropLast_concat]
  · exact ⟨value, rfl, rfl⟩

/-- A header line, cut at its first colon. -/
theorem headerLine_field {field : Bytes} (hfield : colon ∉ field) (header : PartHeader)
    (value : Bytes) :
    headerLine header (field ++ colon :: value) =
      if eqIgnoreAsciiCase (trimAsciiWhitespace field) (utf8 "content-disposition") then
        { header with name := (parseDisposition (trimAsciiWhitespace value)).name,
                      filename := (parseDisposition (trimAsciiWhitespace value)).filename }
      else if eqIgnoreAsciiCase (trimAsciiWhitespace field) (utf8 "content-type") then
        { header with contentType := some (trimAsciiWhitespace value) }
      else header := by
  obtain ⟨value', hline, htrim⟩ := dropCr_field field value
  unfold headerLine
  dsimp only
  rw [hline, cutAt_append hfield]
  dsimp only
  rw [htrim]

/-- A part as the parser returns it: the content type without the whitespace around it. -/
def Part.trimmed (p : Part) : Part :=
  { p with contentType := p.contentType.map trimAsciiWhitespace }

/-- What a part may hold: no delimiter in its data, no quote, backslash or line end in its names, and
no line feed in its content type. -/
structure Part.Renders (boundary : Bytes) (p : Part) : Prop where
  data : ¬ delimiter boundary <:+: p.data
  name : ∀ b ∈ p.name, IsQuotable b
  filename : ∀ f ∈ p.filename, ∀ b ∈ f, IsQuotable b
  contentType : ∀ c ∈ p.contentType, (10 : UInt8) ∉ c

section

variable {boundary : Bytes} {p : Part}

theorem trim_dispositionValue (p : Part) :
    trimAsciiWhitespace (dispositionValue p) = dispositionValue p := by
  have hform : utf8 "form-data" = 102 :: utf8 "orm-data" := by decide
  have hlast : (dispositionValue p).getLast? = some quote := by
    obtain ⟨v, hv⟩ : ∃ v, dispositionValue p = v ++ [quote] := by
      unfold dispositionValue
      cases p.filename with
      | none =>
        exact ⟨utf8 "form-data" ++ semicolon :: 32 :: (utf8 "name" ++ 61 :: quote :: p.name),
          by simp⟩
      | some f =>
        exact ⟨utf8 "form-data" ++ semicolon :: 32 :: (utf8 "name" ++ 61 :: quote :: (p.name ++
          quote :: semicolon :: 32 :: (utf8 "filename" ++ 61 :: quote :: f))), by simp⟩
    rw [hv, List.getLast?_concat]
  apply trimAsciiWhitespace_eq_self
  · intro b hb
    rw [dispositionValue, hform] at hb
    rw [← Option.some.inj hb]
    decide
  · intro b hb
    rw [hlast] at hb
    rw [← Option.some.inj hb]
    decide

theorem lf_not_mem_dispositionLine (h : p.Renders boundary) : (10 : UInt8) ∉ dispositionLine p := by
  have hname : (10 : UInt8) ∉ p.name := fun hb => (h.name 10 hb).2.2.2 rfl
  have hform : (10 : UInt8) ∉ utf8 "form-data" := by decide
  have hparam : (10 : UInt8) ∉ utf8 "name" := by decide
  have hfield : (10 : UInt8) ∉ utf8 "Content-Disposition" := by decide
  unfold dispositionLine dispositionValue
  cases hf : p.filename with
  | none =>
    simp only [List.mem_append, List.mem_cons, hname, hform, hparam, hfield, List.not_mem_nil,
      or_false, false_or]
    decide
  | some f =>
    have hfile : (10 : UInt8) ∉ f := fun hb => (h.filename f hf 10 hb).2.2.2 rfl
    have hfileParam : (10 : UInt8) ∉ utf8 "filename" := by decide
    simp only [List.mem_append, List.mem_cons, hname, hform, hparam, hfield, hfile, hfileParam,
      List.not_mem_nil, or_false, false_or]
    decide

theorem lf_not_mem_typeLine {c : Bytes} (hc : (10 : UInt8) ∉ c) :
    (10 : UInt8) ∉ utf8 "Content-Type" ++ colon :: 32 :: c := by
  have hfield : (10 : UInt8) ∉ utf8 "Content-Type" := by decide
  simp only [List.mem_append, List.mem_cons, hc, hfield, or_false, false_or]
  decide

/-- The line of the disposition, with or without its carriage return. -/
theorem headerLine_dispositionLine (h : p.Renders boundary) {cr : Bytes}
    (hcr : cr = [] ∨ cr = [13]) :
    headerLine { name := none, filename := none, contentType := none } (dispositionLine p ++ cr) =
      { name := some p.name, filename := p.filename, contentType := none } := by
  have hline : dispositionLine p ++ cr =
      utf8 "Content-Disposition" ++ colon :: 32 :: (dispositionValue p ++ cr) := by
    rw [dispositionLine, List.append_assoc, List.cons_append, List.cons_append]
  have htrim : trimAsciiWhitespace (dispositionValue p ++ cr) = dispositionValue p := by
    obtain rfl | rfl := hcr
    · rw [List.append_nil, trim_dispositionValue]
    · rw [trimAsciiWhitespace_concat (by decide), trim_dispositionValue]
  rw [hline, headerLine_field (by decide), if_pos (by decide), trimAsciiWhitespace_cons (by decide),
    htrim, parseDisposition_dispositionValue h.name h.filename]

/-- **The header lines of a part say what the part says.** -/
theorem parseHeader_headerText (h : p.Renders boundary) :
    parseHeader (headerText p) =
      { name := some p.name, filename := p.filename, contentType := p.trimmed.contentType } := by
  have hdisposition := lf_not_mem_dispositionLine h
  unfold parseHeader headerText Part.trimmed
  -- The header block has one line, or a second one with the content type.
  cases hc : p.contentType with
  | none =>
    have hsplit : (dispositionLine p ++ []).splitOn 10 = [dispositionLine p ++ []] := by
      have : ([10].intercalate [dispositionLine p]).splitOn 10 = [dispositionLine p] :=
        List.splitOn_intercalate 10 (by simpa using hdisposition) (by simp)
      rwa [List.intercalate_singleton, ← List.append_nil (dispositionLine p)] at this
    dsimp only
    rw [hsplit, List.foldl_cons, List.foldl_nil, headerLine_dispositionLine h (.inl rfl)]
    rfl
  | some c =>
    have htype := lf_not_mem_typeLine (h.contentType c hc)
    have hsplit : (dispositionLine p ++ (crlf ++ (utf8 "Content-Type" ++ colon :: 32 :: c))).splitOn 10 =
        [dispositionLine p ++ [13], utf8 "Content-Type" ++ colon :: 32 :: c] := by
      have : ([10].intercalate
          [dispositionLine p ++ [13], utf8 "Content-Type" ++ colon :: 32 :: c]).splitOn 10 =
          [dispositionLine p ++ [13], utf8 "Content-Type" ++ colon :: 32 :: c] :=
        List.splitOn_intercalate 10 (by simpa using ⟨hdisposition, by simpa using htype⟩) (by simp)
      rw [List.intercalate_cons_cons, List.intercalate_singleton, List.append_assoc,
        List.append_assoc] at this
      exact this
    dsimp only
    rw [hsplit, List.foldl_cons, List.foldl_cons, List.foldl_nil,
      headerLine_dispositionLine h (.inr rfl), headerLine_field (by decide), if_neg (by decide),
      if_pos (by decide), trimAsciiWhitespace_cons (by decide)]
    rfl

end

/-! ## The searches -/

/-- No blank line starts in a line. -/
theorem memmem_blank_append {line rest : Bytes} (hline : (10 : UInt8) ∉ line)
    (hrest : rest.head? ≠ some 10) :
    memmem (crlf ++ crlf) (line ++ rest) =
      (memmem (crlf ++ crlf) rest).map (line.length + ·) := by
  have hskip : ∀ j < line.length, ¬ crlf ++ crlf <+: (line ++ rest).drop j := by
    intro j hj hat
    obtain ⟨t, ht⟩ := hat
    -- the byte behind the first one is a line feed
    have hlf : (line ++ rest)[j + 1]? = some 10 := by
      rw [← List.getElem?_drop, ← ht]
      rfl
    by_cases hin : j + 1 < line.length
    · rw [List.getElem?_append_left hin] at hlf
      exact hline (List.mem_of_getElem? hlf)
    · rw [List.getElem?_append_right (by omega), show j + 1 - line.length = 0 by omega,
        ← List.head?_eq_getElem?] at hlf
      exact hrest hlf
  rw [memmem_drop hskip (by rw [List.length_append]; omega), List.drop_left]

/-- One line end in front of a character is no blank line. -/
theorem lineEnd_not_blank {b : UInt8} (hb : b ≠ 13) (t : Bytes) :
    ∀ j < 2, ¬ crlf ++ crlf <+: (crlf ++ b :: t).drop j := by
  rintro j hj ⟨behind, h⟩
  obtain rfl | rfl : j = 0 ∨ j = 1 := by omega
  · have hthird := congrArg (fun l => l[2]?) h
    exact hb (Option.some.inj hthird).symm
  · have hfirst := congrArg (fun l => l[0]?) h
    exact absurd (show some (13 : UInt8) = some 10 from hfirst) (by decide)

theorem memmem_blank_headerText {boundary : Bytes} {p : Part} (h : p.Renders boundary)
    (rest : Bytes) :
    memmem (crlf ++ crlf) (headerText p ++ (crlf ++ crlf ++ rest)) = some (headerText p).length := by
  have hblank : ∀ t : Bytes, memmem (crlf ++ crlf) (crlf ++ crlf ++ t) = some 0 :=
    fun t => memmem_eq_zero (List.prefix_append _ _)
  have hdisposition := lf_not_mem_dispositionLine h
  have hcr : ∀ t : Bytes, (crlf ++ t).head? ≠ some 10 := fun t => by
    show some (13 : UInt8) ≠ some 10
    decide
  unfold headerText
  -- No line break stands inside the lines, and the one between them is followed by a letter.
  cases hc : p.contentType with
  | none =>
    dsimp only
    rw [List.append_nil, memmem_blank_append hdisposition (by rw [List.append_assoc]; exact hcr _),
      hblank]
    rfl
  | some c =>
    have htype := lf_not_mem_typeLine (h.contentType c hc)
    have hfield : utf8 "Content-Type" = 67 :: 111 :: utf8 "ntent-Type" := by decide
    dsimp only
    rw [List.append_assoc, List.append_assoc, memmem_blank_append hdisposition (hcr _)]
    have hskip : ∀ j < 2, ¬ crlf ++ crlf <+: (crlf ++ ((utf8 "Content-Type" ++ colon :: 32 :: c) ++
        (crlf ++ crlf ++ rest))).drop j := by
      rw [hfield]
      exact lineEnd_not_blank (by decide) _
    rw [memmem_drop hskip (by rw [List.length_append]; exact Nat.le_add_right _ _)]
    show ((memmem (crlf ++ crlf) ((utf8 "Content-Type" ++ colon :: 32 :: c) ++
      (crlf ++ crlf ++ rest))).map (2 + ·)).map _ = _
    rw [memmem_blank_append htype (by rw [List.append_assoc]; exact hcr _), hblank]
    simp only [Option.map_some, List.length_append, Nat.add_zero]
    rfl

/-- **A rendered part is taken as it was rendered.** -/
theorem isPart_renderTail {boundary : Bytes} (hboundary : (13 : UInt8) ∉ boundary) {p : Part}
    (h : p.Renders boundary) (parts : List Part) :
    IsPart boundary (renderTail boundary (p :: parts)) (headerText p) p.data
      (renderTail boundary parts) where
  text_eq := rfl
  header_end := memmem_blank_headerText h _
  data_end := by
    have hcr : (13 : UInt8) ∉ [10, 45, 45] ++ boundary :=
      fun hb => (List.mem_append.mp hb).elim (by decide) hboundary
    exact memmem_append hcr h.data _

/-! ## The round trip -/

/-- The limits have room for the parts, behind those that are counted already. -/
structure Totals.Fit (t : Totals) (limits : MultipartLimits) (parts : List Part) : Prop where
  count : t.count + parts.length ≤ limits.maxParts
  fields : t.fieldCount + (parts.filter fun p => p.filename.isNone).length ≤ limits.maxFieldCount
  each : ∀ p ∈ parts, p.data.length ≤ limits.maxPartBytes
  total : t.totalData + (parts.map fun p => p.data.length).sum ≤ limits.maxTotalBytes

section

variable {body boundary : Bytes} {limits : MultipartLimits} {p : Part} {parts : List Part}
  {t : Totals}

/-- One part more: it is admitted, and the others fit behind it. -/
theorem Totals.fit_cons_iff {header : Bytes} (hp : (parseHeader header).filename = p.filename) :
    t.Fit limits (p :: parts) ↔
      t.Admits limits header p.data ∧ (t.add header p.data).Fit limits parts := by
  have hcount : (t.add header p.data).count = t.count + 1 := rfl
  have hdata : (t.add header p.data).totalData = t.totalData + p.data.length := rfl
  -- A field counts against the fields only where it has no file name.
  have hfields : (t.add header p.data).fieldCount +
      (parts.filter fun p => p.filename.isNone).length =
        t.fieldCount + ((p :: parts).filter fun p => p.filename.isNone).length := by
    rw [Totals.add, hp]
    dsimp only
    split
    · next hnone =>
      rw [List.filter_cons_of_pos (by rw [hnone]; rfl), List.length_cons]
      omega
    · next hsome => rw [List.filter_cons_of_neg (by rwa [Option.isNone_iff_eq_none])]
  constructor
  · rintro ⟨hall, hplain, heach, htotal⟩
    rw [List.length_cons] at hall
    rw [List.map_cons, List.sum_cons] at htotal
    refine ⟨⟨by omega, fun hnone => ?_, heach p List.mem_cons_self, by omega⟩, by omega, by omega,
      fun q hq => heach q (List.mem_cons_of_mem _ hq), by omega⟩
    rw [hp] at hnone
    rw [List.filter_cons_of_pos (by rw [hnone]; rfl), List.length_cons] at hplain
    omega
  · rintro ⟨hadmits, hall, hplain, heach, htotal⟩
    refine ⟨?_, by omega, List.forall_mem_cons.mpr ⟨hadmits.part, heach⟩, ?_⟩
    · rw [List.length_cons]
      omega
    · rw [List.map_cons, List.sum_cons]
      omega

/-- **The parts behind a boundary come back.** Induction on them. -/
theorem Totals.blocks_renderTail (hboundary : (13 : UInt8) ∉ boundary)
    (hparts : ∀ p ∈ parts, p.Renders boundary) (hfit : t.Fit limits parts) {pos : Nat}
    (h : body.drop pos = renderTail boundary parts) :
    (t.blocks body boundary limits pos).map (·.part body) = parts.map Part.trimmed := by
  induction parts generalizing t pos with
  | nil =>
    have hnone : blockAt body boundary pos = none := by
      rw [blockAt, h]
      exact if_pos rfl
    rw [Totals.blocks_of_none hnone]
    rfl
  | cons p parts ih =>
    obtain ⟨hp, hrest⟩ := List.forall_mem_cons.mp hparts
    have hpart : IsPart boundary (body.drop pos) (headerText p) p.data
        (renderTail boundary parts) := h ▸ isPart_renderTail hboundary hp parts
    have hblock : (blockOf pos (headerText p) p.data).part body = p.trimmed := by
      rw [Block.part, hpart.header_eq, hpart.data_eq, parseHeader_headerText hp]
      rfl
    have hnext : body.drop ((blockOf pos (headerText p) p.data).dataEnd + 2 + 2 + boundary.length) =
        renderTail boundary parts := hpart.drops.2.2.2
    have hfilename : (parseHeader (headerText p)).filename = p.filename := by
      rw [parseHeader_headerText hp]
    obtain ⟨hadmits, hfit⟩ := (Totals.fit_cons_iff hfilename).mp hfit
    rw [Totals.blocks_of_admits hpart hadmits, List.map_cons, List.map_cons, hblock,
      ih hrest hfit hnext]

end

/-- **A rendered list of parts comes back**, every byte of data in its place. -/
theorem map_part_renderMultipart {boundary : Bytes} (hne : boundary ≠ [])
    (hboundary : (13 : UInt8) ∉ boundary) {parts : List Part}
    (hparts : ∀ p ∈ parts, p.Renders boundary) {limits : MultipartLimits}
    (hfit : Totals.zero.Fit limits parts) :
    (multipartBlocks (renderMultipart boundary parts) boundary limits).map
      (·.part (renderMultipart boundary parts)) = parts.map Part.trimmed := by
  rw [renderMultipart_eq, multipartBlocks_of_opening hne]
  apply Totals.blocks_renderTail hboundary hparts hfit
  rw [← List.drop_drop]
  exact List.drop_left

/-- **Parsing undoes rendering**: the names, filenames and data come back as they were, and so does
each content type but for the whitespace around it. -/
theorem parseMultipartLimited_renderMultipart {boundary : Bytes} (hne : boundary ≠ [])
    (hboundary : ∀ b ∈ boundary, b ≠ 13 ∧ b ≠ 10) {parts : List Part}
    (hparts : ∀ p ∈ parts, p.Renders boundary) {limits : MultipartLimits}
    (hfit : Totals.zero.Fit limits parts) :
    parseMultipartLimited (renderMultipart boundary parts) boundary limits =
      parts.map Part.trimmed :=
  map_part_renderMultipart hne (fun hcr => (hboundary 13 hcr).1 rfl) hparts hfit

/-- A field and a file, whose data look like a delimiter or a blank line. -/
def sampleParts : List Part := [
  { name := utf8 "a;b", filename := none, contentType := none, data := utf8 "\r\n--\r\n\r\n" },
  { name := utf8 "up", filename := some (utf8 "x y.txt"), contentType := some (utf8 "text/plain"),
    data := utf8 "--B" }]

theorem sampleParts_renders : ∀ p ∈ sampleParts, p.Renders (utf8 "B") := by
  have habsent : ∀ s : Bytes, memmem (delimiter (utf8 "B")) s = none → ¬ delimiter (utf8 "B") <:+: s :=
    fun s hs => memmem_eq_none_iff.mp hs
  refine List.forall_mem_cons.mpr ⟨⟨habsent _ (by decide), ?_, ?_, ?_⟩,
    List.forall_mem_cons.mpr ⟨⟨habsent _ (by decide), ?_, ?_, ?_⟩, List.forall_mem_nil _⟩⟩
  all_goals decide

theorem parseMultipartLimited_renderMultipart_sample :
    parseMultipartLimited (renderMultipart (utf8 "B") sampleParts) (utf8 "B")
      MultipartLimits.default = sampleParts.map Part.trimmed :=
  parseMultipartLimited_renderMultipart (by decide) (by decide) sampleParts_renders
    ⟨by decide, by decide, by decide, by decide⟩

/-- A part whose content type is a space. -/
def spacePart : Part :=
  { name := utf8 "a", filename := none, contentType := some (utf8 " "), data := [] }

/-- **Whitespace around a content type is lost.** -/
theorem parseMultipartLimited_trims_contentType :
    parseMultipartLimited (renderMultipart (utf8 "B") [spacePart]) (utf8 "B")
      MultipartLimits.default ≠ [spacePart] := by
  have hrenders : ∀ p ∈ [spacePart], p.Renders (utf8 "B") := by
    refine List.forall_mem_cons.mpr ⟨⟨memmem_eq_none_iff.mp (by decide), ?_, ?_, ?_⟩,
      List.forall_mem_nil _⟩
    all_goals decide
  rw [parseMultipartLimited, map_part_renderMultipart (by decide) (by decide) hrenders
    ⟨by decide, by decide, by decide, by decide⟩]
  decide

end Castrum
