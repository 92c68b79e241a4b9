import Castrum.Lib.Split
import Castrum.Http.TokenCase
import Castrum.Util.Str

/-!
# Castrum — media types (`rust/http/media_type.rs`)

A `Content-Type` is a type, a subtype and parameters, whose values are tokens or quoted strings. The
parameters are taken apart at every semicolon, and only then is a quoted string read: one that holds
a semicolon ends where its part does, before its closing quote.

* `parseQuotedFrom_content` / `parseQuotedFrom_prefix` — a quoted string, and one that is cut short;
* `parseParam_part` / `parseParam_cut` — a parameter as it is written, and one that is cut short;
* `parseMediaTypeCore_render_iff` — the media types that are read as they are written.
-/

namespace Castrum

/-! ## The source functions -/

structure ParsedMediaType where
  ty : Str
  subtype : Str
  params : List (Str × Str)
  deriving DecidableEq

/-- A quoted string behind its opening quote. -/
def parseQuotedFrom (out : Bytes) : Bytes → Except String Str
  | [] => .error "unterminated quoted string"
  | b :: rest =>
    if b = 34 then
      match fromUtf8 out with
      | some s => .ok s
      | none => .error "invalid UTF-8 in quoted string"
    else
      match rest with
      -- a backslash at the end stands for itself
      | [] => parseQuotedFrom (out ++ [b]) []
      | c :: tail =>
        if b = 92 then parseQuotedFrom (out ++ [c]) tail else parseQuotedFrom (out ++ [b]) (c :: tail)

/-- The first byte is the opening quote. -/
def parseQuoted (raw : Bytes) : Except String Str := parseQuotedFrom [] (raw.drop 1)

/-- A value, quoted or not. -/
def parseParamValue (behind : Bytes) : Except String Str :=
  let rawVal := trimAsciiWhitespace behind
  if rawVal.head? = some 34 then parseQuoted rawVal
  else
    let v := trimAsciiWhitespace rawVal
    if v = [] then .error "empty media-type param value" else .ok (fromUtf8Lossy v)

/-- What the loop makes of one part: nothing, or a parameter. -/
def parseParam (part : Bytes) : Except String (Option (Str × Str)) :=
  let param := trimAsciiWhitespace part
  if param = [] then .ok none
  else
    match cutAt 61 param with
    | none => .error "media-type param missing '='"
    | some (name, behind) =>
      let name := (strTrim (fromUtf8Lossy name)).map Char.toLower
      if name = [] then .ok none else (parseParamValue behind).map fun value => some (name, value)

def parseParams : List Bytes → List (Str × Str) → Except String (List (Str × Str))
  | [], params => .ok params
  | part :: parts, params => do
    match ← parseParam part with
    | none => parseParams parts params
    | some param => parseParams parts (params ++ [param])

def parseMediaTypeCore (input : Bytes) : Except String ParsedMediaType :=
  let (main, rest) := (cutAt 59 input).getD (input, [])
  match cutAt 47 (trimAsciiWhitespace main) with
  | none => .error "missing '/' in media type"
  | some (ty, subtype) =>
    match fromUtf8 (ty.map asciiLower), fromUtf8 (subtype.map asciiLower) with
    | some ty, some subtype =>
      if ty = [] ∨ subtype = [] then .error "empty type or subtype"
      else if ¬ ((strBytes ty).all isTokenChar ∧ (strBytes subtype).all isTokenChar) then
        .error "invalid type/subtype token"
      else do
        let params ← parseParams (rest.splitOn 59) []
        .ok { ty, subtype, params }
    | _, _ => .error "invalid UTF-8 in media type"

/-! ## Media types as they are written -/

structure Token where
  bytes : Bytes
  nonempty : bytes ≠ []
  chars : ∀ b ∈ bytes, isTokenChar b = true

/-- What a token is compared by. -/
def Token.lower (t : Token) : Str := asciiStr (t.bytes.map asciiLower)

/-- A byte between quotes, with or without a backslash in front. -/
structure QuotedByte where
  byte : UInt8
  escaped : Bool
  /-- A tab, a space, a visible character, or part of a character that is not ASCII. -/
  quotable : byte = 9 ∨ 32 ≤ byte ∧ byte ≠ 127
  /-- A quote or a backslash has a backslash in front. -/
  escapes : byte = 34 ∨ byte = 92 → escaped = true

def QuotedByte.render (c : QuotedByte) : Bytes := if c.escaped then [92, c.byte] else [c.byte]

structure QuotedString where
  content : List QuotedByte
  text : Str
  spells : content.map QuotedByte.byte = strBytes text

def QuotedString.render (q : QuotedString) : Bytes :=
  34 :: q.content.flatMap QuotedByte.render ++ [34]

inductive ParamValue where
  | token (t : Token)
  | quoted (q : QuotedString)

namespace ParamValue

def render : ParamValue → Bytes
  | token t => t.bytes
  | quoted q => q.render

/-- The value without its quotes. -/
def text : ParamValue → Str
  | token t => asciiStr t.bytes
  | quoted q => q.text

/-- No quoted string with a semicolon, be it behind a backslash or not. -/
def NoSemicolon : ParamValue → Prop
  | token _ => True
  | quoted q => ∀ c ∈ q.content, c.byte ≠ 59

end ParamValue

structure MediaParam where
  name : Token
  value : ParamValue

namespace MediaParam

def render (p : MediaParam) : Bytes := p.name.bytes ++ 61 :: p.value.render

/-- What stands between two semicolons. -/
def part (p : MediaParam) : Bytes := 32 :: p.render

def parsed (p : MediaParam) : Str × Str := (p.name.lower, p.value.text)

end MediaParam

structure MediaType where
  ty : Token
  subtype : Token
  params : List MediaParam

namespace MediaType

/-- `type/subtype; name=value; …`. -/
def render (m : MediaType) : Bytes :=
  m.ty.bytes ++ 47 :: m.subtype.bytes ++ m.params.flatMap fun p => 59 :: p.part

def parsed (m : MediaType) : ParsedMediaType :=
  ⟨m.ty.lower, m.subtype.lower, m.params.map MediaParam.parsed⟩

end MediaType

/-! ## Quoted strings -/

section

variable {out rest : Bytes} {content : List QuotedByte}

theorem parseQuotedFrom_byte {b : UInt8} (hquote : b ≠ 34) (hback : b ≠ 92) :
    parseQuotedFrom out (b :: rest) = parseQuotedFrom (out ++ [b]) rest := by
  conv_lhs => unfold parseQuotedFrom
  rw [if_neg hquote]
  cases rest with
  | nil => rfl
  | cons c tail => exact if_neg hback

theorem parseQuotedFrom_escaped (c : UInt8) :
    parseQuotedFrom out (92 :: c :: rest) = parseQuotedFrom (out ++ [c]) rest := by
  conv_lhs => unfold parseQuotedFrom
  rfl

theorem parseQuotedFrom_quote {text : Str} (hout : out = strBytes text) :
    parseQuotedFrom out (34 :: rest) = .ok text := by
  unfold parseQuotedFrom
  rw [if_pos rfl, hout, fromUtf8_strBytes]

theorem QuotedByte.render_of_not_escaped {c : QuotedByte} (h : c.escaped = false) :
    c.render = [c.byte] ∧ c.byte ≠ 34 ∧ c.byte ≠ 92 := by
  have hescapes : ¬ (c.byte = 34 ∨ c.byte = 92) := fun hc => by
    rw [c.escapes hc] at h
    cases h
  exact ⟨by rw [render, h]; rfl, fun h34 => hescapes (.inl h34), fun h92 => hescapes (.inr h92)⟩

theorem QuotedByte.render_of_escaped {c : QuotedByte} (h : c.escaped = true) :
    c.render = [92, c.byte] := by
  rw [render, h]
  rfl

/-- **A quoted string is read to its closing quote**, and the backslashes go. -/
theorem parseQuotedFrom_content {text : Str}
    (htext : out ++ content.map QuotedByte.byte = strBytes text) :
    parseQuotedFrom out (content.flatMap QuotedByte.render ++ 34 :: rest) = .ok text := by
  induction content generalizing out with
  | nil =>
    rw [List.map_nil, List.append_nil] at htext
    exact parseQuotedFrom_quote htext
  | cons c content ih =>
    have hread : parseQuotedFrom out (c.render ++ (content.flatMap QuotedByte.render ++ 34 :: rest)) =
        parseQuotedFrom (out ++ [c.byte]) (content.flatMap QuotedByte.render ++ 34 :: rest) := by
      cases hc : c.escaped with
      | true =>
        rw [QuotedByte.render_of_escaped hc]
        exact parseQuotedFrom_escaped c.byte
      | false =>
        obtain ⟨hrender, hquote, hback⟩ := QuotedByte.render_of_not_escaped hc
        rw [hrender]
        exact parseQuotedFrom_byte hquote hback
    rw [List.flatMap_cons, List.append_assoc, hread]
    apply ih
    rw [← htext, List.map_cons, List.append_assoc]
    rfl

/-- **A quoted string that is cut short has no end**, wherever it is cut: its content holds no quote
that is not behind a backslash. -/
theorem parseQuotedFrom_prefix {p : Bytes} (hp : p <+: content.flatMap QuotedByte.render) :
    parseQuotedFrom out p = .error "unterminated quoted string" := by
  induction content generalizing out p with
  | nil => rw [List.prefix_nil.mp hp, parseQuotedFrom]
  | cons c content ih =>
    cases p with
    | nil => rw [parseQuotedFrom]
    | cons b p =>
      rw [List.flatMap_cons] at hp
      cases hc : c.escaped with
      | true =>
        rw [QuotedByte.render_of_escaped hc, List.cons_append, List.cons_prefix_cons] at hp
        obtain ⟨rfl, hp⟩ := hp
        cases p with
        | nil =>
          -- cut behind the backslash
          unfold parseQuotedFrom
          rfl
        | cons d p =>
          rw [List.cons_append, List.cons_prefix_cons] at hp
          rw [parseQuotedFrom_escaped]
          exact ih hp.2
      | false =>
        obtain ⟨hrender, hquote, hback⟩ := QuotedByte.render_of_not_escaped hc
        rw [hrender, List.cons_append, List.cons_prefix_cons] at hp
        obtain ⟨rfl, hp⟩ := hp
        rw [parseQuotedFrom_byte hquote hback]
        exact ih hp

end

/-! ## Tokens -/

theorem token_char {b : UInt8} (hb : isTokenChar b = true) :
    b < 0x80 ∧ isAsciiWhitespace b = false ∧ isUnicodeWhitespace (Char.ofNat b.toNat) = false ∧
      isTokenChar (asciiLower b) = true := by
  have key : ∀ b, isTokenChar b = true → b < 0x80 ∧ isAsciiWhitespace b = false ∧
      isUnicodeWhitespace (Char.ofNat b.toNat) = false ∧ isTokenChar (asciiLower b) = true :=
    forall_byte (by decide +kernel)
  exact key b hb

namespace Token

variable (t : Token)

theorem ascii : ∀ b ∈ t.bytes, b < 0x80 := fun b hb => (token_char (t.chars b hb)).1

theorem not_mem {c : UInt8} (hc : isTokenChar c = false) : c ∉ t.bytes := fun hmem => by
  rw [t.chars c hmem] at hc
  cases hc

/-- No white space in front of a token, whatever is behind it. -/
theorem head_not_space (q : Bytes) : ∀ b ∈ (t.bytes ++ q).head?, isAsciiWhitespace b = false := by
  rw [List.head?_append_of_ne_nil _ t.nonempty]
  exact fun b hb => (token_char (t.chars b (List.mem_of_head? hb))).2.1

theorem last_not_space : ∀ b ∈ t.bytes.getLast?, isAsciiWhitespace b = false := fun b hb =>
  (token_char (t.chars b (List.mem_of_getLast? hb))).2.1

theorem trim : trimAsciiWhitespace t.bytes = t.bytes :=
  trimAsciiWhitespace_of_forall fun b hb => (token_char (t.chars b hb)).2.1

theorem lower_ascii : ∀ b ∈ t.bytes.map asciiLower, b < 0x80 ∧ isTokenChar b = true := by
  intro b hb
  obtain ⟨a, ha, rfl⟩ := List.mem_map.mp hb
  have hlower := (token_char (t.chars a ha)).2.2.2
  exact ⟨(token_char hlower).1, hlower⟩

theorem lower_ne_nil : t.lower ≠ [] := fun h =>
  t.nonempty (List.map_eq_nil_iff.mp (List.map_eq_nil_iff.mp h))

theorem fromUtf8_lower : fromUtf8 (t.bytes.map asciiLower) = some t.lower :=
  fromUtf8_ascii fun b hb => (t.lower_ascii b hb).1

theorem strBytes_lower : strBytes t.lower = t.bytes.map asciiLower :=
  strBytes_asciiStr fun b hb => (t.lower_ascii b hb).1

theorem lower_chars : (strBytes t.lower).all isTokenChar = true := by
  rw [strBytes_lower]
  exact List.all_eq_true.mpr fun b hb => (t.lower_ascii b hb).2

/-- The name of a parameter, as it is read. -/
theorem name_read : (strTrim (fromUtf8Lossy t.bytes)).map Char.toLower = t.lower := by
  have hspace : ∀ c ∈ asciiStr t.bytes, isUnicodeWhitespace c = false := by
    intro c hc
    obtain ⟨b, hb, rfl⟩ := List.mem_map.mp hc
    exact (token_char (t.chars b hb)).2.2.1
  have hne : asciiStr t.bytes ≠ [] := fun h => t.nonempty (List.map_eq_nil_iff.mp h)
  have htrim : strTrim (asciiStr t.bytes) = asciiStr t.bytes :=
    strTrim_of_ends (List.head?_eq_some_head hne) (List.getLast?_eq_some_getLast hne)
      (hspace _ (List.head_mem hne)) (hspace _ (List.getLast_mem hne))
  rw [fromUtf8Lossy_ascii t.ascii, htrim, lower, asciiStr, asciiStr, List.map_map, List.map_map]
  exact List.map_congr_left fun b hb => (toLower_ofNat (t.ascii b hb)).1

end Token

/-! ## Parameters -/

theorem parseParam_named (t : Token) {part behind : Bytes}
    (h : trimAsciiWhitespace part = t.bytes ++ 61 :: behind) :
    parseParam part = (parseParamValue behind).map fun value => some (t.lower, value) := by
  have hne : t.bytes ++ 61 :: behind ≠ [] := List.append_ne_nil_of_right_ne_nil _ (List.cons_ne_nil _ _)
  unfold parseParam
  simp only [h]
  rw [if_neg hne, cutAt_append (t.not_mem (by decide))]
  simp only [t.name_read]
  rw [if_neg t.lower_ne_nil]

theorem parseParamValue_quoted {raw : Bytes} (hraw : trimAsciiWhitespace raw = raw)
    (hhead : raw.head? = some 34) : parseParamValue raw = parseQuotedFrom [] (raw.drop 1) := by
  unfold parseParamValue
  simp only [hraw]
  exact if_pos hhead

namespace ParamValue

theorem render_ne_nil (v : ParamValue) : v.render ≠ [] := by
  cases v with
  | token t => exact t.nonempty
  | quoted q => exact List.cons_ne_nil _ _

theorem last_not_space (v : ParamValue) : ∀ b ∈ v.render.getLast?, isAsciiWhitespace b = false := by
  cases v with
  | token t => exact t.last_not_space
  | quoted q =>
    intro b hb
    rw [render, QuotedString.render, List.getLast?_concat] at hb
    obtain rfl := Option.some.inj hb
    decide

theorem parse_render (v : ParamValue) : parseParamValue v.render = .ok v.text := by
  cases v with
  | token t =>
    have hquote : t.bytes.head? ≠ some 34 := fun h => t.not_mem (by decide) (List.mem_of_head? h)
    unfold parseParamValue
    simp only [render, t.trim]
    rw [if_neg hquote, if_neg t.nonempty, fromUtf8Lossy_ascii t.ascii]
    rfl
  | quoted q =>
    have htrim : trimAsciiWhitespace q.render = q.render := by
      refine trimAsciiWhitespace_eq_self ?_ (last_not_space (quoted q))
      intro b hb
      obtain rfl := Option.some.inj hb
      decide
    rw [render, parseParamValue_quoted htrim rfl]
    exact parseQuotedFrom_content (by rw [List.nil_append, q.spells]; rfl)

end ParamValue

/-- A quoted string that is cut short, and trimmed. -/
theorem parseParamValue_cut {content : List QuotedByte} {p : Bytes}
    (hp : p <+: content.flatMap QuotedByte.render) :
    parseParamValue (34 :: p) = .error "unterminated quoted string" := by
  obtain ⟨q, hq, htrim⟩ := trimAsciiWhitespace_append (p := [34]) (List.cons_ne_nil _ _)
    (by decide) (by decide) p
  unfold parseParamValue
  rw [← List.singleton_append, htrim]
  exact parseQuotedFrom_prefix (hq.trans hp)

/-- **A parameter is read as it is written.** -/
theorem parseParam_part (p : MediaParam) : parseParam p.part = .ok (some p.parsed) := by
  have htrim : trimAsciiWhitespace p.part = p.name.bytes ++ 61 :: p.value.render := by
    rw [MediaParam.part, trimAsciiWhitespace_cons (by decide)]
    refine trimAsciiWhitespace_eq_self (p.name.head_not_space _) ?_
    rw [MediaParam.render, List.getLast?_append_of_ne_nil _ (List.cons_ne_nil _ _),
      List.getLast?_cons_of_ne_nil p.value.render_ne_nil]
    exact p.value.last_not_space
  rw [parseParam_named p.name htrim, p.value.parse_render]
  rfl

/-- **A parameter that is cut in its quoted string is an error.** -/
theorem parseParam_cut (t : Token) {content : List QuotedByte} {p : Bytes}
    (hp : p <+: content.flatMap QuotedByte.render) :
    parseParam (32 :: (t.bytes ++ 61 :: 34 :: p)) = .error "unterminated quoted string" := by
  have hlast : ∀ b ∈ (t.bytes ++ [61, 34]).getLast?, isAsciiWhitespace b = false := by
    rw [List.getLast?_append_of_ne_nil _ (List.cons_ne_nil _ _)]
    decide
  obtain ⟨q, hq, htrim⟩ := trimAsciiWhitespace_append (List.append_ne_nil_of_left_ne_nil t.nonempty _)
    (t.head_not_space [61, 34]) hlast p
  have hname : trimAsciiWhitespace (32 :: (t.bytes ++ 61 :: 34 :: p)) = t.bytes ++ 61 :: 34 :: q := by
    rw [List.append_assoc, List.append_assoc] at htrim
    rw [trimAsciiWhitespace_cons (by decide)]
    exact htrim
  rw [parseParam_named t hname, parseParamValue_cut (hq.trans hp)]
  rfl

theorem MediaParam.not_mem_part {p : MediaParam} (hp : p.value.NoSemicolon) : 59 ∉ p.part := by
  have hvalue : 59 ∉ p.value.render := by
    -- a backslash is no semicolon, so the bytes of the content decide
    cases hv : p.value with
    | token t => exact t.not_mem (by decide)
    | quoted q =>
      rw [hv] at hp
      intro hmem
      rw [ParamValue.render, QuotedString.render, List.mem_append, List.mem_cons, List.mem_flatMap] at hmem
      obtain (hmem | ⟨c, hc, hmem⟩) | hmem := hmem
      · cases hmem
      · have hc := hp c hc
        cases hesc : c.escaped with
        | true =>
          rw [QuotedByte.render_of_escaped hesc] at hmem
          simp [Ne.symm hc] at hmem
        | false =>
          rw [(QuotedByte.render_of_not_escaped hesc).1] at hmem
          exact hc (List.mem_singleton.mp hmem).symm
      · cases hmem
        contradiction
  rw [MediaParam.part, MediaParam.render, List.mem_cons, List.mem_append, List.mem_cons]
  rintro (h | h | h | h)
  · cases h
  · exact p.name.not_mem (by decide) h
  · cases h
  · exact hvalue h

/-- The part of a parameter whose quoted string holds a semicolon ends there. -/
theorem MediaParam.part_cut {p : MediaParam} (hp : ¬ p.value.NoSemicolon) :
    ∃ (content : List QuotedByte) (r rest : Bytes), r <+: content.flatMap QuotedByte.render ∧
      59 ∉ p.name.bytes ++ 61 :: 34 :: r ∧
        p.part = 32 :: (p.name.bytes ++ 61 :: 34 :: r) ++ 59 :: rest := by
  cases hv : p.value with
  | token t =>
    rw [hv] at hp
    exact absurd trivial hp
  | quoted q =>
    rw [hv] at hp
    have hmem : 59 ∈ q.content.flatMap QuotedByte.render := by
      simp only [ParamValue.NoSemicolon, not_forall, ne_eq, not_not] at hp
      obtain ⟨c, hc, h59⟩ := hp
      refine List.mem_flatMap.mpr ⟨c, hc, ?_⟩
      rw [QuotedByte.render, h59]
      split <;> simp
    -- cut at the first semicolon, which may be the second byte of an escape
    obtain ⟨r, r', heq, hr⟩ := List.eq_append_cons_of_mem hmem
    refine ⟨q.content, r, r' ++ [34], ⟨59 :: r', heq.symm⟩, ?_, ?_⟩
    · rw [List.mem_append, List.mem_cons, List.mem_cons]
      rintro (h | h | h | h)
      · exact p.name.not_mem (by decide) h
      · cases h
      · cases h
      · exact hr h
    · rw [part, render, hv, ParamValue.render, QuotedString.render, heq]
      simp

/-! ## The parameters and the media type -/

/-- What is behind the first semicolon. -/
def renderParams (p : MediaParam) (ps : List MediaParam) : Bytes :=
  p.part ++ ps.flatMap fun q => 59 :: q.part

section

variable {p : MediaParam} {params : List (Str × Str)}

theorem parseParams_part (parts : List Bytes) :
    parseParams (p.part :: parts) params = parseParams parts (params ++ [p.parsed]) := by
  rw [parseParams, parseParam_part]
  rfl

theorem parseParams_last (hp : p.value.NoSemicolon) :
    parseParams ((renderParams p []).splitOn 59) params = .ok (params ++ [p.parsed]) := by
  rw [renderParams, List.flatMap_nil, List.append_nil,
    List.splitOn_eq_singleton (MediaParam.not_mem_part hp), parseParams_part, parseParams]

theorem parseParams_more (hp : p.value.NoSemicolon) (q : MediaParam) (qs : List MediaParam) :
    parseParams ((renderParams p (q :: qs)).splitOn 59) params =
      parseParams ((renderParams q qs).splitOn 59) (params ++ [p.parsed]) := by
  rw [renderParams, List.flatMap_cons, List.cons_append,
    List.splitOn_append_cons_self_of_not_mem (MediaParam.not_mem_part hp), parseParams_part]
  rfl

theorem parseParams_cut (hp : ¬ p.value.NoSemicolon) (ps : List MediaParam) :
    parseParams ((renderParams p ps).splitOn 59) params = .error "unterminated quoted string" := by
  obtain ⟨content, r, rest, hr, hnot, hpart⟩ := MediaParam.part_cut hp
  have hfirst : 59 ∉ 32 :: (p.name.bytes ++ 61 :: 34 :: r) :=
    List.not_mem_cons_of_ne_of_not_mem (by decide) hnot
  have hjoined : renderParams p ps = 32 :: (p.name.bytes ++ 61 :: 34 :: r) ++
      59 :: (rest ++ ps.flatMap fun q => 59 :: q.part) := by
    rw [renderParams, hpart, List.append_assoc]
    rfl
  rw [hjoined, List.splitOn_append_cons_self_of_not_mem hfirst, parseParams, parseParam_cut p.name hr]
  rfl

end

theorem parseParams_render (p : MediaParam) (ps : List MediaParam) (params : List (Str × Str))
    (h : ∀ q ∈ p :: ps, q.value.NoSemicolon) :
    parseParams ((renderParams p ps).splitOn 59) params =
      .ok (params ++ (p :: ps).map MediaParam.parsed) := by
  induction ps generalizing p params with
  | nil => exact parseParams_last (h p List.mem_cons_self)
  | cons q qs ih =>
    obtain ⟨hp, h⟩ := List.forall_mem_cons.mp h
    rw [parseParams_more hp, ih q _ h, List.append_assoc]
    rfl

/-- **The first quoted string with a semicolon** stops the parser: what is in front of it is read. -/
theorem parseParams_semicolon (p : MediaParam) (ps : List MediaParam) (params : List (Str × Str))
    (h : ¬ ∀ q ∈ p :: ps, q.value.NoSemicolon) :
    parseParams ((renderParams p ps).splitOn 59) params = .error "unterminated quoted string" := by
  induction ps generalizing p params with
  | nil => exact parseParams_cut (fun hp => h (List.forall_mem_singleton.mpr hp)) []
  | cons q qs ih =>
    by_cases hp : p.value.NoSemicolon
    · rw [parseParams_more hp]
      exact ih q _ fun hqs => h (List.forall_mem_cons.mpr ⟨hp, hqs⟩)
    · exact parseParams_cut hp _

/-- The type and the subtype in front of the first semicolon. -/
theorem parseMediaTypeCore_main (ty subtype : Token) {input rest : Bytes}
    (h : (cutAt 59 input).getD (input, []) = (ty.bytes ++ 47 :: subtype.bytes, rest)) :
    parseMediaTypeCore input =
      (parseParams (rest.splitOn 59) []).map (ParsedMediaType.mk ty.lower subtype.lower) := by
  have htrim : trimAsciiWhitespace (ty.bytes ++ 47 :: subtype.bytes) =
      ty.bytes ++ 47 :: subtype.bytes := by
    refine trimAsciiWhitespace_eq_self (ty.head_not_space _) ?_
    rw [List.getLast?_append_of_ne_nil _ (List.cons_ne_nil _ _),
      List.getLast?_cons_of_ne_nil subtype.nonempty]
    exact subtype.last_not_space
  unfold parseMediaTypeCore
  simp only [h, htrim, cutAt_append (ty.not_mem (c := 47) (by decide)), ty.fromUtf8_lower,
    subtype.fromUtf8_lower]
  rw [if_neg (not_or.mpr ⟨ty.lower_ne_nil, subtype.lower_ne_nil⟩),
    if_neg (not_not.mpr ⟨ty.lower_chars, subtype.lower_chars⟩)]
  cases parseParams (rest.splitOn 59) [] with
  | error e => rfl
  | ok params => rfl

/-- **Media types are read as they are written, but for semicolons between quotes.** -/
theorem parseMediaTypeCore_render_iff (m : MediaType) :
    parseMediaTypeCore m.render = .ok m.parsed ↔ ∀ p ∈ m.params, p.value.NoSemicolon := by
  obtain ⟨ty, subtype, params⟩ := m
  have hmain : 59 ∉ ty.bytes ++ 47 :: subtype.bytes := by
    rw [List.mem_append, List.mem_cons]
    rintro (h | h | h)
    · exact ty.not_mem (by decide) h
    · cases h
    · exact subtype.not_mem (by decide) h
  -- Without parameters there is no semicolon to look for.
  cases params with
  | nil =>
    refine iff_of_true ?_ fun p hp => absurd hp List.not_mem_nil
    have hcut : (cutAt 59 (MediaType.mk ty subtype []).render).getD
        ((MediaType.mk ty subtype []).render, []) = (ty.bytes ++ 47 :: subtype.bytes, []) := by
      rw [MediaType.render, List.flatMap_nil, List.append_nil, cutAt_eq_none_iff.mpr hmain]
      rfl
    rw [parseMediaTypeCore_main ty subtype hcut]
    rfl
  | cons p ps =>
    have hcut : (cutAt 59 (MediaType.mk ty subtype (p :: ps)).render).getD
        ((MediaType.mk ty subtype (p :: ps)).render, []) =
          (ty.bytes ++ 47 :: subtype.bytes, renderParams p ps) := by
      rw [MediaType.render, List.flatMap_cons, List.cons_append, cutAt_append hmain]
      rfl
    rw [parseMediaTypeCore_main ty subtype hcut]
    by_cases h : ∀ q ∈ p :: ps, q.value.NoSemicolon
    · rw [parseParams_render p ps [] h]
      exact iff_of_true rfl h
    · rw [parseParams_semicolon p ps [] h]
      refine iff_of_false ?_ h
      intro heq
      cases heq

/-- `multipart/form-data; boundary="a;b"`. -/
def semicolonBoundary : MediaType where
  ty := ⟨utf8 "multipart", by decide, by decide⟩
  subtype := ⟨utf8 "form-data", by decide, by decide⟩
  params := [{
    name := ⟨utf8 "boundary", by decide, by decide⟩
    value := .quoted {
      content := [⟨97, false, by decide, by decide⟩, ⟨59, false, by decide, by decide⟩,
        ⟨98, false, by decide, by decide⟩]
      text := ['a', ';', 'b']
      spells := by decide } }]

/-- A boundary with a semicolon, which the quotes are for. -/
theorem parseMediaTypeCore_semicolon :
    semicolonBoundary.render = utf8 "multipart/form-data; boundary=\"a;b\"" ∧
      semicolonBoundary.parsed.params = [("boundary".toList, "a;b".toList)] ∧
        parseMediaTypeCore semicolonBoundary.render = .error "unterminated quoted string" := by
  exact ⟨by decide, by decide, rfl⟩

end Castrum
