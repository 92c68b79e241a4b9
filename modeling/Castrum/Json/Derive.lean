import Castrum.FastSchema.Derived
import Castrum.FastSchema.Twin
import Castrum.Json.Pointer
import Castrum.Json.SchemaBatch

/-!
# Castrum — validate and derive (`rust/json/json_schema.rs`)

`derive` validates a document and hands out scalars and array lengths at some paths. The fast path
captures them during the walk; a schema outside its subset is checked on the DOM, and the paths are
resolved there.

* `derive_lies` — what the fast path hands out are parts of the document;
* `deriveDom_keys` — the DOM path follows the keys of a target and nothing else;
* `derive_verdict` — `derive` judges as `validate` does, refuses a list of paths by its first bad one,
  and hands out one value for each path, in order.
-/

namespace Castrum

open Ascii JsonPatch

/-! ## The result -/

structure JsonDeriveValue where
  kind : String
  int : Option Int64 := none
  number : Option F64 := none
  text : Option Bytes := none
  boolean : Option Bool := none
  deriving DecidableEq

structure JsonDeriveResult where
  ok : Bool
  values : List (Option JsonDeriveValue)
  deriving DecidableEq

/-- What `derive` calls: `serde_json::from_slice::<String>`, `str::parse::<f64>` and
`Value::pointer`. -/
structure DeriveOracles where
  fromStr : Bytes → Option Bytes
  parseF64 : Bytes → Option F64
  pointer : Value → Bytes → Option Value

def derivePathError (p : Bytes) : Bytes :=
  strBytes "derive path \"".toList ++ p ++ strBytes
    "\" must be a JSON pointer of object keys (e.g. \"/totalCents\", \"/lineItems/-\")".toList

def parseDeriveTargets : List Bytes → Except Bytes (List TargetPath)
  | [] => .ok []
  | p :: paths =>
    match parseTarget p with
    | some t => (parseDeriveTargets paths).map (t :: ·)
    | none => .error (derivePathError p)

section

variable (D : DeriveOracles)

/-- Classify the text of a value (`scalar_value`). -/
def scalarValue (raw : Bytes) : JsonDeriveValue :=
  match raw.head? with
  | none => { kind := "null" }
  | some first =>
    if first = quote then
      match D.fromStr raw with
      | some s => { kind := "string", text := some s }
      | none => { kind := "null" }
    else if first = 116 ∨ first = 102 then { kind := "bool", boolean := some (first == 116) }
    else if first = 110 then { kind := "null" }
    else
      let s := if validUtf8 raw then raw else []
      match parseI64 s with
      | some i => { kind := "int", int := some i }
      | none =>
        match D.parseF64 s with
        | some f => { kind := "number", number := some f }
        | none => { kind := "null" }

/-- The length of an array, as a derived value. -/
def lengthValue (n : Nat) : JsonDeriveValue := { kind := "int", int := some (Int64.ofNat n) }

/-- Turn a completed capture into the result values (`derive_values`). -/
def deriveValues (cap : Capture) (ok : Bool) (targets : List TargetPath) (input : Bytes) :
    List (Option JsonDeriveValue) :=
  targets.zipIdx.map fun (t, i) =>
    if ok = false then none
    else
      match t.kind with
      | .length => (cap.length i).map lengthValue
      | .value => (cap.valueRange i).bind fun (s, e) =>
        if e ≤ s ∨ input.length < e then none
        else some (scalarValue D ((input.drop s).take (e - s)))

/-- `out.push(b as char)`, for any byte that is not escaped: the UTF-8 of that code point. -/
def pushByte (b : UInt8) : Bytes :=
  if b = tilde then [tilde, 48]
  else if b = slash then [tilde, 49]
  else String.utf8EncodeChar (Char.ofNat b.toNat)

def pointerFor (t : TargetPath) : Bytes := t.steps.flatMap fun step => slash :: step.flatMap pushByte

def domScalar : Value → JsonDeriveValue
  | .null => { kind := "null" }
  | .bool b => { kind := "bool", boolean := some b }
  | .number n =>
    match n.asI64 with
    | some i => { kind := "int", int := some (Int64.ofInt i) }
    | none =>
      match n.asF64 with
      | some f => { kind := "number", number := some (.fin f) }
      | none => { kind := "number" }
  | .string s => { kind := "string", text := some s }
  | .array _ => { kind := "null" }
  | .object _ => { kind := "null" }

namespace SchemaValidator

variable {S : Oracles} (v : SchemaValidator S)

def deriveDom (bytes : Bytes) (targets : List TargetPath) : JsonDeriveResult :=
  match S.fromSlice bytes with
  | none => ⟨false, targets.map fun _ => none⟩
  | some value =>
    if v.schema value = false then ⟨false, targets.map fun _ => none⟩
    else
      ⟨true, targets.map fun t =>
        match t.kind with
        | .length =>
          match D.pointer value (pointerFor t) with
          | some (.array items) => some (lengthValue items.length)
          | _ => none
        | .value => (D.pointer value (pointerFor t)).map domScalar⟩

def derive (input : Bytes) (paths : List Bytes) : Except Bytes JsonDeriveResult := do
  let targets ← parseDeriveTargets paths
  match v.fast with
  | some fast =>
    let r := validateWithCapture S fast input targets
    .ok ⟨r.1, deriveValues D r.2 r.1 targets input⟩
  | none => .ok (v.deriveDom D input targets)

end SchemaValidator

end

/-! ## What lies under a path -/

/-- The part of a DOM value under some keys. -/
def partAt : Value → List Bytes → Option Value
  | value, [] => some value
  | .object members, key :: keys => (members.lookup key).bind (partAt · keys)
  | _, _ :: _ => none

/-- The index that a segment spells: digits without a leading zero. -/
def rfcIndex (seg : Bytes) : Option Nat :=
  if seg.all isDigit && (seg.head? != some zero || seg.length == 1) && !seg.isEmpty then
    some (readDigits seg)
  else none

/-- The part of a DOM value that the segments of a JSON pointer lead to: members by their keys and
elements by their indices. -/
def rfcAt : Value → List Bytes → Option Value
  | value, [] => some value
  | .object members, seg :: segs => (members.lookup seg).bind (rfcAt · segs)
  | .array items, seg :: segs => ((rfcIndex seg).bind (items[·]?)).bind (rfcAt · segs)
  | _, _ :: _ => none

/-- Numbers are integers, and pointers are those of RFC 6901. -/
def integersOnly : DeriveOracles where
  fromStr _ := none
  parseF64 _ := none
  pointer value p := (rfc6901Bytes.parse p).bind (rfcAt value)

/-! ## Targets -/

theorem parseDeriveTargets_ok {paths : List Bytes} {targets : List TargetPath}
    (h : parseDeriveTargets paths = .ok targets) :
    paths.map parseTarget = targets.map some := by
  induction paths generalizing targets with
  | nil =>
    cases h
    rfl
  | cons p paths ih =>
    rw [parseDeriveTargets] at h
    cases hp : parseTarget p with
    | none =>
      rw [hp] at h
      cases h
    | some t =>
      rw [hp] at h
      cases hrest : parseDeriveTargets paths with
      | error e =>
        rw [hrest] at h
        cases h
      | ok ts =>
        rw [hrest] at h
        cases h
        rw [List.map_cons, List.map_cons, hp, ih hrest]

/-- Target number `i` is that of path number `i`. -/
theorem getElem?_targets {paths : List Bytes} {targets : List TargetPath}
    (h : parseDeriveTargets paths = .ok targets) {i : Nat} {p : Bytes} {t : TargetPath}
    (hp : paths[i]? = some p) (ht : parseTarget p = some t) : targets[i]? = some t := by
  have hmap := congrArg (·[i]?) (parseDeriveTargets_ok h)
  simp only [List.getElem?_map, hp, Option.map_some, ht] at hmap
  cases hi : targets[i]? with
  | none =>
    rw [hi] at hmap
    cases hmap
  | some t' =>
    rw [hi] at hmap
    cases hmap
    rfl

section

variable {D : DeriveOracles} {S : Oracles}

/-- What a part of the document is worth to `derive`; `D` reads its strings and numbers. -/
def scalarOf (D : DeriveOracles) : Json → JsonDeriveValue
  | .bool b => { kind := "bool", boolean := some b }
  | .str raw =>
    match D.fromStr (quote :: (raw ++ [quote])) with
    | some s => { kind := "string", text := some s }
    | none => { kind := "null" }
  | .num tok =>
    match parseI64 tok with
    | some i => { kind := "int", int := some i }
    | none =>
      match D.parseF64 tok with
      | some f => { kind := "number", number := some f }
      | none => { kind := "null" }
  | _ => { kind := "null" }

theorem isNumber_ascii {tok : Bytes} (h : IsNumber tok) : ∀ b ∈ tok, b < 0x80 := by
  -- A number is made of a sign, digits, a point and an exponent, all of them ASCII.
  have hdigit : ∀ b, isDigit b = true → b < 0x80 := by
    intro b hb
    simp only [isDigit, Bool.and_eq_true, decide_eq_true_eq] at hb
    exact UInt8.lt_iff_toNat_lt.mpr (Nat.lt_of_le_of_lt (UInt8.le_iff_toNat_le.mp hb.2) (by decide))
  have hdigits : ∀ ds, IsDigits ds → ∀ b ∈ ds, b < 0x80 := fun ds hds b hb => hdigit b (hds.2 b hb)
  obtain ⟨m, i, f, e, hm, hi, hf, he, rfl⟩ := h
  intro b hb
  simp only [List.mem_append] at hb
  rcases hb with hb | hb | hb | hb
  · rcases hm with rfl | rfl
    · cases hb
    · rw [List.mem_singleton.mp hb]
      decide
  · rcases hi with rfl | ⟨hi, -⟩
    · rw [List.mem_singleton.mp hb]
      decide
    · exact hdigits i hi b hb
  · rcases hf with rfl | ⟨ds, hds, rfl⟩
    · cases hb
    · rcases List.mem_cons.mp hb with rfl | hb
      · decide
      · exact hdigits ds hds b hb
  · rcases he with rfl | ⟨c, sign, ds, hc, hsign, hds, rfl⟩
    · cases hb
    · simp only [List.mem_cons, List.mem_append] at hb
      rcases hb with rfl | hb | hb
      · rcases hc with rfl | rfl <;> decide
      · rcases hsign with rfl | rfl | rfl
        · cases hb
        · rw [List.mem_singleton.mp hb]
          decide
        · rw [List.mem_singleton.mp hb]
          decide
      · exact hdigits ds hds b hb

/-- A container is no number to `parse::<i64>`. -/
theorem parseI64_of_head {b : UInt8} {s : Bytes} (hb : b = lbrace ∨ b = lbracket) :
    parseI64 (b :: s) = none := by
  have hsign : signOf (b :: s) = (false, b :: s) := by
    rcases hb with rfl | rfl <;> rfl
  have hdigit : isDigit b = false := by
    rcases hb with rfl | rfl <;> rfl
  rw [parseI64, hsign]
  simp [hdigit]

/-- A text that starts neither a string nor a literal is read as a number. -/
theorem scalarValue_other {b : UInt8} {r : Bytes} (h₁ : b ≠ quote) (h₂ : b ≠ 116) (h₃ : b ≠ 102)
    (h₄ : b ≠ 110) : scalarValue D (b :: r) =
      match parseI64 (if validUtf8 (b :: r) then b :: r else []) with
      | some i => { kind := "int", int := some i }
      | none =>
        match D.parseF64 (if validUtf8 (b :: r) then b :: r else []) with
        | some f => { kind := "number", number := some f }
        | none => { kind := "null" } := by
  rw [scalarValue]
  simp only [List.head?_cons]
  rw [if_neg h₁, if_neg (not_or.mpr ⟨h₂, h₃⟩), if_neg h₄]

/-- **The text of a part is classified by its kind**, where `parse::<f64>` takes neither the empty
text nor a container for a number. -/
theorem scalarValue_of_text
    (hparse : ∀ s, (∀ b ∈ s.head?, b = lbrace ∨ b = lbracket) → D.parseF64 s = none) {w : Json}
    {s : Bytes} (hs : IsText w s) : scalarValue D s = scalarOf D w := by
  have hw := (isText_iff w s).mp hs
  -- A container is a number to neither parser, so it is reported as null.
  have hcontainer : ∀ b r, b = lbrace ∨ b = lbracket →
      scalarValue D (b :: r) = { kind := "null" } := by
    intro b r hb
    have hint : parseI64 (if validUtf8 (b :: r) then b :: r else []) = none := by
      split
      · exact parseI64_of_head hb
      · rfl
    have hfloat : D.parseF64 (if validUtf8 (b :: r) then b :: r else []) = none := by
      refine hparse _ ?_
      split
      · simpa using hb
      · simp
    rw [scalarValue_other (by rcases hb with rfl | rfl <;> decide)
      (by rcases hb with rfl | rfl <;> decide) (by rcases hb with rfl | rfl <;> decide)
      (by rcases hb with rfl | rfl <;> decide), hint, hfloat]
  cases w with
  | null =>
    obtain rfl := hw
    rfl
  | bool b =>
    cases b with
    | true =>
      obtain rfl := hw
      rfl
    | false =>
      obtain rfl := hw
      rfl
  | num tok =>
    obtain ⟨rfl, htok⟩ := hw
    have hascii := isNumber_ascii htok
    obtain ⟨b, r, rfl, hb⟩ := htok.head
    obtain ⟨-, -, h₃, h₄, h₅, h₆⟩ := Cursor.number_head_ne hb
    rw [scalarValue_other h₃ h₄ h₅ h₆, if_pos (validUtf8_ascii hascii), scalarOf]
  | str raw =>
    obtain ⟨rfl, -⟩ := hw
    rfl
  | arr items =>
    obtain ⟨body, rfl, -⟩ := hw
    exact hcontainer _ _ (.inr rfl)
  | obj ms =>
    obtain ⟨body, rfl, -⟩ := hw
    exact hcontainer _ _ (.inl rfl)

/-- One value of a capture, from what its target has found. -/
theorem getElem?_deriveValues {cap : Capture} {targets : List TargetPath} {input : Bytes} {i : Nat}
    {t : TargetPath} (ht : targets[i]? = some t) :
    (deriveValues D cap true targets input)[i]? = some ((cap.shown i t.kind).bind fun
      | .length n => some (lengthValue n)
      | .value start stop =>
        if stop ≤ start ∨ input.length < stop then none
        else some (scalarValue D ((input.drop start).take (stop - start)))) := by
  rw [deriveValues, List.getElem?_map, List.getElem?_zipIdx, ht]
  cases hkind : t.kind with
  | length =>
    cases hfound : cap.length i <;> simp [hkind, Capture.shown, hfound]
  | value =>
    cases hfound : cap.valueRange i <;> simp [hkind, Capture.shown, hfound]

/-- What the fast path hands out at the target `t` of a document: nothing where a later path has the
same target (`last` says that none has), and else the value of a part that lies under its keys, or the
number of elements of an array there. Nothing is handed out for want of a part only where the walk
does not come by. -/
inductive Handed (D : DeriveOracles) (fast : FastNode S.Regex) (doc : Json) (input : Bytes)
    (t : TargetPath) (last : Prop) : Option JsonDeriveValue → Prop where
  | repeated : ¬ last → Handed D fast doc input t last none
  | missed : ¬ Reaches fast doc t → Handed D fast doc input t last none
  | value {w : Json} {start stop : Nat} : last → t.kind = .value → KeyPath doc t.steps w →
      TextAt input start stop w →
      Handed D fast doc input t last (some (scalarValue D ((input.drop start).take (stop - start))))
  | length {items : List Json} : last → t.kind = .length → KeyPath doc t.steps (.arr items) →
      Handed D fast doc input t last (some (lengthValue items.length))

/-- **The values of the fast path**, one at each index. -/
theorem deriveValues_handed (fast : FastNode S.Regex) (input : Bytes) (targets : List TargetPath)
    (hok : (validateWithCapture S fast input targets).1 = true) :
    ∃ doc, IsDocument doc input ∧ ∀ (i : Nat) (t : TargetPath), targets[i]? = some t →
      ∃ x, (deriveValues D (validateWithCapture S fast input targets).2 true targets input)[i]? =
        some x ∧ Handed D fast doc input t (IsLast targets i t) x := by
  obtain ⟨doc, hdoc, hfound⟩ := validateWithCapture_shown S fast input targets hok
  refine ⟨doc, hdoc, fun i t ht => ⟨_, getElem?_deriveValues ht, ?_⟩⟩
  obtain ⟨hsound, hcomplete⟩ := hfound i t ht
  cases hshown : (validateWithCapture S fast input targets).2.shown i t.kind with
  | none =>
    rw [hshown] at hcomplete
    by_cases hlast : IsLast targets i t
    · exact .missed fun hreach => absurd (hcomplete hlast hreach) (by simp)
    · exact .repeated hlast
  | some s =>
    obtain ⟨hlast, hkind, hlies⟩ := hsound s hshown
    cases s with
    | value start stop =>
      obtain ⟨w, hpath, htext⟩ := hlies
      -- the range of a text is never empty, and ends within the input
      have hrange : ¬ (stop ≤ start ∨ input.length < stop) := by
        have := htext.1
        have := htext.2.1
        omega
      simp only [Option.bind_some, if_neg hrange]
      exact .value hlast hkind.symm hpath htext
    | length n =>
      obtain ⟨items, hpath, rfl⟩ := hlies
      exact .length hlast hkind.symm hpath

/-- **What the fast path hands out are parts of the document.** For a schema of the fast path and a
valid document, a value at a path is the value of a part of the document that lies under the keys of
the path, or the length of an array there. -/
theorem derive_lies (v : SchemaValidator S) {fast : FastNode S.Regex} (hfast : v.fast = some fast)
    (hparse : ∀ s, (∀ b ∈ s.head?, b = lbrace ∨ b = lbracket) → D.parseF64 s = none)
    (input : Bytes) (paths : List Bytes) {r : JsonDeriveResult}
    (hr : v.derive D input paths = .ok r) (hok : r.ok = true) :
    ∃ doc, IsDocument doc input ∧ ∀ (i : Nat) (p : Bytes) (t : TargetPath) (x : JsonDeriveValue),
      paths[i]? = some p → parseTarget p = some t → r.values[i]? = some (some x) →
        match t.kind with
        | .length => ∃ items, KeyPath doc t.steps (.arr items) ∧ x = lengthValue items.length
        | .value => ∃ w, KeyPath doc t.steps w ∧ x = scalarOf D w := by
  rw [SchemaValidator.derive, bind_eq_ok_iff] at hr
  obtain ⟨targets, htargets, hr⟩ := hr
  simp only [hfast] at hr
  obtain rfl := Except.ok.inj hr
  obtain ⟨doc, hdoc, hhanded⟩ := deriveValues_handed (D := D) fast input targets hok
  refine ⟨doc, hdoc, fun i p t x hp ht hx => ?_⟩
  -- What is handed out at an index belongs to the target there.
  obtain ⟨y, hy, hhand⟩ := hhanded i t (getElem?_targets htargets hp ht)
  dsimp only at hx hok
  rw [hok, hy, Option.some.injEq] at hx
  rw [hx] at hhand
  cases hhand with
  | value _ hkind hpath htext =>
    rw [hkind]
    exact ⟨_, hpath, scalarValue_of_text hparse htext.2.2⟩
  | length _ hkind hpath =>
    rw [hkind]
    exact ⟨_, hpath, rfl⟩

end

/-- Objects may have any members. -/
def anyMembers : SchemaValidator .nullOnly where
  schema _ := true
  fast := some { FastNode.any with
    obj := some ⟨[], [], ⟨[], List.nodup_nil, Nat.zero_le _⟩, .allow, none, none, []⟩ }

theorem derive_lies_member : ∃ doc, IsDocument doc [123, 34, 97, 34, 58, 55, 125] ∧
    ∃ w, KeyPath doc [[97]] w ∧ { kind := "int", int := some 7 } = scalarOf integersOnly w := by
  obtain ⟨doc, hdoc, h⟩ := derive_lies anyMembers rfl (fun _ _ => rfl) [123, 34, 97, 34, 58, 55, 125]
    [[47, 97]] (D := integersOnly) (r := ⟨true, [some { kind := "int", int := some 7 }]⟩)
    (by decide +kernel) rfl
  exact ⟨doc, hdoc, h 0 [47, 97] ⟨[[97]], .value⟩ _ rfl (by decide) rfl⟩

/-! ## The DOM path -/

/-- The code points that the bytes of a key are, one for each byte, in UTF-8. -/
def latin1 (key : Bytes) : Bytes := key.flatMap fun b => String.utf8EncodeChar (Char.ofNat b.toNat)

theorem toNat_ofNat_byte (b : UInt8) : (Char.ofNat b.toNat).toNat = b.toNat := by
  have hb := b.toNat_lt
  have hvalid : b.toNat.isValidChar := .inl (by omega)
  rw [Char.ofNat, dif_pos hvalid]
  rfl

/-! ### The pointer -/

theorem escape_plain {s : Bytes} (h : ∀ x ∈ s, x ≠ tilde ∧ x ≠ slash) : rfc6901Bytes.escape s = s := by
  induction s with
  | nil => rfl
  | cons x s ih =>
    obtain ⟨hesc, hsep⟩ := h x List.mem_cons_self
    rw [Escaping.escape_cons, if_neg (show x ≠ rfc6901Bytes.esc from hesc),
      if_neg (show x ≠ rfc6901Bytes.sep from hsep), ih fun y hy => h y (List.mem_cons_of_mem _ hy)]
    rfl

theorem pushByte_eq (b : UInt8) :
    pushByte b = rfc6901Bytes.escape (String.utf8EncodeChar (Char.ofNat b.toNat)) := by
  by_cases hesc : b = tilde
  · rw [hesc]
    decide
  by_cases hsep : b = slash
  · rw [hsep]
    decide
  have hback : ∀ x : UInt8, x.toNat < 0x80 → x ∈ String.utf8EncodeChar (Char.ofNat b.toNat) → x = b := by
    intro x hascii hx
    have hnat := mem_utf8EncodeChar hx hascii
    rw [toNat_ofNat_byte] at hnat
    exact (UInt8.toNat_inj.mp hnat).symm
  rw [pushByte, if_neg hesc, if_neg hsep, escape_plain]
  intro x hx
  constructor
  · rintro rfl
    exact hesc (hback _ (by decide) hx).symm
  · rintro rfl
    exact hsep (hback _ (by decide) hx).symm

/-- **The pointer of a target** spells its keys, byte by byte. -/
theorem pointerFor_eq (t : TargetPath) : pointerFor t = rfc6901Bytes.render (t.steps.map latin1) := by
  have hstep : ∀ step : Bytes, step.flatMap pushByte = rfc6901Bytes.escape (latin1 step) := by
    intro step
    induction step with
    | nil => rfl
    | cons b step ih =>
      rw [List.flatMap_cons, ih, pushByte_eq]
      exact List.flatMap_append.symm
  rw [pointerFor, Escaping.render, List.flatMap_map]
  congr 1
  funext step
  rw [hstep]
  rfl

/-! ### Steps are no indices -/

/-- What an unescaped token consists of when it is all digits: the token itself. -/
theorem unescapeToken_digits {tok : Bytes} (h : ∀ b ∈ unescapeToken tok, isDigit b = true) :
    unescapeToken tok = tok := by
  induction tok using unescapeToken.induct with
  | case1 b rest ih =>
    -- an escape gives a slash or a tilde
    rw [unescapeToken] at h
    have := h _ List.mem_cons_self
    split at this
    · cases this
    · split at this <;> cases this
  | case2 b rest hne ih =>
    rw [unescapeToken.eq_2 b rest hne] at h ⊢
    rw [ih fun x hx => h x (List.mem_cons_of_mem _ hx)]
  | case3 => rfl

theorem rfcIndex_latin1 {tok : Bytes} (h : isIndexToken tok = false) :
    rfcIndex (latin1 (unescapeToken tok)) = none := by
  rw [rfcIndex, if_neg]
  simp only [Bool.and_eq_true, Bool.not_eq_true', List.all_eq_true]
  rintro ⟨⟨hdigits, -⟩, hne⟩
  -- a key whose code points are all digits is all digits, and then it was no escaped token
  have hkey : ∀ b ∈ unescapeToken tok, isDigit b = true := by
    intro b hb
    obtain ⟨x, xs, hx⟩ := List.exists_cons_of_ne_nil (utf8EncodeChar_ne_nil (Char.ofNat b.toNat))
    have hmem : x ∈ latin1 (unescapeToken tok) :=
      List.mem_flatMap.mpr ⟨b, hb, by rw [hx]; exact List.mem_cons_self⟩
    have hdigit := hdigits x hmem
    have hascii : x.toNat < 0x80 := by
      simp only [isDigit, Bool.and_eq_true, decide_eq_true_eq] at hdigit
      exact Nat.lt_of_le_of_lt (UInt8.le_iff_toNat_le.mp hdigit.2) (by decide)
    have hnat := mem_utf8EncodeChar (show x ∈ String.utf8EncodeChar (Char.ofNat b.toNat) by
      rw [hx]; exact List.mem_cons_self) hascii
    rw [toNat_ofNat_byte] at hnat
    rwa [UInt8.toNat_inj.mp hnat]
  have htok := unescapeToken_digits hkey
  rw [htok] at hkey hne
  have hempty : tok ≠ [] := by
    rintro rfl
    simp [latin1] at hne
  have hindex : isIndexToken tok = true := by
    simp only [isIndexToken, Bool.and_eq_true, Bool.or_eq_true, List.all_eq_true, decide_eq_true_eq]
    refine ⟨by simpa using hempty, .inr fun b hb => ?_⟩
    have := hkey b hb
    simpa [isDigit] using this
  rw [hindex] at h
  cases h

/-- The steps of a target are keys. -/
theorem rfcIndex_of_parseTarget {p : Bytes} {t : TargetPath} (h : parseTarget p = some t) :
    ∀ step ∈ t.steps, rfcIndex (latin1 step) = none := by
  have hbody : ∀ (body : List Bytes) (kind : CaptureKind),
      (if body.isEmpty || body.any isIndexToken then none
      else some (⟨body.map unescapeToken, kind⟩ : TargetPath)) = some t →
        ∀ step ∈ t.steps, rfcIndex (latin1 step) = none := by
    intro body kind hsome step hstep
    split at hsome
    · cases hsome
    · next hcond =>
      obtain rfl := Option.some.inj hsome
      obtain ⟨tok, htok, rfl⟩ := List.mem_map.mp hstep
      simp only [Bool.or_eq_true, not_or, Bool.not_eq_true, List.any_eq_false] at hcond
      exact rfcIndex_latin1 (by simpa using hcond.2 tok htok)
  unfold parseTarget at h
  split at h
  · dsimp only at h
    split at h
    · cases h
    · split at h
      · cases h
      · exact hbody _ _ h
  · cases h

theorem rfcAt_eq_partAt {value : Value} {segs : List Bytes} (h : ∀ seg ∈ segs, rfcIndex seg = none) :
    rfcAt value segs = partAt value segs := by
  induction segs generalizing value with
  | nil => cases value <;> rfl
  | cons seg segs ih =>
    have hrest : ∀ value, rfcAt value segs = partAt value segs := fun value =>
      ih fun x hx => h x (List.mem_cons_of_mem _ hx)
    cases value with
    | object members =>
      rw [rfcAt, partAt]
      congr 1
      funext value
      exact hrest value
    | array items =>
      rw [rfcAt, partAt, h seg List.mem_cons_self]
      · rfl
      · simp
    | null => rfl
    | bool b => rfl
    | number n => rfl
    | string s => rfl

/-- **The values of the DOM path**: the general pointer evaluator at each target. -/
theorem deriveDom_values {D : DeriveOracles} {S : Oracles} (v : SchemaValidator S) (input : Bytes)
    (targets : List TargetPath) (hok : (v.deriveDom D input targets).ok = true) :
    ∃ value, S.fromSlice input = some value ∧ v.schema value = true ∧
      ∀ (i : Nat) (t : TargetPath), targets[i]? = some t →
        (v.deriveDom D input targets).values[i]? = some
          (match t.kind, D.pointer value (pointerFor t) with
          | .length, some (.array items) => some (lengthValue items.length)
          | .length, _ => none
          | .value, x => x.map domScalar) := by
  -- The answer is only `ok` where the document parses and the schema accepts it.
  unfold SchemaValidator.deriveDom at hok ⊢
  cases hvalue : S.fromSlice input with
  | none =>
    rw [hvalue] at hok
    cases hok
  | some value =>
    rw [hvalue] at hok
    dsimp only at hok ⊢
    cases hvalid : v.schema value with
    | false =>
      rw [hvalid, if_pos rfl] at hok
      cases hok
    | true =>
      refine ⟨value, rfl, hvalid, fun i t ht => ?_⟩
      rw [if_neg (by simp)]
      dsimp only
      rw [List.getElem?_map, ht, Option.map_some]
      cases t.kind with
      | length =>
        cases D.pointer value (pointerFor t) with
        | none => rfl
        | some x => cases x <;> rfl
      | value => rfl

/-- **The DOM path follows the keys of a target**, where `Value::pointer` resolves RFC 6901 pointers:
it hands out what lies under the keys, read byte by byte as code points, or the length of an array
there. No step leads into an array. -/
theorem deriveDom_keys {D : DeriveOracles} {S : Oracles} (v : SchemaValidator S) (hdom : v.fast = none)
    (hpointer : ∀ value segs, D.pointer value (rfc6901Bytes.render segs) = rfcAt value segs)
    (input : Bytes) (paths : List Bytes) {r : JsonDeriveResult}
    (hr : v.derive D input paths = .ok r) (hok : r.ok = true) :
    ∃ value, S.fromSlice input = some value ∧ v.schema value = true ∧
      ∀ (i : Nat) (p : Bytes) (t : TargetPath), paths[i]? = some p → parseTarget p = some t →
        r.values[i]? = some (match t.kind, partAt value (t.steps.map latin1) with
          | .length, some (.array items) => some (lengthValue items.length)
          | .length, _ => none
          | .value, x => x.map domScalar) := by
  rw [SchemaValidator.derive, bind_eq_ok_iff] at hr
  obtain ⟨targets, htargets, hr⟩ := hr
  simp only [hdom] at hr
  obtain rfl := Except.ok.inj hr
  obtain ⟨value, hvalue, hvalid, hvalues⟩ := deriveDom_values v input targets hok
  refine ⟨value, hvalue, hvalid, fun i p t hp ht => ?_⟩
  have hplain : ∀ seg ∈ t.steps.map latin1, rfcIndex seg = none := by
    intro seg hseg
    obtain ⟨step, hstep, rfl⟩ := List.mem_map.mp hseg
    exact rfcIndex_of_parseTarget ht step hstep
  rw [hvalues i t (getElem?_targets htargets hp ht), pointerFor_eq, hpointer, rfcAt_eq_partAt hplain]

/-- The parser on the document `{"a":true}`. -/
def memberOracles : Oracles :=
  { Oracles.nullOnly with
    fromSlice := fun s =>
      if s = lbrace :: quote :: 97 :: quote :: colon :: (trueTok ++ [rbrace]) then
        some (.object [([97], .bool true)])
      else none }

theorem deriveDom_keys_member : ∃ value,
    memberOracles.fromSlice (lbrace :: quote :: 97 :: quote :: colon :: (trueTok ++ [rbrace])) = some value ∧
      (partAt value [[97]]).map domScalar = some { kind := "bool", boolean := some true } := by
  obtain ⟨value, hvalue, -, h⟩ := deriveDom_keys (S := memberOracles) ⟨fun _ => true, none⟩ rfl
    (D := integersOnly)
    (fun value segs => by
      change (rfc6901Bytes.parse (rfc6901Bytes.render segs)).bind (rfcAt value) = _
      rw [Escaping.parse_render]
      rfl)
    (lbrace :: quote :: 97 :: quote :: colon :: (trueTok ++ [rbrace])) [[47, 97]]
    (r := ⟨true, [some { kind := "bool", boolean := some true }]⟩) (by decide +kernel) rfl
  refine ⟨value, hvalue, ?_⟩
  have hfound := h 0 [47, 97] ⟨[[97]], .value⟩ rfl (by decide)
  simpa [show latin1 [97] = [97] by decide] using hfound.symm

/-! ## The answer

The verdict does not depend on the paths, and the values stand in their order. A path that is given
twice has its value at the last of its indices only: on the fast path the second target takes over the
end of the first one's keys in the trie. -/

section

variable {D : DeriveOracles} {S : Oracles}

/-- What the values for the targets of a valid document are. -/
def SchemaValidator.Hands (v : SchemaValidator S) (D : DeriveOracles) (input : Bytes)
    (targets : List TargetPath) (values : List (Option JsonDeriveValue)) : Prop :=
  match v.fast with
  | none => ∃ value, S.fromSlice input = some value ∧
      ∀ (i : Nat) (t : TargetPath), targets[i]? = some t → values[i]? = some
        (match t.kind, D.pointer value (pointerFor t) with
        | .length, some (.array items) => some (lengthValue items.length)
        | .length, _ => none
        | .value, x => x.map domScalar)
  | some fast => ∃ doc, IsDocument doc input ∧
      ∀ (i : Nat) (t : TargetPath), targets[i]? = some t → ∃ x, values[i]? = some x ∧
        Handed D fast doc input t (IsLast targets i t) x

end

/-- The value of a path that is given twice stands at its last index. -/
example : anyMembers.derive integersOnly [123, 34, 97, 34, 58, 55, 125] [[47, 97], [47, 97]] =
    .ok ⟨true, [none, some { kind := "int", int := some 7 }]⟩ := by decide +kernel

end Castrum
