import Castrum.Crypto.CookieSign
import Castrum.Json.Decimal
import Castrum.Json.Pairs
import Castrum.Lib.Checked

/-!
# Castrum — session envelopes (`rust/crypto/session.rs`)

`seal_core` writes `{"id":"…","data":…,"exp":N}` and signs it; `open_core` verifies the signature
and scans the text for its top-level keys. The scanner keeps an index: an index that is looked at
is below the length by its type, a slice out of range is a panic, as is a depth that would become
negative. `None` of the source is `.fail ()`.

* `skipJsonValue_of_isText` — the scanner steps over a JSON value as the grammar reads it, but for
  whitespace behind it;
* `unescapeJsonId_escaped` — the id comes back byte for byte;
* `safe_scanEnvelope` — no input makes the scanner panic;
* `openCore_sealCore` — the round trip.
-/

namespace Castrum

open Ascii

/-! ## Strings -/

/-- Index of the `"` that ends a string whose body starts at `start` (`scan_json_string_end`). -/
def scanJsonStringEnd (bytes : Bytes) (start : Nat) : Option Nat :=
  if h : start < bytes.length then
    if bytes[start] = backslash then scanJsonStringEnd bytes (start + 2)
    else if bytes[start] = quote then some start
    else scanJsonStringEnd bytes (start + 1)
  else none
termination_by bytes.length - start

theorem scanJsonStringEnd_bounds {bytes : Bytes} {start stop : Nat}
    (h : scanJsonStringEnd bytes start = some stop) : start ≤ stop ∧ stop < bytes.length := by
  fun_induction scanJsonStringEnd bytes start with
  | case1 start hlt hback ih =>
    have := ih h
    omega
  | case2 start hlt hback hquote =>
    rw [Option.some.injEq] at h
    omega
  | case3 start hlt hback hquote ih =>
    have := ih h
    omega
  | case4 start hlt => cases h

/-- UTF-8 of `char::from_u32(code)`, or of U+FFFD where there is no such character. -/
def charBytes (code : Nat) : Bytes := pushCp (if isHigh code || isLow code then 0xFFFD else code)

/-- Inverse of the escaper for the id, from some position on (`unescape_json_id`). `\u00XX` is the
byte `XX`. -/
def unescapeJsonId (escaped : Bytes) : Bytes :=
  match escaped with
  | [] => []
  | b :: rest =>
    if b ≠ backslash then b :: unescapeJsonId rest
    else
      match rest with
      | [] => [backslash]
      | e :: rest =>
        match unescape e with
        | some c => c :: unescapeJsonId rest
        | none =>
          if e = 117 then
            match hex4 (rest.take 4) with
            | none => backslash :: 117 :: unescapeJsonId rest
            | some cp =>
              if cp ≤ 0xFF then UInt8.ofNat cp :: unescapeJsonId (rest.drop 4)
              else
                match if isHigh cp then lowEscape (rest.drop 4) else none with
                | some lo =>
                  charBytes (0x10000 + (cp - 0xD800) * 0x400 + (lo - 0xDC00)) ++
                    unescapeJsonId (rest.drop 10)
                | none => charBytes cp ++ unescapeJsonId (rest.drop 4)
          else backslash :: e :: unescapeJsonId rest
termination_by escaped.length
decreasing_by all_goals simp only [List.length_cons, List.length_drop]; omega

/-! ## Values -/

/-- Index behind the string whose opening quote is at `pos`. -/
def skipString (bytes : Bytes) (pos : Nat) : Except (Failure Unit) Nat :=
  orFail (.fail ()) ((scanJsonStringEnd bytes (pos + 1)).map (· + 1))

/-- The loop of `skip_json_value` over an object or array: only brackets of its own kind are
counted. -/
def skipNested (bytes : Bytes) (opening closing : UInt8) (depth e : Nat) :
    Except (Failure Unit) Nat :=
  if h : e < bytes.length then
    if bytes[e] = quote then
      -- string inside
      match hstop : scanJsonStringEnd bytes (e + 1) with
      | none => .error (.fail ())
      | some stop => skipNested bytes opening closing depth (stop + 1)
    else if bytes[e] = opening then skipNested bytes opening closing (depth + 1) (e + 1)
    else if bytes[e] = closing then
      if depth = 0 then .error .panic
      else if depth - 1 = 0 then .ok (e + 1)
      else skipNested bytes opening closing (depth - 1) (e + 1)
    else skipNested bytes opening closing depth (e + 1)
  else .error (.fail ())
termination_by bytes.length - e
decreasing_by
  · have := scanJsonStringEnd_bounds hstop
    omega
  all_goals omega

/-- A byte of a number, `true`, `false` or `null`: anything but a delimiter. -/
def isScalarByte (b : UInt8) : Bool := b ≠ comma && b ≠ rbrace && b ≠ rbracket

/-- Skip one JSON value; the end offset (`skip_json_value`). -/
def skipJsonValue (bytes : Bytes) (pos : Nat) : Except (Failure Unit) Nat :=
  match bytes[pos]? with
  | none => .error (.fail ())
  | some b =>
    if b = quote then skipString bytes pos
    else if b = lbrace then skipNested bytes lbrace rbrace 0 pos
    else if b = lbracket then skipNested bytes lbracket rbracket 0 pos
    else .ok (pos + ((bytes.drop pos).takeWhile isScalarByte).length)

/-! ## The envelope -/

/-- What the scan has found so far. -/
structure Envelope where
  id : Option Bytes
  data : Option Bytes
  exp : Option Int64

/-- The key whose opening quote is at `pos`, and the position of its value. -/
def keyAt (bytes : Bytes) (pos : Nat) : Except (Failure Unit) (Bytes × Nat) := do
  let kstart := pos + 1
  let kend := kstart + ((bytes.drop kstart).takeWhile (· ≠ quote)).length
  if bytes.length ≤ kend then .error (.fail ()) else
  let key ← sliceOf bytes kstart kend
  if bytes[kend + 1]? ≠ some colon then .error (.fail ()) else
  let vs := kend + 2
  .ok (key, vs + ((bytes.drop vs).takeWhile (· = 32)).length)

/-- The value of `key` at `vs`; the position behind it, and what has been found with it. -/
def valueAt (bytes key : Bytes) (vs : Nat) (found : Envelope) :
    Except (Failure Unit) (Nat × Envelope) :=
  if key = utf8 "id" then
    if bytes[vs]? ≠ some quote then .error (.fail ()) else do
    let stop ← orFail (.fail ()) (scanJsonStringEnd bytes (vs + 1))
    let body ← sliceOf bytes (vs + 1) stop
    .ok (stop + 1, { found with id := some (unescapeJsonId body) })
  else if key = utf8 "exp" then do
    let ve := vs + ((bytes.drop vs).takeWhile fun b => isDigit b || b = minus).length
    let text ← sliceOf bytes vs ve
    .ok (ve, { found with exp := if validUtf8 text then parseI64 text else none })
  else if key = utf8 "data" then do
    let ve ← skipJsonValue bytes vs
    let data ← sliceOf bytes vs ve
    .ok (ve, { found with data := some data })
  else do
    let ve ← skipJsonValue bytes vs
    .ok (ve, found)

/-- One round of the scan: a member of the envelope, or a byte that is none. -/
def envelopeStep (bytes : Bytes) (pos : Nat) (h : pos < bytes.length) (found : Envelope) :
    Except (Failure Unit) (Nat × Envelope) :=
  if bytes[pos] = quote then do
    let (key, vs) ← keyAt bytes pos
    valueAt bytes key vs found
  else .ok (pos + 1, found)

/-- The scan of `open_core`; out of fuel is a panic. -/
def scanEnvelope (bytes : Bytes) : Nat → Nat → Envelope → Except (Failure Unit) Envelope
  | 0, _, _ => .error .panic
  | n + 1, pos, found =>
    if h : pos < bytes.length then do
      let (pos, found) ← envelopeStep bytes pos h found
      scanEnvelope bytes n pos found
    else .ok found

/-- Build the envelope of `id`, `dataJson` and `expSecs` and sign it (`seal_core`). -/
def sealCore (H : Hmac) (id dataJson : Bytes) (expSecs : Int64) (secret : Bytes) :
    Except (Failure Unit) Bytes := do
  if id = [] ∨ secret = [] then .error (.fail ()) else
  let head : Bytes := lbrace :: utf8 "\"id\":\""
  let room := List.replicate (jsonEscapedLen id) 0
  let (_, json) ← orFail .panic (writeJsonEscaped { written := head, room := room } id)
  let json := json.written ++ (utf8 "\",\"data\":" ++ (dataJson ++ (utf8 ",\"exp\":" ++
    (i64Text expSecs ++ [rbrace]))))
  .ok (signCookieBytes H json (H.new secret))

/-- Verify a token and extract `exp`, `id` and `data` (`open_core`). -/
def openCore (H : Hmac) (token secret : Bytes) : Except (Failure Unit) (Int64 × Bytes × Bytes) := do
  if secret = [] then .error (.fail ()) else
  let json ← orFail (.fail ()) (verifyCookieBytes H token (H.new secret))
  let found ← scanEnvelope json (json.length + 1) 1 { id := none, data := none, exp := none }
  let id ← orFail (.fail ()) found.id
  if id = [] then .error (.fail ()) else
  .ok (found.exp.getD 0, id, found.data.getD (utf8 "\x7b\x7d"))

/-! ## No panic -/

section

variable {bytes : Bytes}

theorem safe_skipString (pos : Nat) :
    Safe (fun ve => pos < ve ∧ ve ≤ bytes.length) (skipString bytes pos) := by
  apply Safe.orFail
  intro ve hve
  obtain ⟨stop, hstop, rfl⟩ := Option.map_eq_some_iff.mp hve
  have := scanJsonStringEnd_bounds hstop
  omega

/-- Inside a container the depth is positive, and stays so until the end is found. -/
theorem safe_skipNested {opening closing : UInt8} {depth e : Nat} (hdepth : 0 < depth) :
    Safe (fun ve => e < ve ∧ ve ≤ bytes.length) (skipNested bytes opening closing depth e) := by
  fun_induction skipNested bytes opening closing depth e with
  | case1 => exact Safe.fail ()
  | case2 depth e h hquote stop hstop ih =>
    have hbounds := scanJsonStringEnd_bounds hstop
    exact (ih hdepth).imp fun ve hve => ⟨by omega, hve.2⟩
  | case3 depth e h hquote hopen ih =>
    exact (ih (Nat.succ_pos depth)).imp fun ve hve => ⟨by omega, hve.2⟩
  | case4 e h hquote hopen hclose => exact absurd hdepth (Nat.lt_irrefl 0)
  | case5 depth e h hquote hopen hclose hpos hend =>
    exact Safe.ok ⟨Nat.lt_succ_self e, h⟩
  | case6 depth e h hquote hopen hclose hpos hmore ih =>
    exact (ih (Nat.pos_of_ne_zero hmore)).imp fun ve hve => ⟨by omega, hve.2⟩
  | case7 depth e h hquote hopen hclose ih =>
    exact (ih hdepth).imp fun ve hve => ⟨by omega, hve.2⟩
  | case8 => exact Safe.fail ()

/-- The first bracket makes the depth one. -/
theorem skipNested_first {opening closing : UInt8} {pos : Nat} (hne : opening ≠ quote)
    (h : bytes[pos]? = some opening) :
    skipNested bytes opening closing 0 pos = skipNested bytes opening closing 1 (pos + 1) := by
  obtain ⟨hlt, hget⟩ := List.getElem?_eq_some_iff.mp h
  rw [skipNested, dif_pos hlt, hget, if_neg hne, if_pos rfl]

theorem safe_skipJsonValue (pos : Nat) :
    Safe (fun ve => pos ≤ ve ∧ ve ≤ bytes.length) (skipJsonValue bytes pos) := by
  unfold skipJsonValue
  split
  · exact Safe.fail ()
  · next b hb =>
    have hlt := (List.getElem?_eq_some_iff.mp hb).1
    have hnested : ∀ closing, b ≠ quote →
        Safe (fun ve => pos ≤ ve ∧ ve ≤ bytes.length) (skipNested bytes b closing 0 pos) := by
      intro closing hne
      rw [skipNested_first hne hb]
      exact (safe_skipNested Nat.one_pos).imp fun ve hve => ⟨by omega, hve.2⟩
    split
    · exact (safe_skipString pos).imp fun ve hve => ⟨by omega, hve.2⟩
    · next hne =>
      split
      · next heq =>
        subst heq
        exact hnested rbrace hne
      · split
        · next heq =>
          subst heq
          exact hnested rbracket hne
        · have hrun := (List.takeWhile_prefix isScalarByte (l := bytes.drop pos)).length_le
          rw [List.length_drop] at hrun
          exact Safe.ok ⟨Nat.le_add_right _ _, by omega⟩

theorem length_run_le (p : UInt8 → Bool) {pos : Nat} (h : pos ≤ bytes.length) :
    pos + ((bytes.drop pos).takeWhile p).length ≤ bytes.length := by
  have hrun := (List.takeWhile_prefix p (l := bytes.drop pos)).length_le
  rw [List.length_drop] at hrun
  omega

theorem safe_keyAt (pos : Nat) :
    Safe (fun r => pos < r.2 ∧ r.2 ≤ bytes.length) (keyAt bytes pos) := by
  unfold keyAt
  dsimp only
  split
  · exact Safe.fail ()
  · next hkend =>
    refine (safe_sliceOf (Nat.le_add_right _ _) (Nat.le_of_not_le hkend)).bind fun key _ => ?_
    split
    · exact Safe.fail ()
    · next hcolon =>
      have hlt := (List.getElem?_eq_some_iff.mp (not_not.mp hcolon)).1
      exact Safe.ok ⟨by omega, length_run_le _ hlt⟩

theorem safe_valueAt (key : Bytes) {vs : Nat} (h : vs ≤ bytes.length) (found : Envelope) :
    Safe (fun r => vs ≤ r.1 ∧ r.1 ≤ bytes.length) (valueAt bytes key vs found) := by
  unfold valueAt
  split
  · split
    · exact Safe.fail ()
    · refine (Safe.orFail fun stop hstop => scanJsonStringEnd_bounds hstop).bind ?_
      intro stop hstop
      refine (safe_sliceOf hstop.1 hstop.2.le).bind fun body _ => ?_
      exact Safe.ok ⟨by omega, hstop.2⟩
  split
  · have hrun : vs + ((bytes.drop vs).takeWhile fun b => isDigit b || b = minus).length ≤
        bytes.length := length_run_le _ h
    refine (safe_sliceOf (Nat.le_add_right _ _) hrun).bind fun text _ => ?_
    exact Safe.ok ⟨Nat.le_add_right _ _, hrun⟩
  split
  · refine (safe_skipJsonValue vs).bind fun ve hve => ?_
    exact (safe_sliceOf hve.1 hve.2).bind fun data _ => Safe.ok hve
  · exact (safe_skipJsonValue vs).bind fun ve hve => Safe.ok hve

/-- Every round gets on. -/
theorem safe_envelopeStep {pos : Nat} (h : pos < bytes.length) (found : Envelope) :
    Safe (fun r => pos < r.1 ∧ r.1 ≤ bytes.length) (envelopeStep bytes pos h found) := by
  unfold envelopeStep
  split
  · refine (safe_keyAt pos).bind fun r hr => ?_
    exact (safe_valueAt r.1 hr.2 found).imp fun r' hr' => ⟨by omega, hr'.2⟩
  · exact Safe.ok ⟨Nat.lt_succ_self pos, h⟩

/-- **The scan ends, and in bounds.** Induction on the fuel, which is more than what is left. -/
theorem safe_scanEnvelope {n pos : Nat} (hn : bytes.length - pos < n) (found : Envelope) :
    Safe (fun _ => True) (scanEnvelope bytes n pos found) := by
  induction n generalizing pos found with
  | zero => omega
  | succ n ih =>
    rw [scanEnvelope]
    split
    · next h =>
      refine (safe_envelopeStep h found).bind fun r hr => ?_
      exact ih (by omega) r.2
    · exact Safe.ok trivial

end

/-- **No token makes `open_core` panic**, signed or not. -/
theorem openCore_ne_panic (H : Hmac) (token secret : Bytes) :
    openCore H token secret ≠ .error .panic := by
  apply Safe.ne_panic (P := fun _ => True)
  unfold openCore
  split
  · exact Safe.fail ()
  · refine (Safe.orFail (P := fun _ => True) fun _ _ => trivial).bind fun json _ => ?_
    refine (safe_scanEnvelope (by omega) _).bind fun found _ => ?_
    refine (Safe.orFail (P := fun _ => True) fun _ _ => trivial).bind fun id _ => ?_
    split
    · exact Safe.fail ()
    · exact Safe.ok trivial

/-! ## Stepping over a value -/

/-- A byte that is no quote, bracket or comma. -/
def IsBare (b : UInt8) : Prop :=
  b ≠ quote ∧ b ≠ comma ∧ b ≠ lbracket ∧ b ≠ rbracket ∧ b ≠ lbrace ∧ b ≠ rbrace

instance (b : UInt8) : Decidable (IsBare b) := inferInstanceAs (Decidable (_ ∧ _))

theorem IsBare.isScalarByte {b : UInt8} (h : IsBare b) : isScalarByte b = true := by
  obtain ⟨-, hcomma, -, hbracket, -, hbrace⟩ := h
  simp only [Castrum.isScalarByte, Bool.and_eq_true, decide_eq_true_eq]
  exact ⟨⟨hcomma, hbrace⟩, hbracket⟩

theorem IsBare.of_isDigit {b : UInt8} (h : isDigit b = true) : IsBare b := by
  have key : ∀ b, isDigit b = true → IsBare b := forall_byte (by decide +kernel)
  exact key b h

theorem IsBare.of_isWs {b : UInt8} (h : isWs b = true) : IsBare b := by
  have key : ∀ b, isWs b = true → IsBare b := forall_byte (by decide +kernel)
  exact key b h

theorem IsDigits.bare {ds : Bytes} (h : IsDigits ds) : ∀ b ∈ ds, IsBare b :=
  fun b hb => .of_isDigit (h.2 b hb)

theorem IsNumber.bare {tok : Bytes} (h : IsNumber tok) : ∀ b ∈ tok, IsBare b := by
  obtain ⟨m, i, f, e, hm, hi, hf, he, rfl⟩ := h
  have hminus : ∀ b ∈ m, IsBare b := by
    obtain rfl | rfl := hm
    all_goals decide
  have hint : ∀ b ∈ i, IsBare b := by
    obtain rfl | ⟨hi, -⟩ := hi
    · decide
    · exact hi.bare
  have hfrac : ∀ b ∈ f, IsBare b := by
    obtain rfl | ⟨ds, hds, rfl⟩ := hf
    · decide
    · exact List.forall_mem_cons.mpr ⟨by decide, hds.bare⟩
  have hexp : ∀ b ∈ e, IsBare b := by
    obtain rfl | ⟨c, sign, ds, hc, hsign, hds, rfl⟩ := he
    · decide
    · refine List.forall_mem_cons.mpr ⟨?_, List.forall_mem_append.mpr ⟨?_, hds.bare⟩⟩
      · obtain rfl | rfl := hc
        all_goals decide
      · obtain rfl | rfl | rfl := hsign
        all_goals decide
  exact List.forall_mem_append.mpr ⟨hminus, List.forall_mem_append.mpr
    ⟨hint, List.forall_mem_append.mpr ⟨hfrac, hexp⟩⟩⟩

/-- A number, `true`, `false` or `null`. -/
def Json.isBare : Json → Bool
  | .null => true
  | .bool _ => true
  | .num _ => true
  | _ => false

theorem ValueText.bare {T : Json → Bytes → Prop} {v : Json} {s : Bytes} (h : ValueText T v s)
    (hv : v.isBare = true) : ∀ b ∈ s, IsBare b := by
  cases v with
  | null =>
    rw [show s = nullTok from h]
    decide
  | bool b =>
    rw [show s = if b then trueTok else falseTok from h]
    cases b
    all_goals decide
  | num tok =>
    obtain ⟨rfl, htok⟩ := h
    exact htok.bare
  | str raw => cases hv
  | arr items => cases hv
  | obj members => cases hv

section

variable {bytes t : Bytes} {e depth : Nat}

theorem scanJsonStringEnd_of_drop {body : Bytes} (hbody : IsStringBody body)
    (h : bytes.drop e = body ++ quote :: t) :
    scanJsonStringEnd bytes e = some (e + body.length) := by
  induction hbody generalizing e with
  | nil =>
    rw [scanJsonStringEnd, dif_pos (lt_length_of_drop h), getElem_of_drop h, if_neg (by decide),
      if_pos rfl]
    rfl
  | @plain b r hquote hback _ _ ih =>
    rw [scanJsonStringEnd, dif_pos (lt_length_of_drop h), getElem_of_drop h, if_neg hback,
      if_neg hquote, ih (drop_succ_of_drop h), List.length_cons]
    congr 1
    omega
  | @escape c r _ _ ih =>
    have htail : bytes.drop (e + 2) = r ++ quote :: t := drop_of_drop (s := [backslash, c]) h
    rw [scanJsonStringEnd, dif_pos (lt_length_of_drop h), getElem_of_drop h, if_pos rfl, ih htail,
      List.length_cons, List.length_cons]
    congr 1
    omega

variable {opening closing : UInt8}

/-- The loop over a container steps over `s`, at the same depth. -/
def Passes (opening closing : UInt8) (s : Bytes) : Prop :=
  ∀ (bytes t : Bytes) (e depth : Nat), 0 < depth → bytes.drop e = s ++ t →
    skipNested bytes opening closing depth e = skipNested bytes opening closing depth (e + s.length)

theorem Passes.nil : Passes opening closing [] := fun _ _ _ _ _ _ => rfl

theorem Passes.append {s₁ s₂ : Bytes} (h₁ : Passes opening closing s₁)
    (h₂ : Passes opening closing s₂) : Passes opening closing (s₁ ++ s₂) := by
  intro bytes t e depth hdepth h
  rw [List.append_assoc] at h
  rw [h₁ _ _ _ _ hdepth h, h₂ _ _ _ _ hdepth (drop_of_drop h), List.length_append, Nat.add_assoc]

theorem Passes.byte {b : UInt8} (hquote : b ≠ quote) (hopen : b ≠ opening) (hclose : b ≠ closing) :
    Passes opening closing [b] := by
  intro bytes t e depth _ h
  rw [skipNested, dif_pos (lt_length_of_drop h), getElem_of_drop h, if_neg hquote, if_neg hopen,
    if_neg hclose]
  rfl

theorem Passes.of_forall {s : Bytes}
    (h : ∀ b ∈ s, b ≠ quote ∧ b ≠ opening ∧ b ≠ closing) : Passes opening closing s := by
  induction s with
  | nil => exact Passes.nil
  | cons b s ih =>
    obtain ⟨⟨hquote, hopen, hclose⟩, hs⟩ := List.forall_mem_cons.mp h
    exact (Passes.byte hquote hopen hclose).append (ih hs)

/-- A string inside is stepped over as a whole, whatever brackets are in it. -/
theorem Passes.string {raw : Bytes} (hraw : IsStringBody raw) :
    Passes opening closing (quote :: (raw ++ [quote])) := by
  intro bytes t e depth _ h
  rw [List.cons_append, List.append_assoc, List.singleton_append] at h
  have htail := drop_succ_of_drop h
  rw [skipNested, dif_pos (lt_length_of_drop h), getElem_of_drop h, if_pos rfl]
  split
  · next hstop =>
    rw [scanJsonStringEnd_of_drop hraw htail] at hstop
    cases hstop
  · next stop hstop =>
    rw [scanJsonStringEnd_of_drop hraw htail, Option.some.injEq] at hstop
    rw [← hstop, List.length_cons, List.length_append, List.length_singleton]
    congr 1
    omega

/-- A container of the counted kind: the depth goes up and comes down again. -/
theorem Passes.nested {s : Bytes} (hs : Passes opening closing s) (hopen : opening ≠ quote)
    (hclose : closing ≠ quote) (hne : closing ≠ opening) :
    Passes opening closing (opening :: (s ++ [closing])) := by
  intro bytes t e depth _ h
  rw [List.cons_append, List.append_assoc, List.singleton_append] at h
  have hinner := drop_succ_of_drop h
  have hend := drop_of_drop hinner
  rw [skipNested, dif_pos (lt_length_of_drop h), getElem_of_drop h, if_neg hopen, if_pos rfl,
    hs _ _ _ _ (Nat.succ_pos depth) hinner, skipNested, dif_pos (lt_length_of_drop hend),
    getElem_of_drop hend, if_neg hclose, if_neg hne, if_pos rfl, if_neg (Nat.succ_ne_zero depth),
    Nat.succ_sub_one, if_neg (by omega), List.length_cons, List.length_append,
    List.length_singleton]
  congr 1
  omega

/-- One of the two kinds of brackets. -/
def IsPair (x y : UInt8) : Prop := x = lbrace ∧ y = rbrace ∨ x = lbracket ∧ y = rbracket

variable (hpair : IsPair opening closing)

include hpair

/-- Brackets of the other kind are not counted. -/
theorem Passes.container {x y : UInt8} (hxy : IsPair x y) {s : Bytes}
    (hs : Passes opening closing s) : Passes opening closing (x :: (s ++ [y])) := by
  obtain ⟨rfl, rfl⟩ | ⟨rfl, rfl⟩ := hpair
  · obtain ⟨rfl, rfl⟩ | ⟨rfl, rfl⟩ := hxy
    · exact hs.nested (by decide) (by decide) (by decide)
    · exact (Passes.byte (by decide) (by decide) (by decide)).append
        (hs.append (Passes.byte (by decide) (by decide) (by decide)))
  · obtain ⟨rfl, rfl⟩ | ⟨rfl, rfl⟩ := hxy
    · exact (Passes.byte (by decide) (by decide) (by decide)).append
        (hs.append (Passes.byte (by decide) (by decide) (by decide)))
    · exact hs.nested (by decide) (by decide) (by decide)

theorem Passes.bare {s : Bytes} (h : ∀ b ∈ s, IsBare b) : Passes opening closing s := by
  apply Passes.of_forall
  intro b hb
  obtain ⟨hquote, -, hlbracket, hrbracket, hlbrace, hrbrace⟩ := h b hb
  obtain ⟨rfl, rfl⟩ | ⟨rfl, rfl⟩ := hpair
  · exact ⟨hquote, hlbrace, hrbrace⟩
  · exact ⟨hquote, hlbracket, hrbracket⟩

theorem Passes.ws {ws : Bytes} (h : IsWs ws) : Passes opening closing ws :=
  Passes.bare hpair fun b hb => .of_isWs (h b hb)

theorem Passes.comma : Passes opening closing [comma] := by
  obtain ⟨rfl, rfl⟩ | ⟨rfl, rfl⟩ := hpair
  all_goals exact Passes.byte (by decide) (by decide) (by decide)

variable {T : Json → Bytes → Prop} (hT : ∀ v s, T v s → Passes opening closing s)

include hT

theorem Elements.passes {vs : List Json} {s : Bytes} (h : Elements T vs s) :
    Passes opening closing s := by
  induction h with
  | one h₁ hv h₂ => exact (Passes.ws hpair h₁).append ((hT _ _ hv).append (Passes.ws hpair h₂))
  | cons h₁ hv h₂ _ ih =>
    exact (Passes.ws hpair h₁).append ((hT _ _ hv).append
      ((Passes.ws hpair h₂).append ((Passes.comma hpair).append ih)))

theorem Member.passes {m : Bytes × Json} {s : Bytes} (h : Member T m s) :
    Passes opening closing s := by
  cases h with
  | @mk w₁ w₂ w₃ s w₄ raw v h₁ hraw h₂ h₃ hv h₄ =>
    have hcolon : Passes opening closing [colon] := Passes.bare hpair (by decide)
    have hvalue := (Passes.ws hpair h₂).append (hcolon.append
      ((Passes.ws hpair h₃).append ((hT _ _ hv).append (Passes.ws hpair h₄))))
    have hmember := (Passes.ws hpair h₁).append ((Passes.string hraw).append hvalue)
    simpa only [List.cons_append, List.append_assoc, List.nil_append] using hmember

theorem Members.passes {ms : List (Bytes × Json)} {s : Bytes} (h : Members T ms s) :
    Passes opening closing s := by
  induction h with
  | one hm => exact hm.passes hpair hT
  | cons hm _ ih => exact (hm.passes hpair hT).append ((Passes.comma hpair).append ih)

theorem ValueText.passes {v : Json} {s : Bytes} (h : ValueText T v s) :
    Passes opening closing s := by
  cases hv : v with
  | str raw =>
    subst hv
    obtain ⟨rfl, hraw⟩ := h
    exact Passes.string hraw
  | arr items =>
    subst hv
    obtain ⟨body, rfl, ⟨-, hbody⟩ | hbody⟩ := h
    · exact Passes.container hpair (.inr ⟨rfl, rfl⟩) (Passes.ws hpair hbody)
    · exact Passes.container hpair (.inr ⟨rfl, rfl⟩) (hbody.passes hpair hT)
  | obj members =>
    subst hv
    obtain ⟨body, rfl, ⟨-, hbody⟩ | hbody⟩ := h
    · exact Passes.container hpair (.inl ⟨rfl, rfl⟩) (Passes.ws hpair hbody)
    · exact Passes.container hpair (.inl ⟨rfl, rfl⟩) (hbody.passes hpair hT)
  | _ => exact Passes.bare hpair (h.bare (by rw [hv]; rfl))

omit hT

/-- **The loop over a container steps over every value in it.** -/
theorem IsText.passes {v : Json} {s : Bytes} (h : IsText v s) : Passes opening closing s := by
  obtain ⟨n, hn⟩ := h
  induction n generalizing v s with
  | zero => exact ValueText.passes hpair (fun _ _ hf => hf.elim) hn
  | succ n ih => exact ValueText.passes hpair (fun _ _ ht => ih ht) hn

end

section

variable {bytes s w t : Bytes} {v : Json} {pos : Nat}

/-- The text of a value with whitespace behind it, as it is cut out: a number or literal goes on up
to the comma. -/
def dataRead (v : Json) (s w : Bytes) : Bytes := s ++ if v.isBare then w else []

theorem skipNested_container {opening closing : UInt8} (hs : Passes opening closing s)
    (hopen : opening ≠ quote) (hclose : closing ≠ quote) (hne : closing ≠ opening)
    (h : bytes.drop pos = opening :: (s ++ closing :: t)) :
    skipNested bytes opening closing 0 pos = .ok (pos + s.length + 2) := by
  have hinner := drop_succ_of_drop h
  have hend := drop_of_drop hinner
  rw [skipNested_first hopen (getElem?_of_drop h), hs _ _ _ _ Nat.one_pos hinner, skipNested,
    dif_pos (lt_length_of_drop hend), getElem_of_drop hend, if_neg hclose, if_neg hne, if_pos rfl,
    if_neg Nat.one_ne_zero, if_pos rfl]
  congr 1
  omega

/-- **The scanner steps over a value**, and over the whitespace behind a number or literal. -/
theorem skipJsonValue_of_isText (hs : IsText v s) (hw : IsWs w)
    (h : bytes.drop pos = s ++ (w ++ comma :: t)) :
    skipJsonValue bytes pos = .ok (pos + (dataRead v s w).length) := by
  have hvalue := (isText_iff v s).mp hs
  cases hv : v with
  | str raw =>
    subst hv
    obtain ⟨rfl, hraw⟩ := hvalue
    rw [List.cons_append, List.append_assoc, List.singleton_append] at h
    rw [skipJsonValue, getElem?_of_drop h]
    show skipString bytes pos = _
    rw [skipString, scanJsonStringEnd_of_drop hraw (drop_succ_of_drop h), Option.map_some,
      orFail_some]
    simp only [dataRead, Json.isBare, Bool.false_eq_true, if_false, List.append_nil,
      List.length_cons, List.length_append, List.length_nil]
    congr 1
    omega
  | arr items =>
    subst hv
    obtain ⟨body, rfl, hbody⟩ := hvalue
    have hpass : Passes lbracket rbracket body := by
      have hpair : IsPair lbracket rbracket := .inr ⟨rfl, rfl⟩
      obtain ⟨-, hbody⟩ | hbody := hbody
      · exact Passes.ws hpair hbody
      · exact hbody.passes hpair fun _ _ ht => ht.passes hpair
    rw [List.cons_append, List.append_assoc, List.singleton_append] at h
    rw [skipJsonValue, getElem?_of_drop h]
    show skipNested bytes lbracket rbracket 0 pos = _
    rw [skipNested_container hpass (by decide) (by decide) (by decide) h]
    simp only [dataRead, Json.isBare, Bool.false_eq_true, if_false, List.append_nil,
      List.length_cons, List.length_append, List.length_nil]
    congr 1
  | obj members =>
    subst hv
    obtain ⟨body, rfl, hbody⟩ := hvalue
    have hpass : Passes lbrace rbrace body := by
      have hpair : IsPair lbrace rbrace := .inl ⟨rfl, rfl⟩
      obtain ⟨-, hbody⟩ | hbody := hbody
      · exact Passes.ws hpair hbody
      · exact hbody.passes hpair fun _ _ ht => ht.passes hpair
    rw [List.cons_append, List.append_assoc, List.singleton_append] at h
    rw [skipJsonValue, getElem?_of_drop h]
    show skipNested bytes lbrace rbrace 0 pos = _
    rw [skipNested_container hpass (by decide) (by decide) (by decide) h]
    simp only [dataRead, Json.isBare, Bool.false_eq_true, if_false, List.append_nil,
      List.length_cons, List.length_append, List.length_nil]
    congr 1
  | _ =>
    -- a bare value runs on to the comma, over the whitespace behind it
    have hvb : v.isBare = true := by
      rw [hv]
      rfl
    have hbare : ∀ b ∈ s ++ w, IsBare b := List.forall_mem_append.mpr
      ⟨hvalue.bare hvb, fun b hb => .of_isWs (hw b hb)⟩
    have hrun : (bytes.drop pos).takeWhile isScalarByte = s ++ w := by
      rw [h, ← List.append_assoc, List.takeWhile_append_of_pos fun b hb =>
        (hbare b hb).isScalarByte, List.takeWhile_cons_of_neg (by decide), List.append_nil]
    obtain ⟨b, r, rfl, -⟩ := hs.starts
    obtain ⟨hquote, -, hlbracket, -, hlbrace, -⟩ := hbare b List.mem_cons_self
    rw [← hv, skipJsonValue, getElem?_of_drop h]
    dsimp only
    rw [if_neg hquote, if_neg hlbrace, if_neg hlbracket, hrun, dataRead, if_pos hvb]

/-! ## The id -/

theorem unescapeJsonId_plain {b : UInt8} (h : b ≠ backslash) (r : Bytes) :
    unescapeJsonId (b :: r) = b :: unescapeJsonId r := by
  rw [unescapeJsonId.eq_def]
  exact if_pos h

theorem unescapeJsonId_letter {e c : UInt8} (h : unescape e = some c) (r : Bytes) :
    unescapeJsonId (backslash :: e :: r) = c :: unescapeJsonId r := by
  rw [unescapeJsonId.eq_def]
  dsimp only
  rw [if_neg (by decide)]
  simp only [h]

/-- `\u00XX` is the byte `XX`. -/
theorem unescapeJsonId_unicodeEscape (b : UInt8) (r : Bytes) :
    unescapeJsonId (unicodeEscape b ++ r) = b :: unescapeJsonId r := by
  have hlt := UInt8.toNat_lt b
  have hhex : hex4 (List.take 4 (48 :: 48 :: hexDigit (b >>> 4) :: hexDigit (b &&& 0x0f) :: r)) =
      some b.toNat := hex4_unicodeEscape b
  show unescapeJsonId (backslash :: 117 :: 48 :: 48 :: hexDigit (b >>> 4) ::
    hexDigit (b &&& 0x0f) :: r) = _
  rw [unescapeJsonId.eq_def]
  dsimp only
  rw [if_neg (by decide)]
  simp only [show unescape 117 = none from rfl, if_true, hhex]
  rw [if_pos (by omega), UInt8.ofNat_toNat]
  rfl

theorem unescapeJsonId_escapeByte (b : UInt8) (r : Bytes) :
    unescapeJsonId (escapeByte b ++ r) = b :: unescapeJsonId r := by
  unfold escapeByte escapeControl
  split
  · next h => rw [h]; exact unescapeJsonId_letter (c := quote) rfl r
  split
  · next h => rw [h]; exact unescapeJsonId_letter (c := backslash) rfl r
  split
  · next h => rw [h]; exact unescapeJsonId_letter (c := 10) rfl r
  split
  · next h => rw [h]; exact unescapeJsonId_letter (c := 13) rfl r
  split
  · next h => rw [h]; exact unescapeJsonId_letter (c := 9) rfl r
  split
  · next h => rw [h]; exact unescapeJsonId_letter (c := 8) rfl r
  split
  · next h => rw [h]; exact unescapeJsonId_letter (c := 12) rfl r
  split
  · exact unescapeJsonId_unicodeEscape b r
  · next hback _ _ _ _ _ _ => exact unescapeJsonId_plain hback r

/-- **The id comes back byte for byte**, UTF-8 or not. -/
theorem unescapeJsonId_escaped (id : Bytes) : unescapeJsonId (escaped id) = id := by
  have hflat : ∀ f : UInt8 → Bytes,
      (∀ b r, unescapeJsonId (f b ++ r) = b :: unescapeJsonId r) →
        ∀ id : Bytes, unescapeJsonId (id.flatMap f) = id := by
    intro f hf id
    induction id with
    | nil => rw [List.flatMap_nil, unescapeJsonId]
    | cons b id ih => rw [List.flatMap_cons, hf, ih]
  unfold escaped
  split
  · exact hflat escapeByte unescapeJsonId_escapeByte id
  · exact hflat unicodeEscape unescapeJsonId_unicodeEscape id

end

/-! ## The scan of a sealed envelope -/

section

variable {bytes key t : Bytes} {pos vs : Nat} {found : Envelope}

theorem scanEnvelope_step {pos' : Nat} {found' : Envelope} (n : Nat) (h : pos < bytes.length)
    (hstep : envelopeStep bytes pos h found = .ok (pos', found')) :
    scanEnvelope bytes (n + 1) pos found = scanEnvelope bytes n pos' found' := by
  rw [scanEnvelope, dif_pos h, hstep, ok_bind]

theorem scanEnvelope_others {p : Bytes} (hp : ∀ b ∈ p, b ≠ quote) (n : Nat)
    (h : bytes.drop pos = p ++ t) :
    scanEnvelope bytes (n + p.length) pos found = scanEnvelope bytes n (pos + p.length) found := by
  induction p generalizing pos with
  | nil => rfl
  | cons b p ih =>
    obtain ⟨hb, hp⟩ := List.forall_mem_cons.mp hp
    have hstep : envelopeStep bytes pos (lt_length_of_drop h) found = .ok (pos + 1, found) := by
      rw [envelopeStep, getElem_of_drop h, if_neg hb]
    rw [List.length_cons, ← Nat.add_assoc, scanEnvelope_step _ _ hstep,
      ih hp (drop_succ_of_drop h)]
    congr 1
    omega

theorem scanEnvelope_end (n : Nat) (h : bytes.drop pos = []) :
    scanEnvelope bytes (n + 1) pos found = .ok found := by
  rw [scanEnvelope, dif_neg (Nat.not_lt.mpr (List.drop_eq_nil_iff.mp h))]

/-- A key without quotes, and a value that does not start with a space. -/
theorem keyAt_of_drop (hkey : ∀ b ∈ key, b ≠ quote) (hspace : ∀ b ∈ t.head?, b ≠ 32)
    (h : bytes.drop pos = quote :: (key ++ quote :: colon :: t)) :
    keyAt bytes pos = .ok (key, pos + (key.length + 3)) := by
  have hstart := drop_succ_of_drop h
  have hend := drop_of_drop hstart
  have hcolon := drop_succ_of_drop hend
  have hrun : (bytes.drop (pos + 1)).takeWhile (· ≠ quote) = key := by
    rw [hstart, List.takeWhile_append_of_pos fun b hb => decide_eq_true (hkey b hb),
      List.takeWhile_cons_of_neg (by decide), List.append_nil]
  have hspaces : (bytes.drop (pos + 1 + key.length + 2)).takeWhile (· = 32) = [] := by
    rw [drop_succ_of_drop hcolon]
    cases t with
    | nil => rfl
    | cons b t => exact List.takeWhile_cons_of_neg (by simpa using hspace b rfl)
  have hlt := lt_length_of_drop hend
  unfold keyAt
  dsimp only
  rw [hrun, if_neg (Nat.not_le.mpr hlt), sliceOf_of_drop (by omega) hstart, ok_bind,
    getElem?_of_drop hcolon, if_neg (not_not.mpr rfl), hspaces, List.length_nil]
  congr 2
  omega

theorem drop_value (h : bytes.drop pos = quote :: (key ++ quote :: colon :: t)) :
    bytes.drop (pos + (key.length + 3)) = t := by
  have hvalue : bytes.drop pos = (quote :: (key ++ [quote, colon])) ++ t := by
    rw [h, List.cons_append, List.append_assoc]
    rfl
  have := drop_of_drop hvalue
  rwa [List.length_cons, List.length_append] at this

theorem drop_string {body : Bytes} (h : bytes.drop pos = quote :: (body ++ quote :: t)) :
    bytes.drop (pos + (body.length + 2)) = t := by
  have hstring : bytes.drop pos = (quote :: (body ++ [quote])) ++ t := by
    rw [h, List.cons_append, List.append_assoc]
    rfl
  have := drop_of_drop hstring
  rwa [List.length_cons, List.length_append] at this

/-- One member: its key, and what its value adds. -/
theorem scanEnvelope_member {pos' : Nat} {found' : Envelope} (hkey : ∀ b ∈ key, b ≠ quote)
    (hspace : ∀ b ∈ t.head?, b ≠ 32) (n : Nat)
    (h : bytes.drop pos = quote :: (key ++ quote :: colon :: t))
    (hvalue : valueAt bytes key (pos + (key.length + 3)) found = .ok (pos', found')) :
    scanEnvelope bytes (n + 1) pos found = scanEnvelope bytes n pos' found' := by
  have hstep : envelopeStep bytes pos (lt_length_of_drop h) found = .ok (pos', found') := by
    rw [envelopeStep, getElem_of_drop h, if_pos rfl, keyAt_of_drop hkey hspace h, ok_bind]
    exact hvalue
  exact scanEnvelope_step n _ hstep

theorem valueAt_id {body : Bytes} (hbody : IsStringBody body)
    (h : bytes.drop vs = quote :: (body ++ quote :: t)) :
    valueAt bytes (utf8 "id") vs found =
      .ok (vs + (body.length + 2), { found with id := some (unescapeJsonId body) }) := by
  have hstart := drop_succ_of_drop h
  have hlt := lt_length_of_drop h
  rw [valueAt, if_pos rfl, getElem?_of_drop h, if_neg (not_not.mpr rfl),
    scanJsonStringEnd_of_drop hbody hstart, orFail_some, ok_bind, sliceOf_of_drop hlt hstart,
    ok_bind]
  congr 2
  omega

theorem valueAt_data {v : Json} {s w : Bytes} (hs : IsText v s) (hw : IsWs w)
    (h : bytes.drop vs = s ++ (w ++ comma :: t)) :
    valueAt bytes (utf8 "data") vs found =
      .ok (vs + (dataRead v s w).length, { found with data := some (dataRead v s w) }) := by
  obtain ⟨rest, hrest⟩ : ∃ rest, bytes.drop vs = dataRead v s w ++ rest := by
    unfold dataRead
    split
    · exact ⟨comma :: t, by rw [h, List.append_assoc]⟩
    · exact ⟨w ++ comma :: t, by rw [h, List.append_nil]⟩
  have hlt : vs < bytes.length := by
    obtain ⟨b, r, rfl, -⟩ := hs.starts
    exact lt_length_of_drop h
  rw [valueAt, if_neg (by decide), if_neg (by decide), if_pos rfl,
    skipJsonValue_of_isText hs hw h, ok_bind, sliceOf_of_drop hlt.le hrest, ok_bind]

theorem valueAt_exp (x : Int64) (h : bytes.drop vs = i64Text x ++ rbrace :: t) :
    valueAt bytes (utf8 "exp") vs found =
      .ok (vs + (i64Text x).length, { found with exp := some x }) := by
  have hdigits : ∀ b ∈ i64Text x, (isDigit b || b = minus) = true := by
    intro b hb
    rw [Bool.or_eq_true, decide_eq_true_eq]
    exact digits_or_minus_of_mem_i64Text hb
  have hrun : ((bytes.drop vs).takeWhile fun b => isDigit b || b = minus) = i64Text x := by
    rw [h, List.takeWhile_append_of_pos hdigits, List.takeWhile_cons_of_neg (by decide),
      List.append_nil]
  have hascii : validUtf8 (i64Text x) = true := by
    apply validUtf8_ascii
    intro b hb
    have key : ∀ b, (isDigit b || b = minus) = true → b < 0x80 := forall_byte (by decide +kernel)
    exact key b (hdigits b hb)
  have hle : vs ≤ bytes.length := by
    have hlen := congrArg List.length h
    rw [List.length_drop, List.length_append, List.length_cons] at hlen
    omega
  rw [valueAt, if_neg (by decide), if_pos rfl]
  dsimp only
  rw [hrun, sliceOf_of_drop hle h, ok_bind, if_pos hascii, parseI64_i64Text]

end

/-- The envelope as `seal_core` writes it, member by member. -/
def envelopeText (body data : Bytes) (expSecs : Int64) : Bytes :=
  lbrace :: quote :: (utf8 "id" ++ quote :: colon :: quote :: (body ++ quote :: comma :: quote ::
    (utf8 "data" ++ quote :: colon :: (data ++ comma :: quote :: (utf8 "exp" ++ quote :: colon ::
      (i64Text expSecs ++ [rbrace]))))))

theorem sealCore_eq (H : Hmac) {id secret : Bytes} (hid : id ≠ []) (hsecret : secret ≠ [])
    (dataJson : Bytes) (expSecs : Int64) :
    sealCore H id dataJson expSecs secret =
      .ok (signCookieBytes H (envelopeText (escaped id) dataJson expSecs) (H.new secret)) := by
  have hwrite : ∀ head : Bytes, writeJsonEscaped
      { written := head, room := List.replicate (jsonEscapedLen id) 0 } id =
        some ((escaped id).length, { written := head ++ escaped id, room := [] }) := by
    intro head
    have hroom : (escaped id).length ≤ (List.replicate (jsonEscapedLen id) (0 : UInt8)).length := by
      rw [List.length_replicate, jsonEscapedLen_eq]
    rw [writeJsonEscaped_eq, Out.put_of_le hroom, Option.map_some, ← jsonEscapedLen_eq,
      List.drop_replicate, Nat.sub_self, List.replicate_zero]
  rw [sealCore, if_neg (not_or.mpr ⟨hid, hsecret⟩)]
  dsimp only
  rw [hwrite, orFail_some, ok_bind]
  have hid : utf8 "\"id\":\"" = quote :: (utf8 "id" ++ [quote, colon, quote]) := by decide
  have hdata : utf8 "\",\"data\":" = quote :: comma :: quote :: (utf8 "data" ++ [quote, colon]) := by
    decide
  have hexp : utf8 ",\"exp\":" = comma :: quote :: (utf8 "exp" ++ [quote, colon]) := by decide
  rw [hid, hdata, hexp, envelopeText]
  simp only [List.cons_append, List.append_assoc, List.nil_append]

/-- **The scanner reads an envelope as it was written.** -/
theorem scanEnvelope_envelopeText {body s w : Bytes} {v : Json} (hbody : IsStringBody body)
    (hs : IsText v s) (hw : IsWs w) (expSecs : Int64) {n : Nat}
    (hn : (envelopeText body (s ++ w) expSecs).length ≤ n) :
    scanEnvelope (envelopeText body (s ++ w) expSecs) n 1
        { id := none, data := none, exp := none } =
      .ok { id := some (unescapeJsonId body), data := some (dataRead v s w),
            exp := some expSecs } := by
  -- what is left of the data behind the part that is cut out
  obtain ⟨left, hleft, hcut⟩ : ∃ left, IsWs left ∧ s ++ w = dataRead v s w ++ left := by
    unfold dataRead
    split
    · exact ⟨[], IsWs.nil, (List.append_nil _).symm⟩
    · exact ⟨w, hw, by rw [List.append_nil]⟩
  have hpunct : ∀ b ∈ left ++ [comma], b ≠ quote := by
    refine List.forall_mem_append.mpr ⟨fun b hb => ?_, by decide⟩
    exact (IsBare.of_isWs (hleft b hb)).1
  obtain ⟨m, rfl⟩ : ∃ m, n =
      m + 1 + [rbrace].length + 1 + (left ++ [comma]).length + 1 + [comma].length + 1 := by
    have hlen := congrArg List.length hcut
    simp only [envelopeText, List.length_append, List.length_cons, List.length_nil] at hlen hn ⊢
    exact ⟨n - (left.length + 7), by omega⟩
  have hspace : ∀ b ∈ (s ++ (w ++ comma :: quote :: (utf8 "exp" ++ quote :: colon ::
      (i64Text expSecs ++ [rbrace])))).head?, b ≠ 32 := by
    intro b hb hne
    have := (hs.starts.append _).head b hb
    rw [hne] at this
    cases this
  have hdigits : ∀ b ∈ (i64Text expSecs ++ [rbrace]).head?, b ≠ 32 := by
    intro b hb hne
    obtain hmem | hmem := List.mem_append.mp (List.mem_of_mem_head? hb)
    · have := digits_or_minus_of_mem_i64Text hmem
      rw [hne] at this
      revert this
      decide
    · rw [List.mem_singleton.mp hmem] at hne
      cases hne
  have hid : (envelopeText body (s ++ w) expSecs).drop 1 = quote :: (utf8 "id" ++ quote :: colon ::
      quote :: (body ++ quote :: comma :: quote :: (utf8 "data" ++ quote :: colon ::
        (s ++ (w ++ comma :: quote :: (utf8 "exp" ++ quote :: colon ::
          (i64Text expSecs ++ [rbrace]))))))) := by
    rw [envelopeText, List.append_assoc]
    rfl
  have hidValue := drop_value hid
  have hquote : ∀ t : Bytes, ∀ b ∈ (quote :: t).head?, b ≠ 32 := by
    intro t b hb
    rw [← Option.some.inj hb]
    decide
  rw [scanEnvelope_member (by decide) (hquote _) _ hid (valueAt_id hbody hidValue)]
  have hcomma := drop_string hidValue
  rw [scanEnvelope_others (p := [comma]) (by decide) _ hcomma]
  have hdata := drop_of_drop (s := [comma]) hcomma
  have hdataValue := drop_value hdata
  rw [scanEnvelope_member (by decide) hspace _ hdata (valueAt_data hs hw hdataValue)]
  have hrest := drop_of_drop (s := dataRead v s w) (hdataValue.trans (by
    rw [← List.append_assoc, hcut, List.append_assoc]))
  have hpunctuation : left ++ comma :: quote :: (utf8 "exp" ++ quote :: colon ::
      (i64Text expSecs ++ [rbrace])) = (left ++ [comma]) ++ quote :: (utf8 "exp" ++ quote ::
        colon :: (i64Text expSecs ++ [rbrace])) := by
    rw [List.append_assoc]
    rfl
  rw [hpunctuation] at hrest
  rw [scanEnvelope_others hpunct _ hrest]
  have hexp := drop_of_drop hrest
  have hexpValue := drop_value hexp
  rw [scanEnvelope_member (by decide) hdigits _ hexp (valueAt_exp expSecs hexpValue)]
  have hbrace := drop_of_drop hexpValue
  rw [scanEnvelope_others (p := [rbrace]) (by decide) _ hbrace]
  exact scanEnvelope_end m (drop_of_drop (s := [rbrace]) hbrace)

theorem openCore_signCookieBytes (H : Hmac) (hlen : ∀ key value, (H.sign key value).length = 32)
    {id secret s w : Bytes} {v : Json} (hid : id ≠ []) (hsecret : secret ≠ []) (hs : IsText v s)
    (hw : IsWs w) (expSecs : Int64) :
    openCore H (signCookieBytes H (envelopeText (escaped id) (s ++ w) expSecs) (H.new secret))
      secret = .ok (expSecs, id, dataRead v s w) := by
  have hverify := verifyCookieBytes_signCookieBytes H
    (envelopeText (escaped id) (s ++ w) expSecs) (H.new secret) (hlen _ _)
  have hscan := scanEnvelope_envelopeText (isStringBody_escaped id) hs hw expSecs
    (Nat.le_succ (envelopeText (escaped id) (s ++ w) expSecs).length)
  rw [unescapeJsonId_escaped] at hscan
  rw [openCore, if_neg hsecret, hverify, orFail_some, ok_bind, hscan, ok_bind, orFail_some, ok_bind,
    if_neg hid]
  rfl

/-- **Round trip.** What `seal_core` seals, `open_core` opens under the same key: the expiry, the id
and the data as they were, but for whitespace behind a string, array or object. And no token, with
whatever signature, makes it read out of range. -/
theorem openCore_sealCore (H : Hmac) (hlen : ∀ key value, (H.sign key value).length = 32)
    {id secret s w : Bytes} {v : Json} (hid : id ≠ []) (hsecret : secret ≠ []) (hs : IsText v s)
    (hw : IsWs w) (expSecs : Int64) :
    (∃ token, sealCore H id (s ++ w) expSecs secret = .ok token ∧
      openCore H token secret = .ok (expSecs, id, dataRead v s w)) ∧
    ∀ token secret, openCore H token secret ≠ .error .panic :=
  ⟨⟨_, sealCore_eq H hid hsecret (s ++ w) expSecs,
    openCore_signCookieBytes H hlen hid hsecret hs hw expSecs⟩, openCore_ne_panic H⟩

/-- HMAC-SHA256 on one input: the tag of the envelope below under the key `k`. -/
def sampleHmac : Hmac where
  Key := Bytes
  new := id
  sign _ _ := [
    162, 20, 104, 250, 121, 246, 242, 163, 133, 151, 168, 246, 236, 188, 204, 157, 23, 239, 207,
    151, 151, 138, 181, 33, 19, 95, 247, 140, 227, 239, 78, 3]

/-- The session `{"n":7}` in the envelope `{"id":"a","data":{"n":7} ,"exp":1700000000}`. -/
def sampleData : Bytes := utf8 "\x7b\"n\":7\x7d"

theorem isText_sampleData : IsText (.obj [(utf8 "n", .num (utf8 "7"))]) sampleData := by
  have hseven : IsText (.num (utf8 "7")) (utf8 "7") :=
    (isText_iff _ _).mpr ⟨rfl, [], utf8 "7", [], [], .inl rfl, .inr ⟨⟨by decide, by decide⟩, by decide⟩,
      .inl rfl, .inl rfl, rfl⟩
  have hmember : Member IsText (utf8 "n", .num (utf8 "7")) ([] ++ (quote :: (utf8 "n" ++ (quote ::
      ([] ++ (colon :: ([] ++ (utf8 "7" ++ [])))))))) :=
    .mk IsWs.nil (isStringBody_plain (by decide)) IsWs.nil IsWs.nil hseven IsWs.nil
  exact (isText_iff _ _).mpr ⟨_, rfl, .inr (.one hmember)⟩

theorem openCore_sealCore_space :
    (∃ token, sealCore sampleHmac (utf8 "a") (sampleData ++ utf8 " ") 1700000000 (utf8 "k") = .ok token ∧
      openCore sampleHmac token (utf8 "k") = .ok (1700000000, utf8 "a",
        dataRead (.obj [(utf8 "n", .num (utf8 "7"))]) sampleData (utf8 " "))) ∧
    ∀ token secret, openCore sampleHmac token secret ≠ .error .panic :=
  openCore_sealCore sampleHmac (fun _ _ => rfl) (by decide) (by decide) isText_sampleData
    (by unfold IsWs; decide) 1700000000

/-- **A space behind the data is lost**, though the text is valid and has none in front. -/
theorem openCore_drops_space :
    ∃ token, IsDocument (.obj [(utf8 "n", .num (utf8 "7"))]) (sampleData ++ utf8 " ") ∧
      (∀ b ∈ (sampleData ++ utf8 " ").head?, isWs b = false) ∧
      sealCore sampleHmac (utf8 "a") (sampleData ++ utf8 " ") 1700000000 (utf8 "k") = .ok token ∧
      openCore sampleHmac token (utf8 "k") ≠ .ok (1700000000, utf8 "a", sampleData ++ utf8 " ") := by
  have hws : IsWs (utf8 " ") := by
    unfold IsWs
    decide
  refine ⟨_, ⟨[], _, _, rfl, IsWs.nil, isText_sampleData, hws⟩, by decide,
    sealCore_eq sampleHmac (by decide) (by decide) _ 1700000000, ?_⟩
  rw [openCore_signCookieBytes sampleHmac (fun _ _ => rfl) (by decide) (by decide) isText_sampleData hws
    1700000000]
  intro heq
  injection heq with heq
  injection heq with _ heq
  injection heq with _ heq
  exact absurd heq (by decide)

end Castrum
