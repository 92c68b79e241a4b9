import Castrum.Util.Bytes
import Castrum.Util.Str
import Castrum.Lib.Output

/-!
# Castrum — content negotiation (`rust/http/accept.rs`)

An `Accept-Encoding` header is parsed into names with quality values, and the supported encodings
are ranked by them. Up to 32 entries are kept on the stack, as slices of the header; a longer header
is parsed into strings, in lower case. Quality values are floats: whatever their arithmetic does, it
is the same on both paths.

* `parseAcceptEncodingCore_eq` — both parsers find the same entries;
* `refView_agrees` — an entry and its string are compared alike with an ASCII name;
* `negotiateEncoding_eq_heap` — the negotiators on the stack and on the heap agree.
-/

namespace Castrum

/-- The arithmetic of `f32`, as far as it is used. -/
structure F32 (Q : Type) where
  /-- `str::parse::<f32>`. -/
  parse : Str → Option Q
  zero : Q
  one : Q
  /-- `-1.0`. -/
  minusOne : Q
  /-- `1e-4`. -/
  tolerance : Q
  /-- `clamp(0.0, 1.0)`. -/
  clamp : Q → Q
  sub : Q → Q → Q
  abs : Q → Q
  max : Q → Q → Q
  le : Q → Q → Bool
  lt : Q → Q → Bool

/-! ## The source functions -/

/-- The heap is not asked for: only the order, a `u32`, may overflow. -/
abbrev Negotiated (α : Type) : Type := Except (Failure Unit) α

structure EncodingPref (Q : Type) where
  encoding : Str
  q : Q
  order : Nat

/-- The name is a slice of the header. -/
structure EncodingPrefRef (Q : Type) where
  name : Bytes
  q : Q
  order : Nat

section

variable {Q : Type} (F : F32 Q)

def parseQ (input : Bytes) : Option Q := do
  let s ← fromUtf8 input
  if strTrim s = [] then none else (F.parse (strTrim s)).map F.clamp

/-- What the loop makes of one part, in either parser. -/
def parsePart (part : Bytes) : Option (Bytes × Q) :=
  let part := trimAsciiWhitespace part
  if part = [] then none
  else
    let (name, q) :=
      match part.findIdx? (· = 59) with
      | some i =>
        let qpart := trimAsciiWhitespace (part.drop (i + 1))
        let q :=
          match qpart.findIdx? (· = 61) with
          | some eq => parseQ F (qpart.drop (eq + 1))
          | none => none
        (trimAsciiWhitespace (part.take i), q.getD F.one)
      | none => (part, F.one)
    if name = [] then none else some (name, q)

def parseCoreFrom : List Bytes → List (EncodingPref Q) → Nat → Negotiated (List (EncodingPref Q))
  | [], out, _ => .ok out
  | part :: parts, out, order =>
    match parsePart F part with
    | none => parseCoreFrom parts out order
    | some (name, q) =>
      let out := out ++ [{ encoding := (fromUtf8Lossy name).map Char.toLower, q, order }]
      if order + 1 < 2 ^ 32 then parseCoreFrom parts out (order + 1) else .error .panic

def parseAcceptEncodingCore (header : Bytes) : Negotiated (List (EncodingPref Q)) :=
  parseCoreFrom F (header.splitOn 44) [] 0

def maxStackPrefs : Nat := 32

/-- `none` is `usize::MAX`: there are more entries than room. -/
def parseRefsFrom (room : Nat) :
    List Bytes → List (EncodingPrefRef Q) → Nat → Option (List (EncodingPrefRef Q))
  | [], out, _ => some out
  | part :: parts, out, order =>
    match parsePart F part with
    | none => parseRefsFrom room parts out order
    | some (name, q) =>
      if room ≤ out.length then none
      else parseRefsFrom room parts (out ++ [{ name, q, order }]) (order + 1)

def parseAcceptEncodingRefs (header : Bytes) (room : Nat) : Option (List (EncodingPrefRef Q)) :=
  parseRefsFrom F room (header.splitOn 44) [] 0

/-- Lower case on the one side only. -/
def nameEqSupported (prefName supported : Bytes) : Bool :=
  prefName.length == supported.length &&
    (prefName.zip supported).all fun (a, b) => asciiLower a == b

end

/-! ### Ranking

The two negotiators differ in how an entry is compared with a supported encoding, and with `*`. -/

/-- What a negotiator asks of an entry. -/
structure PrefView (Q P : Type) where
  isExact : P → Str → Bool
  isWildcard : P → Bool
  q : P → Q
  order : P → Nat

section

variable {Q P : Type} (F : F32 Q) (view : PrefView Q P)

/-- The most specific entry for a supported encoding, and the earliest of them. -/
def matchFrom (sup : Str) : List P → Option (Q × Nat × Nat) → Option (Q × Nat × Nat)
  | [], matched => matched
  | p :: prefs, matched =>
    let spec := if view.isExact p sup then some 2 else if view.isWildcard p then some 1 else none
    match spec with
    | none => matchFrom sup prefs matched
    | some spec =>
      let replace :=
        match matched with
        | none => true
        | some (_, s, o) => decide (s < spec) || (decide (spec = s) && decide (view.order p < o))
      matchFrom sup prefs (if replace then some (view.q p, spec, view.order p) else matched)

/-- The loop over the supported encodings. -/
def bestFrom (prefs : List P) :
    List Str → Option (Str × Q × Nat × Nat) → Option (Str × Q × Nat × Nat)
  | [], best => best
  | sup :: supported, best =>
    match matchFrom view sup prefs none with
    | none => bestFrom prefs supported best
    | some (q, spec, order) =>
      if F.le q F.zero then bestFrom prefs supported best
      else
        let better :=
          match best with
          | none => true
          | some (_, bq, bspec, border) =>
            decide (bspec < spec) ||
              (decide (spec = bspec) && F.lt F.tolerance (F.abs (F.sub q bq)) && F.lt bq q) ||
              (decide (spec = bspec) && F.le (F.abs (F.sub q bq)) F.tolerance &&
                decide (order < border))
        bestFrom prefs supported (if better then some (sup, q, spec, order) else best)

def negotiateBy (supported : List Str) (prefs : List P) : Option Str :=
  (bestFrom F view prefs supported none).map (·.1)

/-- The quality of everything that is not listed. -/
def wildcardQ (prefs : List P) : Q :=
  prefs.foldl (fun q p => if view.isWildcard p then F.max q (view.q p) else q) F.minusOne

/-- The loop of the negotiators that prefer by the order of the server. -/
def serverBestFrom (prefs : List P) : List Str → Option (Str × Q) → Option (Str × Q)
  | [], best => best
  | sup :: supported, best =>
    let listed := (prefs.find? fun p => view.isExact p sup).map view.q
    let wildcard := wildcardQ F view prefs
    let q := listed.getD (if F.le F.zero wildcard then wildcard else F.minusOne)
    if F.le q F.zero then serverBestFrom prefs supported best
    else
      let better := match best with
        | none => true
        | some (_, bq) => F.lt bq q
      serverBestFrom prefs supported (if better then some (sup, q) else best)

def serverPreferenceBy (supported : List Str) (prefs : List P) : Option Str :=
  (serverBestFrom F view prefs supported none).map (·.1)

end

section

variable {Q : Type} (F : F32 Q)

def heapView : PrefView Q (EncodingPref Q) where
  isExact p sup := p.encoding == sup
  isWildcard p := p.encoding == ['*']
  q p := p.q
  order p := p.order

def refView : PrefView Q (EncodingPrefRef Q) where
  isExact p sup := nameEqSupported p.name (strBytes sup)
  isWildcard p := p.name == [42]
  q p := p.q
  order p := p.order

def negotiateEncodingHeap (supported : List Str) (header : Bytes) : Negotiated (Option Str) := do
  let prefs ← parseAcceptEncodingCore F header
  if prefs.isEmpty then .ok supported.head? else .ok (negotiateBy F heapView supported prefs)

def negotiateRefs (supported : List Str) (prefs : List (EncodingPrefRef Q)) : Option Str :=
  negotiateBy F refView supported prefs

def negotiateEncoding (supported : List Str) (header : Bytes) : Negotiated (Option Str) :=
  match parseAcceptEncodingRefs F header maxStackPrefs with
  | none => negotiateEncodingHeap F supported header
  | some prefs =>
    if prefs.length = 0 then .ok supported.head? else .ok (negotiateRefs F supported prefs)

def negotiateServerPreferenceHeap (supported : List Str) (header : Bytes) :
    Negotiated (Option Str) := do
  let prefs ← parseAcceptEncodingCore F header
  if prefs.isEmpty then .ok none else .ok (serverPreferenceBy F heapView supported prefs)

def negotiateServerPreferenceRefs (supported : List Str) (prefs : List (EncodingPrefRef Q)) :
    Option Str :=
  serverPreferenceBy F refView supported prefs

def negotiateEncodingServerPreference (supported : List Str) (header : Bytes) :
    Negotiated (Option Str) :=
  match parseAcceptEncodingRefs F header maxStackPrefs with
  | none => negotiateServerPreferenceHeap F supported header
  | some prefs =>
    if prefs.length = 0 then .ok none else .ok (negotiateServerPreferenceRefs F supported prefs)

end

/-! ## Two views of the same entries -/

section

variable {Q P P' : Type} {F : F32 Q}

/-- Entries of one kind for entries of another, as far as a negotiator can see. -/
structure PrefView.Agrees (view : PrefView Q P) (view' : PrefView Q P') (f : P → P')
    (supported : List Str) : Prop where
  isExact : ∀ p, ∀ sup ∈ supported, view'.isExact (f p) sup = view.isExact p sup
  isWildcard : ∀ p, view'.isWildcard (f p) = view.isWildcard p
  q : ∀ p, view'.q (f p) = view.q p
  order : ∀ p, view'.order (f p) = view.order p

variable {view : PrefView Q P} {view' : PrefView Q P'} {f : P → P'} {supported : List Str}

theorem matchFrom_map (h : view.Agrees view' f supported) {sup : Str} (hsup : sup ∈ supported)
    (prefs : List P) (matched : Option (Q × Nat × Nat)) :
    matchFrom view' sup (prefs.map f) matched = matchFrom view sup prefs matched := by
  induction prefs generalizing matched with
  | nil => rfl
  | cons p prefs ih =>
    rw [List.map_cons, matchFrom, matchFrom, h.isExact p sup hsup, h.isWildcard, h.q, h.order]
    dsimp only
    split
    · exact ih _
    · exact ih _

theorem bestFrom_map (h : view.Agrees view' f supported) {sups : List Str} (hsups : sups ⊆ supported)
    (prefs : List P) (best : Option (Str × Q × Nat × Nat)) :
    bestFrom F view' (prefs.map f) sups best = bestFrom F view prefs sups best := by
  induction sups generalizing best with
  | nil => rfl
  | cons sup sups ih =>
    obtain ⟨hsup, hrest⟩ := List.cons_subset.mp hsups
    rw [bestFrom, bestFrom, matchFrom_map h hsup]
    split
    · exact ih hrest _
    · split
      · exact ih hrest _
      · exact ih hrest _

/-- **A negotiator sees no difference.** -/
theorem negotiateBy_map (h : view.Agrees view' f supported) (prefs : List P) :
    negotiateBy F view' supported (prefs.map f) = negotiateBy F view supported prefs := by
  unfold negotiateBy
  rw [bestFrom_map h (List.Subset.refl _)]

theorem wildcardQ_map (h : view.Agrees view' f supported) (prefs : List P) :
    wildcardQ F view' (prefs.map f) = wildcardQ F view prefs := by
  unfold wildcardQ
  rw [List.foldl_map]
  simp only [h.isWildcard, h.q]

theorem find_map (h : view.Agrees view' f supported) {sup : Str} (hsup : sup ∈ supported)
    (prefs : List P) :
    ((prefs.map f).find? fun p => view'.isExact p sup).map view'.q =
      (prefs.find? fun p => view.isExact p sup).map view.q := by
  have hexact : (fun p => view'.isExact p sup) ∘ f = fun p => view.isExact p sup :=
    funext fun p => h.isExact p sup hsup
  rw [List.find?_map, hexact, Option.map_map]
  exact congrArg (Option.map · _) (funext h.q)

theorem serverBestFrom_map (h : view.Agrees view' f supported) {sups : List Str}
    (hsups : sups ⊆ supported) (prefs : List P) (best : Option (Str × Q)) :
    serverBestFrom F view' (prefs.map f) sups best = serverBestFrom F view prefs sups best := by
  induction sups generalizing best with
  | nil => rfl
  | cons sup sups ih =>
    obtain ⟨hsup, hrest⟩ := List.cons_subset.mp hsups
    unfold serverBestFrom
    rw [find_map h hsup, wildcardQ_map h]
    dsimp only
    generalize Option.getD _ _ = q
    split
    · exact ih hrest _
    · exact ih hrest _

theorem serverPreferenceBy_map (h : view.Agrees view' f supported) (prefs : List P) :
    serverPreferenceBy F view' supported (prefs.map f) = serverPreferenceBy F view supported prefs := by
  unfold serverPreferenceBy
  rw [serverBestFrom_map h (List.Subset.refl _)]

end

/-! ## The two parsers -/

section

variable {Q : Type} {F : F32 Q}

/-- An entry with a name of its own. -/
def EncodingPrefRef.own (r : EncodingPrefRef Q) : EncodingPref Q :=
  { encoding := (fromUtf8Lossy r.name).map Char.toLower, q := r.q, order := r.order }

/-- An encoding name of ASCII characters. -/
def IsAscii (s : Str) : Prop := ∀ c ∈ s, c.toNat < 0x80

theorem nameEqSupported_iff {name sup : Bytes} :
    nameEqSupported name sup = true ↔ name.map asciiLower = sup := by
  unfold nameEqSupported
  induction name generalizing sup with
  | nil => cases sup <;> simp
  | cons a name ih =>
    cases sup with
    | nil => simp
    | cons b sup =>
      rw [List.map_cons, List.cons.injEq, ← ih]
      simp
      tauto

/-- The string of a name is compared as its bytes are. -/
theorem encoding_own_iff {r : EncodingPrefRef Q} {sup : Str} (hsup : IsAscii sup) :
    r.own.encoding = sup ↔ r.name.map asciiLower = strBytes sup := by
  have hbytes : ∀ b ∈ strBytes sup, b < 0x80 := by
    intro b hb
    obtain ⟨c, hc, hb⟩ := List.mem_flatMap.mp hb
    have hchar := utf8EncodeChar_of_lt (hsup c hc)
    rw [Char.ofNat_toNat] at hchar
    rw [hchar] at hb
    rw [List.mem_singleton.mp hb, UInt8.lt_iff_toNat_lt, UInt8.toNat_ofNat']
    exact Nat.lt_of_le_of_lt (Nat.mod_le _ _) (hsup c hc)
  have hsup' : asciiStr (strBytes sup) = sup := by
    have hback := fromUtf8_ascii hbytes
    rw [fromUtf8_strBytes] at hback
    exact (Option.some.inj hback).symm
  rw [← fromUtf8Lossy_lower_iff hbytes, hsup']
  exact Iff.rfl

theorem isAscii_star : IsAscii ['*'] := by
  intro c hc
  rw [List.mem_singleton.mp hc]
  decide

/-- The wildcard has no case. -/
theorem lower_eq_star_iff {name : Bytes} : name.map asciiLower = [42] ↔ name = [42] := by
  have hbyte : ∀ b, asciiLower b = 42 ↔ b = 42 := forall_byte (by decide +kernel)
  rw [List.map_eq_singleton_iff]
  refine ⟨?_, ?_⟩
  · rintro ⟨b, rfl, hb⟩
    rw [(hbyte b).mp hb]
  · rintro rfl
    exact ⟨42, rfl, rfl⟩

theorem refView_agrees {supported : List Str} (h : ∀ sup ∈ supported, IsAscii sup) :
    (refView (Q := Q)).Agrees heapView EncodingPrefRef.own supported where
  isExact r sup hsup := by
    rw [Bool.eq_iff_iff, heapView, refView, beq_iff_eq, encoding_own_iff (h sup hsup),
      nameEqSupported_iff]
  isWildcard r := by
    rw [Bool.eq_iff_iff, heapView, refView, beq_iff_eq, encoding_own_iff isAscii_star, beq_iff_eq]
    exact lower_eq_star_iff
  q r := rfl
  order r := rfl

/-- **What fits on the stack is what the heap holds.** -/
theorem parseCoreFrom_eq {room : Nat} (hroom : room < 2 ^ 32) {parts : List Bytes}
    {out refs : List (EncodingPrefRef Q)} (h : parseRefsFrom F room parts out out.length = some refs) :
    parseCoreFrom F parts (out.map EncodingPrefRef.own) out.length =
      .ok (refs.map EncodingPrefRef.own) := by
  induction parts generalizing out with
  | nil =>
    rw [parseRefsFrom] at h
    rw [parseCoreFrom, Option.some.inj h]
  | cons part parts ih =>
    rw [parseRefsFrom] at h
    rw [parseCoreFrom]
    split at h
    · exact ih h
    · next name q _ =>
      split at h
      · nomatch h
      · next hfree =>
        have hpush := @ih (out ++ [{ name, q, order := out.length }]) (by rwa [List.length_append])
        rw [List.map_append, List.length_append] at hpush
        dsimp only
        rw [if_pos (by omega)]
        exact hpush

theorem parseAcceptEncodingCore_eq {header : Bytes} {refs : List (EncodingPrefRef Q)}
    (h : parseAcceptEncodingRefs F header maxStackPrefs = some refs) :
    parseAcceptEncodingCore F header = .ok (refs.map EncodingPrefRef.own) := by
  exact @parseCoreFrom_eq Q F maxStackPrefs (by decide) (header.splitOn 44) [] refs h

/-! ## The two negotiators -/

/-- **The negotiators on the stack and on the heap agree**, whatever the arithmetic of the quality
values does. -/
theorem negotiateEncoding_eq_heap (F : F32 Q) (supported : List Str)
    (h : ∀ sup ∈ supported, IsAscii sup) (header : Bytes) :
    negotiateEncoding F supported header = negotiateEncodingHeap F supported header ∧
      negotiateEncodingServerPreference F supported header =
        negotiateServerPreferenceHeap F supported header := by
  unfold negotiateEncoding negotiateEncodingServerPreference
  cases hrefs : parseAcceptEncodingRefs F header maxStackPrefs with
  | none => exact ⟨rfl, rfl⟩
  | some refs =>
    unfold negotiateEncodingHeap negotiateServerPreferenceHeap negotiateRefs
      negotiateServerPreferenceRefs
    rw [parseAcceptEncodingCore_eq hrefs, ok_bind, ok_bind, negotiateBy_map (refView_agrees h),
      serverPreferenceBy_map (refView_agrees h), List.isEmpty_map]
    cases refs <;> exact ⟨rfl, rfl⟩

end

/-- Quality values as multiples of the tolerance, with the one number that is read below. -/
def tenThousandths : F32 Int where
  parse s := if s = ['0', '.', '5'] then some 5000 else none
  zero := 0
  one := 10000
  minusOne := -10000
  tolerance := 1
  clamp x := Max.max 0 (Min.min x 10000)
  sub x y := x - y
  abs x := x.natAbs
  max x y := Max.max x y
  le x y := decide (x ≤ y)
  lt x y := decide (x < y)

/-- The client prefers the second one. -/
theorem negotiateEncoding_eq_heap_sample :
    negotiateEncoding tenThousandths [['b', 'r'], ['g', 'z']] (utf8 "br;q=0.5, GZ") =
        negotiateEncodingHeap tenThousandths [['b', 'r'], ['g', 'z']] (utf8 "br;q=0.5, GZ") ∧
      negotiateEncoding tenThousandths [['b', 'r'], ['g', 'z']] (utf8 "br;q=0.5, GZ") =
        .ok (some ['g', 'z']) := by
  have hascii : ∀ sup ∈ [['b', 'r'], ['g', 'z']], IsAscii sup := by
    intro sup hsup c hc
    have hall : ∀ sup ∈ [['b', 'r'], ['g', 'z']], ∀ c ∈ sup, c.toNat < 0x80 := by decide
    exact hall sup hsup c hc
  exact ⟨(negotiateEncoding_eq_heap tenThousandths _ hascii _).1, by decide⟩

end Castrum
