import Castrum.Http.TokenCase
import Castrum.Http.UrlJoin
import Castrum.Ingress.Origin

/-!
# Castrum — the configured CORS methods (`rust/ingress/cors.rs`, `rust/http/method.rs`)

The list of allowed methods becomes a bit set when the engine is made. The empty set also stands for a
list that was not given, which means `GET`, `HEAD` and `POST`.

* `asciiEqIgnoreCase_iff` — comparing by words is comparing without regard to case, for short names
  of letters;
* `fromStr_eq_iff` / `fromBytesIgnoreCase_eq` — the two classifications of a method;
* `methodBitsFrom_spec` — what the bit set says of the list;
* `allowMethods_iff` — when the engine allows exactly the methods of the list.
-/

namespace Castrum

/-! ## The source -/

/-- ASCII uppercasing of one byte. -/
def asciiUpper (b : UInt8) : UInt8 := if 97 ≤ b ∧ b ≤ 122 then b - 32 else b

namespace MethodKind

/-- `MethodKind::from_str`, on the bytes of the text: exact, by length and word. -/
def fromStr (bytes : Bytes) : MethodKind :=
  let loaded := loadU64Padded bytes
  match bytes.length with
  | 3 =>
    if loaded = loadU64Padded (utf8 "GET") then .get
    else if loaded = loadU64Padded (utf8 "PUT") then .put
    else .other
  | 4 =>
    if loaded = loadU64Padded (utf8 "POST") then .post
    else if loaded = loadU64Padded (utf8 "HEAD") then .head
    else .other
  | 5 => if loaded = loadU64Padded (utf8 "PATCH") then .patch else .other
  | 6 => if loaded = loadU64Padded (utf8 "DELETE") then .delete else .other
  | 7 => if loaded = loadU64Padded (utf8 "OPTIONS") then .options else .other
  | _ => .other

end MethodKind

/-- `CorsOptions`. -/
structure CorsOptions where
  allowOrigin : Option (List Str) := none
  allowMethods : Option (List Str) := none
  allowHeaders : Option (List Str) := none
  allowCredentials : Option Bool := none
  deriving DecidableEq, Repr

/-- The method an entry of the list names: without the space around it, in capitals. -/
def methodEntry (raw : Str) : Bytes := (strBytes (strTrim raw)).map asciiUpper

/-- The loop over the list: whether `*` was met, and the bits so far. -/
def methodBitsFrom : List Str → UInt16 → Bool × UInt16
  | [], bits => (false, bits)
  | raw :: list, bits =>
    if strTrim raw = ['*'] then (true, 0)
    else if strTrim raw = [] then methodBitsFrom list bits
    else
      let kind := MethodKind.fromStr (methodEntry raw)
      methodBitsFrom list (if kind ≠ .other then bits ||| kind.bit else bits)

def parseAllowedMethodsBitset (list : Option (List Str)) : Bool × UInt16 :=
  match list with
  | none => (false, 0)
  | some list => methodBitsFrom list 0

def headerNamesFrom : List Str → List Bytes → Bool × List Bytes
  | [], headers => (false, headers)
  | raw :: list, headers =>
    if strTrim raw = ['*'] then (true, [])
    else if strTrim raw = [] then headerNamesFrom list headers
    else headerNamesFrom list (headers ++ [(strBytes (strTrim raw)).map asciiLower])

def parseAllowedHeaders (list : Option (List Str)) : Bool × List Bytes :=
  match list with
  | none => (false, [])
  | some list => headerNamesFrom list []

def corsModeOf (allowOrigin : Option (List Str)) (credentials : Bool) : Except String CorsMode :=
  match allowOrigin.filter (· ≠ []) with
  | some list =>
    if ['*'] ∈ list then
      if credentials then
        .error "CORS allowCredentials cannot be used with allowOrigin ['*']"
      else .ok .wildcard
    else .ok (.allowlist (list.map strBytes))
  | none =>
    if credentials then .error "CORS allowCredentials requires an explicit allowOrigin list"
    else .ok .wildcard

def CorsEngine.fromOptions (opts : Option CorsOptions) : Except String CorsEngine :=
  match opts with
  | none => .ok {}
  | some opts => do
    let credentials := opts.allowCredentials.getD false
    let mode ← corsModeOf opts.allowOrigin credentials
    let (methodsWildcard, methodBits) := parseAllowedMethodsBitset opts.allowMethods
    let (headersWildcard, headers) := parseAllowedHeaders opts.allowHeaders
    .ok { mode, credentials, methodsWildcard, methodBits, headersWildcard, headers }

/-! ## Words and letters -/

def isCapital (b : UInt8) : Bool := 65 ≤ b && b ≤ 90

/-- What the case bit does to the capitals, and which bytes it makes one of their small letters. -/
theorem caseBit_table (b : UInt8) :
    (isCapital b = true → (b ||| 32) - 32 = b) ∧
    (isCapital ((b ||| 32) - 32) = true → asciiUpper b = (b ||| 32) - 32) ∧
    (isCapital (asciiUpper b) = true → b ||| 32 = asciiUpper b ||| 32) := by
  have key : ∀ b, (isCapital b = true → (b ||| 32) - 32 = b) ∧
      (isCapital ((b ||| 32) - 32) = true → asciiUpper b = (b ||| 32) - 32) ∧
      (isCapital (asciiUpper b) = true → b ||| 32 = asciiUpper b ||| 32) :=
    forall_byte (by decide +kernel)
  exact key b

/-- Against a capital, the case bit is all that is ignored. -/
theorem or_32_eq_iff {b c : UInt8} (hc : isCapital c = true) :
    b ||| 32 = c ||| 32 ↔ asciiUpper b = c := by
  have hback := (caseBit_table c).1 hc
  constructor
  · intro h
    have hb : isCapital ((b ||| 32) - 32) = true := by
      rw [h, hback]
      exact hc
    rw [(caseBit_table b).2.1 hb, h, hback]
  · intro h
    rw [(caseBit_table b).2.2 (by rw [h]; exact hc), h]

/-- **Names without regard to case**: against a short name in capitals, the words compare as the names
in capitals do. -/
theorem asciiEqIgnoreCase_iff {b name : Bytes} (hname : name.all isCapital = true)
    (hpos : 0 < name.length) (hle : name.length ≤ 8) :
    asciiEqIgnoreCase b name = true ↔ b.map asciiUpper = name := by
  have hmap : ∀ {p q : Bytes}, q.all isCapital = true →
      (p.map (· ||| 32) = q.map (· ||| 32) ↔ p.map asciiUpper = q) := by
    intro p q hq
    induction p generalizing q with
    | nil =>
      cases q with
      | nil => exact ⟨fun _ => rfl, fun _ => rfl⟩
      | cons c q => simp
    | cons x p ih =>
      cases q with
      | nil => simp
      | cons c q =>
        rw [List.all_cons, Bool.and_eq_true] at hq
        rw [List.map_cons, List.map_cons, List.map_cons, List.cons.injEq, List.cons.injEq,
          or_32_eq_iff hq.1, ih hq.2]
  unfold asciiEqIgnoreCase
  by_cases hlen : b.length = name.length
  · rw [if_neg (by simpa using hlen), if_neg (by omega), if_pos (by omega), decide_eq_true_iff,
      caseWord_eq_iff hlen (by omega)]
    exact hmap hname
  · rw [if_pos hlen]
    constructor
    · intro h
      cases h
    · intro h
      exact absurd (by rw [← h, List.length_map]) hlen

/-! ## The two classifications -/

namespace MethodKind

/-- The name of a method that has one. -/
def name : MethodKind → Bytes
  | get => utf8 "GET"
  | head => utf8 "HEAD"
  | post => utf8 "POST"
  | put => utf8 "PUT"
  | patch => utf8 "PATCH"
  | delete => utf8 "DELETE"
  | options => utf8 "OPTIONS"
  | other => []

theorem fromStr_name {kind : MethodKind} (hkind : kind ≠ .other) : fromStr kind.name = kind := by
  cases kind with
  | other => exact absurd rfl hkind
  | _ => decide

/-- One test of the classification, by the word of a name of the same length. -/
theorem eq_of_test {b name : Bytes} {found rest kind : MethodKind} (hlen : b.length = name.length)
    (hle : name.length ≤ 8)
    (h : (if loadU64Padded b = loadU64Padded name then found else rest) = kind) :
    (b = name ∧ found = kind) ∨ rest = kind := by
  rw [if_congr (loadU64Padded_eq_iff hlen (hlen ▸ hle)) rfl rfl] at h
  split at h
  · next hb => exact .inl ⟨hb, h⟩
  · exact .inr h

/-- The exact classification answers a method exactly for its name. -/
theorem fromStr_eq_iff {kind : MethodKind} (hkind : kind ≠ .other) {b : Bytes} :
    fromStr b = kind ↔ b = kind.name := by
  constructor
  · intro h
    unfold fromStr at h
    dsimp only at h
    -- by length: the names of that length, one after the other
    split at h
    · next hlen =>
      rcases eq_of_test hlen (by decide) h with ⟨hb, rfl⟩ | h
      · exact hb
      rcases eq_of_test hlen (by decide) h with ⟨hb, rfl⟩ | h
      · exact hb
      exact absurd h.symm hkind
    · next hlen =>
      rcases eq_of_test hlen (by decide) h with ⟨hb, rfl⟩ | h
      · exact hb
      rcases eq_of_test hlen (by decide) h with ⟨hb, rfl⟩ | h
      · exact hb
      exact absurd h.symm hkind
    · next hlen =>
      rcases eq_of_test hlen (by decide) h with ⟨hb, rfl⟩ | h
      · exact hb
      exact absurd h.symm hkind
    · next hlen =>
      rcases eq_of_test hlen (by decide) h with ⟨hb, rfl⟩ | h
      · exact hb
      exact absurd h.symm hkind
    · next hlen =>
      rcases eq_of_test hlen (by decide) h with ⟨hb, rfl⟩ | h
      · exact hb
      exact absurd h.symm hkind
    · exact absurd h.symm hkind
  · rintro rfl
    exact fromStr_name hkind

/-- Without regard to case a method is classified as its capitals are. -/
theorem fromBytesIgnoreCase_eq (b : Bytes) :
    fromBytesIgnoreCase b = fromStr (b.map asciiUpper) := by
  have htest : ∀ kind : MethodKind, kind ≠ .other →
      (asciiEqIgnoreCase b kind.name = true ↔ fromStr (b.map asciiUpper) = kind) := by
    intro kind hkind
    rw [fromStr_eq_iff hkind]
    apply asciiEqIgnoreCase_iff
    · cases kind <;> decide
    · cases kind with
      | other => exact absurd rfl hkind
      | _ => decide
    · cases kind <;> decide
  have hchain : fromBytesIgnoreCase b = if 7 < b.length then .other
      else if asciiEqIgnoreCase b get.name then .get
      else if asciiEqIgnoreCase b head.name then .head
      else if asciiEqIgnoreCase b post.name then .post
      else if asciiEqIgnoreCase b put.name then .put
      else if asciiEqIgnoreCase b patch.name then .patch
      else if asciiEqIgnoreCase b delete.name then .delete
      else if asciiEqIgnoreCase b options.name then .options
      else .other := rfl
  rw [hchain]
  simp only [htest get (by decide), htest head (by decide), htest post (by decide),
    htest put (by decide), htest patch (by decide), htest delete (by decide),
    htest options (by decide)]
  cases hkind : fromStr (b.map asciiUpper) with
  | other => simp
  | _ =>
    -- a name has at most seven letters
    have hname := (fromStr_eq_iff (by decide)).mp hkind
    have hlen := congrArg List.length hname
    rw [List.length_map] at hlen
    rw [if_neg (by rw [hlen]; decide)]
    rfl

end MethodKind

/-! ## The bit set -/

theorem bit_and_bit (j k : MethodKind) : j.bit &&& k.bit ≠ 0 ↔ j = k := by
  cases j <;> cases k <;> decide

theorem bit_ne_zero (k : MethodKind) : k.bit ≠ 0 := by cases k <;> decide

/-- The method that an entry adds to the set. -/
def Adds (raw : Str) (kind : MethodKind) : Prop :=
  MethodKind.fromStr (methodEntry raw) = kind ∧ kind ≠ .other

theorem not_adds_of_blank {raw : Str} (hblank : strTrim raw = []) (kind : MethodKind) :
    ¬ Adds raw kind := by
  rintro ⟨hkind, hne⟩
  apply hne
  rw [← hkind, methodEntry, hblank]
  rfl

/-- One entry of the list, which is not `*`: a step of the loop that adds what the entry names. -/
theorem methodBitsFrom_cons {raw : Str} (hstar : strTrim raw ≠ ['*']) (list : List Str)
    (bits : UInt16) : ∃ added : UInt16, methodBitsFrom (raw :: list) bits =
        methodBitsFrom list (bits ||| added) ∧
      (∀ kind : MethodKind, added &&& kind.bit ≠ 0 ↔ Adds raw kind) ∧
      (added ≠ 0 ↔ ∃ kind, Adds raw kind) := by
  rw [methodBitsFrom, if_neg hstar]
  -- A blank entry and an unknown method add no bit; a known one adds its own.
  by_cases hblank : strTrim raw = []
  · refine ⟨0, ?_, ?_, ?_⟩
    · rw [if_pos hblank, UInt16.or_zero]
    · intro kind
      simpa using not_adds_of_blank hblank kind
    · simpa using not_adds_of_blank hblank
  · rw [if_neg hblank]
    by_cases hkind : MethodKind.fromStr (methodEntry raw) = .other
    · have hnone : ∀ kind, ¬ Adds raw kind := fun kind h => h.2 (h.1.symm.trans hkind)
      refine ⟨0, ?_, ?_, ?_⟩
      · simp only [hkind, ne_eq, not_true_eq_false, if_false, UInt16.or_zero]
      · intro kind
        simpa using hnone kind
      · simpa using hnone
    · refine ⟨(MethodKind.fromStr (methodEntry raw)).bit, ?_, ?_, ?_⟩
      · simp only [ne_eq, hkind, not_false_eq_true, if_true]
      · intro kind
        rw [bit_and_bit]
        constructor
        · rintro rfl
          exact ⟨rfl, hkind⟩
        · rintro ⟨h, -⟩
          exact h
      · exact ⟨fun _ => ⟨_, rfl, hkind⟩, fun _ => bit_ne_zero _⟩

/-- **What the loop gathers**: the methods that the entries name, and nothing only if none of them
names one. -/
theorem methodBitsFrom_spec {list : List Str} (hstar : ∀ raw ∈ list, strTrim raw ≠ ['*'])
    (bits : UInt16) :
    (methodBitsFrom list bits).1 = false ∧
    (∀ kind : MethodKind, (methodBitsFrom list bits).2 &&& kind.bit ≠ 0 ↔
      bits &&& kind.bit ≠ 0 ∨ ∃ raw ∈ list, Adds raw kind) ∧
    ((methodBitsFrom list bits).2 ≠ 0 ↔ bits ≠ 0 ∨ ∃ raw ∈ list, ∃ kind, Adds raw kind) := by
  induction list generalizing bits with
  | nil => exact ⟨rfl, fun kind => by simp [methodBitsFrom], by simp [methodBitsFrom]⟩
  | cons raw list ih =>
    obtain ⟨added, hstep, hadds, hany⟩ :=
      methodBitsFrom_cons (hstar raw List.mem_cons_self) list bits
    obtain ⟨hwild, hmem, hzero⟩ :=
      ih (fun raw hraw => hstar raw (List.mem_cons_of_mem _ hraw)) (bits ||| added)
    rw [hstep]
    refine ⟨hwild, ?_, ?_⟩
    · intro kind
      have hor : (bits ||| added) &&& kind.bit ≠ 0 ↔ bits &&& kind.bit ≠ 0 ∨ Adds raw kind := by
        have hsplit : (bits ||| added) &&& kind.bit = (bits &&& kind.bit) ||| (added &&& kind.bit) :=
          UInt16.toBitVec_inj.mp BitVec.and_or_distrib_right
        rw [← hadds kind, hsplit, ne_eq, UInt16.or_eq_zero_iff]
        exact not_and_or
      rw [hmem kind, hor, List.exists_mem_cons_iff, or_assoc]
    · have hor : bits ||| added ≠ 0 ↔ bits ≠ 0 ∨ ∃ kind, Adds raw kind := by
        rw [← hany, ne_eq, UInt16.or_eq_zero_iff]
        exact not_and_or
      rw [hzero, hor, List.exists_mem_cons_iff, or_assoc]

/-! ## The engine and its list -/

/-- The methods of a list, by the code's rules of case. -/
def listedMethods (list : List Str) : List Bytes := list.map methodEntry

/-- Some entry is one of the seven methods the code knows. -/
def Recognised (list : List Str) : Prop :=
  ∃ method ∈ listedMethods list, MethodKind.fromStr method ≠ .other

/-- The methods that an empty bit set stands for. -/
def MethodKind.isDefault (kind : MethodKind) : Bool :=
  kind = .get || kind = .head || kind = .post

/-- **Where the bit set says what the list says**: of a method the code knows, if the list has one
too, or if the method is none of the defaults; and of any other method, if it is not listed. -/
def MethodExact (list : List Str) (method : Bytes) : Prop :=
  (MethodKind.fromStr method ≠ .other ∧
    (Recognised list ∨ (MethodKind.fromStr method).isDefault = false)) ∨
  (MethodKind.fromStr method = .other ∧ method ∉ listedMethods list)

theorem exists_adds_iff {list : List Str} {method : Bytes}
    (hkind : MethodKind.fromStr method ≠ .other) :
    (∃ raw ∈ list, Adds raw (MethodKind.fromStr method)) ↔ method ∈ listedMethods list := by
  have hname := (MethodKind.fromStr_eq_iff hkind).mp rfl
  rw [listedMethods, List.mem_map]
  constructor
  · rintro ⟨raw, hraw, hentry, -⟩
    refine ⟨raw, hraw, ?_⟩
    rw [hname]
    exact (MethodKind.fromStr_eq_iff hkind).mp hentry
  · rintro ⟨raw, hraw, hentry⟩
    exact ⟨raw, hraw, by rw [hentry], hkind⟩

theorem exists_adds_any_iff {list : List Str} :
    (∃ raw ∈ list, ∃ kind, Adds raw kind) ↔ Recognised list := by
  unfold Recognised listedMethods
  constructor
  · rintro ⟨raw, hraw, kind, hentry, hkind⟩
    exact ⟨_, List.mem_map_of_mem hraw, hentry ▸ hkind⟩
  · rintro ⟨method, hmem, hkind⟩
    obtain ⟨raw, hraw, rfl⟩ := List.mem_map.mp hmem
    exact ⟨raw, hraw, _, rfl, hkind⟩

section

variable {opts : CorsOptions} {cors : CorsEngine} {list : List Str}

theorem fromOptions_methods (hmake : CorsEngine.fromOptions (some opts) = .ok cors) :
    (cors.methodsWildcard, cors.methodBits) = parseAllowedMethodsBitset opts.allowMethods := by
  unfold CorsEngine.fromOptions at hmake
  dsimp only at hmake
  cases hmode : corsModeOf opts.allowOrigin (opts.allowCredentials.getD false) with
  | error e =>
    rw [hmode] at hmake
    cases hmake
  | ok mode =>
    rw [hmode] at hmake
    cases hmake
    rfl

/-- What the engine allows, in terms of the list. -/
theorem methodAllowedKind_iff (hmake : CorsEngine.fromOptions (some opts) = .ok cors)
    (hlist : opts.allowMethods = some list) (hstar : ∀ raw ∈ list, strTrim raw ≠ ['*'])
    (method : Bytes) :
    cors.methodAllowedKind (.fromStr method) = true ↔ MethodKind.fromStr method ≠ .other ∧
      (method ∈ listedMethods list ∨
        (¬ Recognised list ∧ (MethodKind.fromStr method).isDefault = true)) := by
  obtain ⟨hwild, hmem, hzero⟩ := methodBitsFrom_spec hstar 0
  have hbits := fromOptions_methods hmake
  rw [hlist] at hbits
  obtain ⟨hwildcard, hmethods⟩ := Prod.mk.inj hbits
  have hset : cors.methodBits ≠ 0 ↔ Recognised list := by
    rw [hmethods, hzero, exists_adds_any_iff]
    simp
  have hlisted : ∀ kind : MethodKind,
      cors.methodBits &&& kind.bit ≠ 0 ↔ ∃ raw ∈ list, Adds raw kind := by
    intro kind
    rw [hmethods, hmem kind]
    simp
  unfold CorsEngine.methodAllowedKind
  rw [if_neg (by rw [hwildcard, hwild]; decide)]
  by_cases hempty : cors.methodBits = 0
  · -- a list of which nothing is recognised allows the default methods
    have hnone : ¬ Recognised list := by
      rw [← hset]
      simpa using hempty
    rw [if_pos hempty]
    constructor
    · intro hdefault
      refine ⟨?_, .inr ⟨hnone, hdefault⟩⟩
      intro hother
      rw [hother] at hdefault
      cases hdefault
    · rintro ⟨hkind, hin | ⟨-, hdefault⟩⟩
      · exact absurd ⟨method, hin, hkind⟩ hnone
      · exact hdefault
  · have hsome : Recognised list := hset.mp hempty
    rw [if_neg hempty, decide_eq_true_iff, hlisted]
    constructor
    · rintro ⟨raw, hraw, hadds⟩
      exact ⟨hadds.2, .inl ((exists_adds_iff hadds.2).mp ⟨raw, hraw, hadds⟩)⟩
    · rintro ⟨hkind, hin | ⟨hnone, -⟩⟩
      · exact (exists_adds_iff hkind).mpr hin
      · exact absurd hsome hnone

/-- The engine's answer is that of the list exactly where the bit set says what the list says. -/
theorem methodAllowedKind_exact (hmake : CorsEngine.fromOptions (some opts) = .ok cors)
    (hlist : opts.allowMethods = some list) (hstar : ∀ raw ∈ list, strTrim raw ≠ ['*'])
    (method : Bytes) :
    (cors.methodAllowedKind (.fromStr method) = true ↔ method ∈ listedMethods list) ↔
      MethodExact list method := by
  rw [methodAllowedKind_iff hmake hlist hstar, MethodExact]
  have hlisted : MethodKind.fromStr method ≠ .other → method ∈ listedMethods list →
      Recognised list := fun hkind hin => ⟨method, hin, hkind⟩
  cases hdefault : (MethodKind.fromStr method).isDefault with
  | true => tauto
  | false => tauto

theorem preflightMethodAllowed_eq (acrm : Bytes) :
    cors.preflightMethodAllowed (some acrm) = true ↔ trimAsciiWhitespace acrm ≠ [] ∧
      cors.methodAllowedKind (.fromStr ((trimAsciiWhitespace acrm).map asciiUpper)) = true := by
  rw [← MethodKind.fromBytesIgnoreCase_eq]
  unfold CorsEngine.preflightMethodAllowed
  dsimp only
  by_cases hblank : trimAsciiWhitespace acrm = []
  · rw [if_pos hblank]
    simp [hblank]
  · rw [if_neg hblank]
    simp [hblank]

/-- **The method policy is the configured list** for an actual request, by the exact name of its
method, and for a preflight, by the name it asks for in capitals, exactly where the bit set says what
the list says of that method. -/
theorem allowMethods_iff (hmake : CorsEngine.fromOptions (some opts) = .ok cors)
    (hlist : opts.allowMethods = some list) (hstar : ∀ raw ∈ list, strTrim raw ≠ ['*'])
    {headers : HeaderRefs} {origin : Bytes} (horigin : headers.origin = some origin)
    (hallowed : cors.originAllowed origin = true) :
    (∀ method, ¬ (MethodKind.fromStr method = .options ∧ headers.acrm.isSome = true) →
      (((cors.evaluate (.fromStr method) headers).allowed = true ↔ method ∈ listedMethods list) ↔
        MethodExact list method)) ∧
    (∀ acrm, headers.acrm = some acrm → trimAsciiWhitespace acrm ≠ [] →
      cors.headersAllowed headers.acrh = true →
      (((cors.evaluate .options headers).allowed = true ↔
          (trimAsciiWhitespace acrm).map asciiUpper ∈ listedMethods list) ↔
        MethodExact list ((trimAsciiWhitespace acrm).map asciiUpper))) := by
  constructor
  · intro method hactual
    -- An actual request is judged by the bit of its own method.
    have heval : (cors.evaluate (.fromStr method) headers).allowed =
        cors.methodAllowedKind (.fromStr method) := by
      unfold CorsEngine.evaluate
      rw [horigin]
      dsimp only
      rw [hallowed, Bool.true_and, if_neg (by simpa using hactual)]
    rw [heval]
    exact methodAllowedKind_exact hmake hlist hstar method
  · intro acrm hacrm hne hheaders
    -- A preflight is judged by the method it asks for, once its headers are allowed.
    have heval : (cors.evaluate .options headers).allowed =
        cors.preflightMethodAllowed (some acrm) := by
      unfold CorsEngine.evaluate
      rw [horigin, hacrm]
      dsimp only
      rw [hallowed, Bool.true_and, if_pos (by rfl), hheaders, Bool.and_true]
    rw [heval, preflightMethodAllowed_eq, and_iff_right hne]
    exact methodAllowedKind_exact hmake hlist hstar _

end

/-- Options that give a list of methods. -/
def methodsOnly (list : List Str) : CorsOptions := { allowMethods := some list }

/-- A request from somewhere, perhaps a preflight. -/
def fromSomewhere (acrm : Option Bytes) : HeaderRefs := { origin := some (utf8 "https://a"), acrm }

/-- The list `get`, ` DELETE `. -/
def twoMethods : List Str := [['g', 'e', 't'], [' ', 'D', 'E', 'L', 'E', 'T', 'E', ' ']]

/-- It allows `DELETE` and, to a preflight, `delete`. -/
theorem allowMethods_iff_delete : ∃ cors,
    CorsEngine.fromOptions (some (methodsOnly twoMethods)) = .ok cors ∧
    (cors.evaluate (.fromStr (utf8 "DELETE")) (fromSomewhere none)).allowed = true ∧
    (cors.evaluate .options (fromSomewhere (some (utf8 "delete")))).allowed = true := by
  have hmake : CorsEngine.fromOptions (some (methodsOnly twoMethods)) =
      .ok { mode := .wildcard, methodBits := 33 } := rfl
  have hlist : (methodsOnly twoMethods).allowMethods = some twoMethods := rfl
  have hstar : ∀ raw ∈ twoMethods, strTrim raw ≠ ['*'] := by decide
  have horigin : ∀ acrm, (fromSomewhere acrm).origin = some (utf8 "https://a") := fun _ => rfl
  refine ⟨_, hmake, ?_, ?_⟩
  · obtain ⟨hactual, -⟩ := allowMethods_iff hmake hlist hstar (horigin none) rfl
    have hexact := hactual (utf8 "DELETE") (by decide)
    exact (hexact.mpr (.inl ⟨by decide, .inr (by decide)⟩)).mpr (by decide)
  · obtain ⟨-, hpreflight⟩ :=
      allowMethods_iff hmake hlist hstar (horigin (some (utf8 "delete"))) rfl
    have hexact := hpreflight (utf8 "delete") rfl (by decide) rfl
    exact (hexact.mpr (.inl ⟨by decide, .inr (by decide)⟩)).mpr (by decide)

/-- The list `FOO` names no method the code knows: a `GET` and a preflight for it are allowed, and
`FOO` is not. -/
theorem allowMethods_widens : ∃ cors,
    CorsEngine.fromOptions (some (methodsOnly [['F', 'O', 'O']])) = .ok cors ∧
    utf8 "GET" ∉ listedMethods [['F', 'O', 'O']] ∧
    (cors.evaluate (.fromStr (utf8 "GET")) (fromSomewhere none)).allowed = true ∧
    (cors.evaluate .options (fromSomewhere (some (utf8 "GET")))).allowed = true ∧
    utf8 "FOO" ∈ listedMethods [['F', 'O', 'O']] ∧
    (cors.evaluate (.fromStr (utf8 "FOO")) (fromSomewhere none)).allowed = false := by
  refine ⟨_, rfl, ?_, ?_, ?_, ?_, ?_⟩ <;> decide

end Castrum
