import Castrum.Http.Headers
import Mathlib.Data.List.DropRight

/-!
# Castrum — where a request comes from (`rust/ingress/ip_trust.rs`, `proxy.rs`, `cors.rs`)

The client address behind trusted proxies, the scheme, and the origin. A network of the `ipnet` crate
stands here for the set of addresses it contains, and the seeded `xxh3` hash is a parameter.

* `resolveClientIp` / `socketIsTrusted` — the address that is counted, and whether the peer is trusted;
* `resolveClientIp_spoofResistant` — what a client writes into the headers does not move its address;
* `CorsEngine.evaluate` — the verdict on an origin.
-/

namespace Castrum

/-! ## Addresses -/

/-- `std::net::IpAddr`: four octets, or sixteen. -/
inductive IpAddr where
  | v4 (octets : Bytes)
  | v6 (octets : Bytes)
  deriving DecidableEq, Repr

/-- The value of a digit below the radix. -/
def digitVal (radix : Nat) (b : UInt8) : Option Nat :=
  ((hexVal b).map (·.toNat)).filter (· < radix)

/-- The standard parser's `read_number`: all the digits there are, at most `maxDigits` of them, with
a value below `bound`. -/
def readNumber (radix maxDigits bound : Nat) (allowZeroPrefix : Bool) (s : Bytes) :
    Option (Nat × Bytes) :=
  let digits := s.takeWhile fun b => (digitVal radix b).isSome
  let value := (digits.filterMap (digitVal radix)).foldl (fun n d => n * radix + d) 0
  if digits = [] ∨ maxDigits < digits.length then none
  else if allowZeroPrefix = false ∧ digits.head? = some 48 ∧ 1 < digits.length then none
  else if bound ≤ value then none
  else some (value, s.drop digits.length)

def readGivenChar (b : UInt8) : Bytes → Option Bytes
  | c :: s => if c = b then some s else none
  | [] => none

/-- Four decimal octets with dots between them. -/
def readIpv4Addr (s : Bytes) : Option (List Nat × Bytes) := do
  let (a, s) ← readNumber 10 3 256 false s
  let s ← readGivenChar 46 s
  let (b, s) ← readNumber 10 3 256 false s
  let s ← readGivenChar 46 s
  let (c, s) ← readNumber 10 3 256 false s
  let s ← readGivenChar 46 s
  let (d, s) ← readNumber 10 3 256 false s
  some ([a, b, c, d], s)

/-- Up to so many groups of 16 bits with colons between them, the last two perhaps written as an IPv4
address; and whether they were. -/
def readGroups : Nat → Bool → Bytes → List Nat × Bool × Bytes
  | 0, _, s => ([], false, s)
  | left + 1, first, s =>
    let behind := if first then some s else readGivenChar 58 s
    match (if left = 0 then none else behind.bind readIpv4Addr) with
    | some ([a, b, c, d], s) => ([a * 256 + b, c * 256 + d], true, s)
    | _ =>
      match behind.bind (readNumber 16 4 65536 true) with
      | none => ([], false, s)
      | some (group, s) =>
        let (groups, v4, s) := readGroups left false s
        (group :: groups, v4, s)

/-- Eight groups, or fewer with `::` for the zeros that are left out. -/
def readIpv6Addr (s : Bytes) : Option (List Nat × Bytes) := do
  let (head, v4, s) := readGroups 8 true s
  if head.length = 8 then some (head, s)
  else if v4 then none
  else
    let s ← readGivenChar 58 s
    let s ← readGivenChar 58 s
    let (tail, _, s) := readGroups (7 - head.length) true s
    some (head ++ List.replicate (8 - head.length - tail.length) 0 ++ tail, s)

/-- `parse_ip_bytes`: the whole text is an address. Text that is not UTF-8 has no digits to read. -/
def parseIpBytes (bytes : Bytes) : Option IpAddr :=
  let s := trimAsciiWhitespace bytes
  match readIpv4Addr s with
  | some (octets, rest) => if rest = [] then some (.v4 (octets.map UInt8.ofNat)) else none
  | none =>
    match readIpv6Addr s with
    | some (groups, []) =>
      some (.v6 (groups.flatMap fun g => [UInt8.ofNat (g / 256), UInt8.ofNat g]))
    | _ => none

/-! ## Trusted proxies -/

inductive ProxyTrustMode where
  | none
  | all
  | networks (nets : List (IpAddr → Bool))

namespace ProxyTrustMode

def isNone : ProxyTrustMode → Bool
  | .none => true
  | _ => false

def isTrusted (mode : ProxyTrustMode) (ip : IpAddr) : Bool :=
  match mode with
  | .none => false
  | .all => true
  | .networks nets => nets.any fun net => net ip

end ProxyTrustMode

inductive ResolvedIp where
  | addr (ip : IpAddr)
  | raw (bytes : Bytes)
  deriving DecidableEq, Repr

/-- The key that is counted: a tag and the bytes of the address, hashed with the limiter's seed. -/
def ResolvedIp.rateKey (xxh3 : UInt64 → Bytes → UInt64) (seed : UInt64) : ResolvedIp → UInt64
  | .addr (.v4 octets) => xxh3 seed (1 :: octets)
  | .addr (.v6 octets) => xxh3 seed (2 :: octets)
  | .raw bytes => xxh3 seed (0 :: bytes)

def socketParsedIsTrusted (mode : ProxyTrustMode) (parsed : Option IpAddr) : Bool :=
  (parsed.map mode.isTrusted).getD false

def socketIsTrusted (mode : ProxyTrustMode) (socketIp : Bytes) : Bool :=
  if mode.isNone then false else socketParsedIsTrusted mode (parseIpBytes socketIp)

/-- The entries of `X-Forwarded-For` from the right: the first that is not trusted, or the last that
was read before one that is no address. -/
def scanForwarded (mode : ProxyTrustMode) : List Bytes → Option IpAddr → Option IpAddr
  | [], lastValid => lastValid
  | part :: parts, lastValid =>
    if trimAsciiWhitespace part = [] then scanForwarded mode parts lastValid
    else
      match parseIpBytes (trimAsciiWhitespace part) with
      | none => lastValid
      | some ip => if mode.isTrusted ip then scanForwarded mode parts (some ip) else some ip

def resolveClientIp (mode : ProxyTrustMode) (socketIp : Bytes) (xff xRealIp : Option Bytes) :
    ResolvedIp × Bool :=
  let socketTrim := trimAsciiWhitespace socketIp
  let socketParsed := parseIpBytes socketTrim
  let peerTrusted := socketParsedIsTrusted mode socketParsed
  let socket := (socketParsed.map ResolvedIp.addr).getD (.raw socketTrim)
  if mode.isNone || !peerTrusted then (socket, peerTrusted)
  else
    match xff.bind fun xff => scanForwarded mode (xff.splitOn 44).reverse none with
    | some ip => (.addr ip, peerTrusted)
    | none =>
      match xRealIp.bind fun xri =>
          parseIpBytes (((trimAsciiWhitespace xri).splitOn 44).headD []) with
      | some ip => (.addr ip, peerTrusted)
      | none => (socket, peerTrusted)

/-! ## Scheme, path and query -/

def detectHttps (httpsFixed : Option Bool) (mode : ProxyTrustMode) (url : Bytes)
    (headers : HeaderRefs) (peerTrusted : Bool) : Bool :=
  match httpsFixed with
  | some v => v
  | none =>
    if (utf8 "https://").isPrefixOf url || (utf8 "wss://").isPrefixOf url then true
    else if !mode.isNone && peerTrusted then
      match headers.xForwardedProto with
      | some xfp => trimAsciiWhitespace xfp = utf8 "https"
      | none => false
    else false

/-- Where the scan for path and query starts. -/
def searchStart (url : Bytes) : Nat :=
  if (utf8 "https://").isPrefixOf url then 8
  else if (utf8 "http://").isPrefixOf url then 7
  else 0

def isQueryMark (b : UInt8) : Bool := b = 63 || b = 35

def extractPath (url : Bytes) : Bytes :=
  let space := url.drop (searchStart url)
  match space.findIdx? (· = 47) with
  | none => [47]
  | some i => (space.drop i).takeWhile fun b => !isQueryMark b

def extractQuery (url : Bytes) : Bytes :=
  let space := url.drop (searchStart url)
  match space.findIdx? isQueryMark with
  | none => []
  | some i => if space[i]? = some 63 then (space.drop (i + 1)).takeWhile (· ≠ 35) else []

/-! ## CORS -/

inductive CorsMode where
  | disabled
  | wildcard
  | allowlist (origins : List Bytes)
  deriving DecidableEq, Repr

structure CorsEngine where
  mode : CorsMode := .disabled
  credentials : Bool := false
  methodsWildcard : Bool := false
  methodBits : UInt16 := 0
  headersWildcard : Bool := false
  headers : List Bytes := []
  deriving DecidableEq, Repr

structure CorsEvaluation where
  allowed : Bool
  preflight : Bool
  deriving DecidableEq, Repr

namespace CorsEngine

variable (cors : CorsEngine)

def methodAllowedKind (kind : MethodKind) : Bool :=
  if cors.methodsWildcard then true
  else if cors.methodBits = 0 then kind = .get || kind = .head || kind = .post
  else cors.methodBits &&& kind.bit ≠ 0

def preflightMethodAllowed (acrm : Option Bytes) : Bool :=
  match acrm with
  | none => false
  | some acrm =>
    let trimmed := trimAsciiWhitespace acrm
    if trimmed = [] then false
    else cors.methodAllowedKind (.fromBytesIgnoreCase trimmed)

def isCorsSafelistedRequestHeader (name : Bytes) : Bool :=
  asciiEqIgnoreCase name (utf8 "accept") || asciiEqIgnoreCase name (utf8 "accept-language") ||
    asciiEqIgnoreCase name (utf8 "content-language") || asciiEqIgnoreCase name (utf8 "content-type")

def headersAllowed (acrh : Option Bytes) : Bool :=
  match acrh with
  | none => true
  | some acrh =>
    if cors.headersWildcard then true
    else (acrh.splitOn 44).all fun requested =>
      let name := trimAsciiWhitespace requested
      if name = [] then true
      else if cors.headers = [] then isCorsSafelistedRequestHeader name
      else cors.headers.any fun allowed => asciiEqIgnoreCase name allowed

def originAllowed (origin : Bytes) : Bool :=
  match cors.mode with
  | .disabled => false
  | .wildcard => !cors.credentials
  | .allowlist origins => origins.any fun allowed => allowed = trimAsciiWhitespace origin

def evaluate (method : MethodKind) (headers : HeaderRefs) : CorsEvaluation :=
  match headers.origin with
  | none => ⟨false, false⟩
  | some origin =>
    let preflight := method = .options && headers.acrm.isSome
    let allowed := cors.originAllowed origin &&
      if preflight then cors.preflightMethodAllowed headers.acrm && cors.headersAllowed headers.acrh
      else cors.methodAllowedKind method
    ⟨allowed, preflight⟩

end CorsEngine

/-! ## The short cut -/

/-- Whether the peer is trusted, as the resolution itself asks it. -/
theorem socketParsedIsTrusted_trim (mode : ProxyTrustMode) (socketIp : Bytes) :
    socketParsedIsTrusted mode (parseIpBytes (trimAsciiWhitespace socketIp)) =
      socketIsTrusted mode socketIp := by
  have hparse : parseIpBytes (trimAsciiWhitespace socketIp) = parseIpBytes socketIp := by
    unfold parseIpBytes
    rw [trimAsciiWhitespace_trim]
  rw [hparse, socketIsTrusted]
  cases mode with
  | none =>
    show ((parseIpBytes socketIp).map fun _ => false).getD false = false
    cases parseIpBytes socketIp <;> rfl
  | all => rfl
  | networks nets => rfl

/-! ## What a client can write

A proxy appends the address it saw, so only the right end of `X-Forwarded-For` is written by a host
that is trusted. `MeetsHop` says what the scan from the right passes before it stops. -/

/-- **The scan meets an untrusted hop**: from the right, the entries before it are blank or trusted
addresses, and it is an address that is not trusted. -/
inductive MeetsHop (mode : ProxyTrustMode) (hop : IpAddr) : List Bytes → Prop where
  | blank {part : Bytes} {parts : List Bytes} (hblank : trimAsciiWhitespace part = [])
      (hrest : MeetsHop mode hop parts) : MeetsHop mode hop (part :: parts)
  | trusted {part : Bytes} {parts : List Bytes} {ip : IpAddr}
      (hparse : parseIpBytes (trimAsciiWhitespace part) = some ip)
      (htrusted : mode.isTrusted ip = true)
      (hrest : MeetsHop mode hop parts) : MeetsHop mode hop (part :: parts)
  | hop {part : Bytes} {parts : List Bytes}
      (hparse : parseIpBytes (trimAsciiWhitespace part) = some hop)
      (huntrusted : mode.isTrusted hop = false) : MeetsHop mode hop (part :: parts)

namespace MeetsHop

variable {mode : ProxyTrustMode} {hop : IpAddr} {parts : List Bytes}

/-- Further entries to the left are not reached. -/
theorem append (h : MeetsHop mode hop parts) (left : List Bytes) :
    MeetsHop mode hop (parts ++ left) := by
  induction h with
  | blank hblank _ ih => exact .blank hblank ih
  | trusted hparse htrusted _ ih => exact .trusted hparse htrusted ih
  | hop hparse huntrusted => exact .hop hparse huntrusted

/-- An entry that is an address is not blank. -/
theorem trim_ne_nil {part : Bytes} {ip : IpAddr}
    (hparse : parseIpBytes (trimAsciiWhitespace part) = some ip) : trimAsciiWhitespace part ≠ [] := by
  intro hnil
  rw [hnil] at hparse
  have hempty : parseIpBytes [] = none := by decide
  rw [hempty] at hparse
  cases hparse

theorem scanForwarded_eq (h : MeetsHop mode hop parts) (lastValid : Option IpAddr) :
    scanForwarded mode parts lastValid = some hop := by
  induction h generalizing lastValid with
  | blank hblank _ ih =>
    rw [scanForwarded, if_pos hblank]
    exact ih lastValid
  | trusted hparse htrusted _ ih =>
    rw [scanForwarded, if_neg (trim_ne_nil hparse), hparse]
    simp only [htrusted, if_true]
    exact ih _
  | hop hparse huntrusted =>
    rw [scanForwarded, if_neg (trim_ne_nil hparse), hparse]
    simp only [huntrusted, Bool.false_eq_true, if_false]

end MeetsHop

/-- Behind a peer that is not trusted no header is read. -/
theorem resolveClientIp_of_untrusted {mode : ProxyTrustMode} {socketIp : Bytes}
    (hpeer : socketIsTrusted mode socketIp = false) (xff xRealIp : Option Bytes) :
    resolveClientIp mode socketIp xff xRealIp =
      (((parseIpBytes (trimAsciiWhitespace socketIp)).map ResolvedIp.addr).getD
        (.raw (trimAsciiWhitespace socketIp)), false) := by
  unfold resolveClientIp
  simp only [socketParsedIsTrusted_trim, hpeer, Bool.not_false, Bool.or_true, if_true]

theorem isNone_of_socketIsTrusted {mode : ProxyTrustMode} {socketIp : Bytes}
    (hpeer : socketIsTrusted mode socketIp = true) : mode.isNone = false := by
  cases mode with
  | none => cases hpeer
  | all => rfl
  | networks nets => rfl

/-- Behind a trusted peer the hop that the scan meets is the client. -/
theorem resolveClientIp_of_meetsHop {mode : ProxyTrustMode} {socketIp xff : Bytes} {hop : IpAddr}
    (hpeer : socketIsTrusted mode socketIp = true)
    (hmeets : MeetsHop mode hop (xff.splitOn 44).reverse) (xRealIp : Option Bytes) :
    resolveClientIp mode socketIp (some xff) xRealIp = (.addr hop, true) := by
  have hscan : (some xff).bind (fun xff => scanForwarded mode (xff.splitOn 44).reverse none) =
      some hop := hmeets.scanForwarded_eq none
  unfold resolveClientIp
  simp only [socketParsedIsTrusted_trim, hpeer, isNone_of_socketIsTrusted hpeer, hscan,
    Bool.not_true, Bool.or_self, Bool.false_eq_true, if_false]

/-- Entries written in front of a header are further entries to its left. -/
theorem meetsHop_prepend {mode : ProxyTrustMode} {hop : IpAddr} {xff : Bytes}
    (hmeets : MeetsHop mode hop (xff.splitOn 44).reverse) (left : Bytes) :
    MeetsHop mode hop ((left ++ 44 :: xff).splitOn 44).reverse := by
  have hsplit : (left ++ 44 :: xff).splitOn 44 = left.splitOn 44 ++ xff.splitOn 44 :=
    List.splitOnP_append_cons left xff (by simp)
  rw [hsplit, List.reverse_append]
  exact hmeets.append _

/-- **No client chooses its own address.** Behind a peer that is not trusted the answer is the same for
every pair of headers; behind a trusted one, the first hop from the right that is not trusted is the
answer, whatever stands to its left and in `X-Real-IP`. -/
theorem resolveClientIp_spoofResistant (mode : ProxyTrustMode) (socketIp : Bytes) :
    (socketIsTrusted mode socketIp = false → ∀ xff xRealIp xff' xRealIp',
      resolveClientIp mode socketIp xff xRealIp = resolveClientIp mode socketIp xff' xRealIp') ∧
    (socketIsTrusted mode socketIp = true → ∀ xff hop,
      MeetsHop mode hop (xff.splitOn 44).reverse → ∀ xRealIp,
        resolveClientIp mode socketIp (some xff) xRealIp = (.addr hop, true) ∧
        ∀ left xRealIp', resolveClientIp mode socketIp (some (left ++ 44 :: xff)) xRealIp' =
          resolveClientIp mode socketIp (some xff) xRealIp) := by
  constructor
  · intro hpeer xff xRealIp xff' xRealIp'
    rw [resolveClientIp_of_untrusted hpeer, resolveClientIp_of_untrusted hpeer]
  · intro hpeer xff hop hmeets xRealIp
    refine ⟨resolveClientIp_of_meetsHop hpeer hmeets xRealIp, ?_⟩
    intro left xRealIp'
    rw [resolveClientIp_of_meetsHop hpeer hmeets,
      resolveClientIp_of_meetsHop hpeer (meetsHop_prepend hmeets left)]

/-- A proxy `9.9.9.9` behind which `1.2.3.4` connects, with a forged entry in front. -/
theorem resolveClientIp_spoofResistant_forged :
    resolveClientIp (.networks [fun ip => ip = .v4 [9, 9, 9, 9]]) (utf8 "9.9.9.9")
        (some (utf8 "8.8.8.8" ++ 44 :: utf8 "1.2.3.4, 9.9.9.9")) (some (utf8 "8.8.8.8")) =
      (.addr (.v4 [1, 2, 3, 4]), true) ∧
    resolveClientIp .none (utf8 "1.2.3.4") (some (utf8 "8.8.8.8")) none =
      resolveClientIp .none (utf8 "1.2.3.4") none (some (utf8 "7.7.7.7")) := by
  have hmeets : MeetsHop (.networks [fun ip => ip = .v4 [9, 9, 9, 9]]) (.v4 [1, 2, 3, 4])
      ((utf8 "1.2.3.4, 9.9.9.9").splitOn 44).reverse := by
    have hsplit : ((utf8 "1.2.3.4, 9.9.9.9").splitOn 44).reverse =
        [utf8 " 9.9.9.9", utf8 "1.2.3.4"] := by decide
    rw [hsplit]
    have hproxy : parseIpBytes (trimAsciiWhitespace (utf8 " 9.9.9.9")) = some (.v4 [9, 9, 9, 9]) := by
      decide
    exact .trusted hproxy (by decide) (.hop (by decide) (by decide))
  obtain ⟨-, htrusted⟩ := resolveClientIp_spoofResistant
    (.networks [fun ip => ip = .v4 [9, 9, 9, 9]]) (utf8 "9.9.9.9")
  obtain ⟨hresult, hsame⟩ := htrusted (by decide) (utf8 "1.2.3.4, 9.9.9.9") _ hmeets none
  constructor
  · rw [hsame]
    exact hresult
  · exact (resolveClientIp_spoofResistant .none (utf8 "1.2.3.4")).1 (by decide) _ _ _ _

end Castrum
