import Castrum.Lib.Scan
import Mathlib.Data.List.Basic
import Mathlib.Tactic

/-!
# Castrum — references that begin with a slash

The part of the basic URL parser of the URL standard that a reference against a special base takes when
it begins with a slash: scheme start, no scheme and relative state lead to the relative slash state. The
host parser is a parameter.

* `parseHost` — the host and the port of an authority, and of a base `http://` + host;
* `resolveRooted` — the reference against the base;
* `resolveRooted_of_authority` — two slashes: the base is not looked at;
* `resolveRooted_of_path` — one slash: the host of the base, and the path by its segments.
-/

namespace Castrum.Whatwg

/-- A reference, as its scalar values. -/
abbrev Text := List Char

/-! ## Characters -/

/-- The separators of a special URL. -/
def isSlash (c : Char) : Bool := c = '/' || c = '\\'

def isTabOrNewline (c : Char) : Bool := c = '\t' || c = '\n' || c = '\r'

def isC0OrSpace (c : Char) : Bool := c.toNat ≤ 0x20

/-- C0 controls and spaces are stripped at both ends, tabs and newlines everywhere. -/
def clean (input : Text) : Text :=
  (((input.dropWhile isC0OrSpace).reverse.dropWhile isC0OrSpace).reverse).filter (!isTabOrNewline ·)

def c0Set (c : Char) : Bool := c.toNat ≤ 0x1F || 0x7E < c.toNat

def querySet (c : Char) : Bool := c0Set c || [' ', '"', '#', '<', '>'].contains c

def specialQuerySet (c : Char) : Bool := querySet c || c = '\''

def pathSet (c : Char) : Bool := querySet c || ['?', '^', '\x60', '\x7b', '\x7d'].contains c

def userinfoSet (c : Char) : Bool :=
  pathSet c || ['/', ':', ';', '=', '@', '[', '\\', ']', '|'].contains c

def hexUpper : Text := "0123456789ABCDEF".toList

def percentByte (b : UInt8) : Text :=
  ['%', hexUpper.getD (b.toNat / 16) '0', hexUpper.getD (b.toNat % 16) '0']

/-- UTF-8 percent-encode. -/
def encode (set : Char → Bool) (text : Text) : Text :=
  text.flatMap fun c => if set c then (String.utf8EncodeChar c).flatMap percentByte else [c]

/-! ## Paths -/

def isSingleDot (seg : Text) : Bool := seg = ['.'] || seg.map Char.toLower = "%2e".toList

def isDoubleDot (seg : Text) : Bool :=
  ["..", ".%2e", "%2e.", "%2e%2e"].any fun dots => seg.map Char.toLower = dots.toList

/-- A segment ends, at a slash or at the end of the path. -/
def endSegment (path : List Text) (seg : Text) (slash : Bool) : List Text :=
  if isDoubleDot seg then if slash then path.dropLast else path.dropLast ++ [[]]
  else if isSingleDot seg then if slash then path else path ++ [[]]
  else path ++ [seg]

/-- Query state. -/
def queryState (s : Text) : Option Text := some (encode specialQuerySet (s.takeWhile (· ≠ '#')))

/-- Path state: the path and the query. The buffer holds the segment that is being read. -/
def pathState : Text → List Text → Text → List Text × Option Text
  | [], path, buffer => (endSegment path buffer false, none)
  | c :: s, path, buffer =>
    if isSlash c then pathState s (endSegment path buffer true) []
    else if c = '?' then (endSegment path buffer false, queryState s)
    else if c = '#' then (endSegment path buffer false, none)
    else pathState s path (buffer ++ encode pathSet [c])

/-- Path start state. -/
def pathStart : Text → List Text × Option Text
  | [] => pathState [] [] []
  | c :: s => if isSlash c then pathState s [] [] else pathState (c :: s) [] []

/-! ## Authorities -/

/-- What ends an authority. -/
def endsAuthority (c : Char) : Bool := isSlash c || c = '?' || c = '#'

/-- Host state: the host in front of the first colon outside of brackets, and what is behind that. -/
def hostState : Text → Bool → Text → Text × Option Text
  | [], _, buffer => (buffer, none)
  | c :: s, inBrackets, buffer =>
    if c = ':' ∧ inBrackets = false then (buffer, some s)
    else hostState s (if c = '[' then true else if c = ']' then false else inBrackets) (buffer ++ [c])

/-- Port state, for `http`: the port 80 is none. -/
def portState (digits : Text) : Option (Option Nat) :=
  if digits = [] then some none
  else if digits.all Char.isDigit then
    let port := digits.foldl (fun n c => 10 * n + (c.toNat - 48)) 0
    if 65535 < port then none else some (if port = 80 then none else some port)
  else none

/-- The host and the port of an authority without credentials. -/
def parseHost {H : Type} (hostParser : Text → Option H) (authority : Text) :
    Option (H × Option Nat) := do
  let (name, digits) := hostState authority false []
  if name = [] then none
  else
    let host ← hostParser name
    let port ← portState (digits.getD [])
    return (host, port)

structure UrlRecord (H : Type) where
  username : Text
  password : Text
  host : H
  port : Option Nat
  path : List Text
  query : Option Text
deriving DecidableEq

/-- The credentials in front of the last `@`, and the rest. -/
def splitCredentials (authority : Text) : Option (Text × Text) :=
  if '@' ∈ authority then
    let behind := (authority.reverse.takeWhile (· ≠ '@')).reverse
    some (authority.take (authority.length - behind.length - 1), behind)
  else none

/-- Authority state and what follows it. -/
def authorityState {H : Type} (hostParser : Text → Option H) (s : Text) : Option (UrlRecord H) := do
  let authority := s.takeWhile (!endsAuthority ·)
  let (path, query) := pathStart (s.dropWhile (!endsAuthority ·))
  match splitCredentials authority with
  | some (credentials, behind) =>
    let (host, port) ← parseHost hostParser behind
    let username := credentials.takeWhile (· ≠ ':')
    let password := (credentials.dropWhile (· ≠ ':')).drop 1
    return ⟨encode userinfoSet username, encode userinfoSet password, host, port, path, query⟩
  | none =>
    let (host, port) ← parseHost hostParser authority
    return ⟨[], [], host, port, path, query⟩

/-- Relative slash state, behind the slash. -/
def relativeSlash {H : Type} (hostParser : Text → Option H) (base : H × Option Nat) :
    Text → Option (UrlRecord H)
  | c :: s =>
    if isSlash c then authorityState hostParser (s.dropWhile isSlash)
    else
      let (path, query) := pathState (c :: s) [] []
      some ⟨[], [], base.1, base.2, path, query⟩
  | [] =>
    let (path, query) := pathState [] [] []
    some ⟨[], [], base.1, base.2, path, query⟩

/-- A reference against `http://` and the host; `none` where it does not begin with a slash. -/
def resolveRooted {H : Type} (hostParser : Text → Option H) (base : H × Option Nat) (input : Text) :
    Option (UrlRecord H) :=
  match clean input with
  | c :: s => if isSlash c then relativeSlash hostParser base s else none
  | [] => none

/-! ## Paths by their segments -/

/-- The segments of a path, one after the other. -/
def pushSegments (path : List Text) : List Text → List Text
  | [] => path
  | [last] => endSegment path last false
  | seg :: next :: segs => pushSegments (endSegment path seg true) (next :: segs)

/-- What goes on with the path. -/
def inPath (c : Char) : Bool := c ≠ '?' && c ≠ '#'

/-- **The path of a reference**: what stands in front of the query, cut at its slashes, percent-encoded
and without dot segments. -/
def normalPath (s : Text) : List Text :=
  pushSegments [] (((s.takeWhile inPath).splitOnP isSlash).map (encode pathSet))

/-- **The query of a reference**: what stands behind the first `?`, unless that is in a fragment. -/
def normalQuery (s : Text) : Option Text :=
  match s.dropWhile inPath with
  | '?' :: query => some (encode specialQuerySet (query.takeWhile (· ≠ '#')))
  | _ => none

section

variable {H : Type} {hostParser : Text → Option H} {base : H × Option Nat} {s input : Text}

theorem encode_append (set : Char → Bool) (s t : Text) :
    encode set (s ++ t) = encode set s ++ encode set t := List.flatMap_append

theorem pushSegments_cons (path : List Text) (seg : Text) {segs : List Text} (h : segs ≠ []) :
    pushSegments path (seg :: segs) = pushSegments (endSegment path seg true) segs := by
  cases segs with
  | nil => exact absurd rfl h
  | cons next segs => rfl

theorem inPath_of_isSlash {c : Char} (h : isSlash c = true) : inPath c = true := by
  rw [isSlash, Bool.or_eq_true, decide_eq_true_iff, decide_eq_true_iff] at h
  rcases h with rfl | rfl
  · rfl
  · rfl

theorem normalQuery_cons {c : Char} (h : inPath c = true) (s : Text) :
    normalQuery (c :: s) = normalQuery s := by
  rw [normalQuery, List.dropWhile_cons_of_pos h, normalQuery]

/-- Path state, with what it has read of a segment. Induction on what it has not. -/
theorem pathState_prepend (s : Text) (path : List Text) (acc : Text) :
    pathState s path (encode pathSet acc.reverse) =
      (pushSegments path
        (((s.takeWhile inPath).splitOnPPrepend isSlash acc).map (encode pathSet)),
        normalQuery s) := by
  induction s generalizing path acc with
  | nil => rfl
  | cons c s ih =>
    rw [pathState]
    -- A slash ends the segment, a question mark or a hash the path; any other character joins the
    -- segment.
    by_cases hslash : isSlash c = true
    · have hmark := inPath_of_isSlash hslash
      have hne : ((s.takeWhile inPath).splitOnP isSlash).map (encode pathSet) ≠ [] :=
        fun h => List.splitOnP_ne_nil _ _ (List.map_eq_nil_iff.mp h)
      rw [if_pos hslash, List.takeWhile_cons_of_pos hmark, List.splitOnPPrepend_cons_pos hslash,
        List.map_cons, pushSegments_cons _ _ hne, normalQuery_cons hmark]
      exact ih (endSegment path (encode pathSet acc.reverse) true) []
    · rw [if_neg hslash]
      by_cases hquery : c = '?'
      · subst hquery
        rw [if_pos rfl, List.takeWhile_cons_of_neg (by decide), List.splitOnPPrepend_nil]
        rfl
      · by_cases hhash : c = '#'
        · subst hhash
          rw [if_neg hquery, if_pos rfl, List.takeWhile_cons_of_neg (by decide),
            List.splitOnPPrepend_nil]
          rfl
        · have hmark : inPath c = true := by simp [inPath, hquery, hhash]
          rw [if_neg hquery, if_neg hhash, List.takeWhile_cons_of_pos hmark,
            List.splitOnPPrepend_cons_neg (Bool.not_eq_true _ ▸ hslash), normalQuery_cons hmark,
            ← encode_append, ← List.reverse_cons]
          exact ih path (c :: acc)

/-- **Path state** cuts the path at its slashes. -/
theorem pathState_eq (s : Text) : pathState s [] [] = (normalPath s, normalQuery s) :=
  pathState_prepend s [] []

/-! ## Which host -/

/-- **Behind two slashes** stands an authority: the base is not looked at. -/
theorem resolveRooted_of_authority {c d : Char} {s : Text} (hclean : clean input = c :: d :: s)
    (hc : isSlash c = true) (hd : isSlash d = true) :
    resolveRooted hostParser base input = authorityState hostParser (s.dropWhile isSlash) := by
  rw [resolveRooted, hclean]
  dsimp only
  rw [if_pos hc, relativeSlash, if_pos hd]

/-- **Behind one slash** stands a path: the host is that of the base. -/
theorem resolveRooted_of_path {c : Char} {s : Text} (hclean : clean input = c :: s)
    (hc : isSlash c = true) (hs : ∀ d ∈ s.head?, isSlash d = false) :
    resolveRooted hostParser base input =
      some ⟨[], [], base.1, base.2, normalPath s, normalQuery s⟩ := by
  rw [resolveRooted, hclean]
  dsimp only
  rw [if_pos hc]
  cases s with
  | nil => rw [relativeSlash, pathState_eq]
  | cons d s =>
    rw [relativeSlash, hs d rfl, if_neg Bool.false_ne_true, pathState_eq]

/-- A base of letters and digits has no port. -/
theorem parseHost_plain {name digits : Text} {h : H} (hname : name ≠ [])
    (hplain : ∀ c ∈ name, c ≠ ':' ∧ c ≠ '[' ∧ c ≠ ']') (hhost : hostParser name = some h) :
    parseHost hostParser (name ++ ':' :: digits) = (portState digits).map (h, ·) := by
  have hstate : ∀ (rest buffer : Text), (∀ c ∈ rest, c ≠ ':' ∧ c ≠ '[' ∧ c ≠ ']') →
      hostState (rest ++ ':' :: digits) false buffer = (buffer ++ rest, some digits) := by
    intro rest
    induction rest with
    | nil =>
      intro buffer _
      rw [List.nil_append, hostState, if_pos ⟨rfl, rfl⟩, List.append_nil]
    | cons c rest ih =>
      intro buffer hrest
      obtain ⟨h₁, h₂, h₃⟩ := hrest c List.mem_cons_self
      rw [List.cons_append, hostState, if_neg (fun h => h₁ h.1), if_neg h₂, if_neg h₃,
        ih _ fun c hc => hrest c (List.mem_cons_of_mem _ hc), List.append_assoc]
      rfl
  rw [parseHost, hstate name [] hplain, List.nil_append]
  dsimp only
  rw [if_neg hname, hhost]
  show (portState digits).bind (fun port => some (h, port)) = _
  rw [Option.map_eq_bind]
  rfl

end

end Castrum.Whatwg
