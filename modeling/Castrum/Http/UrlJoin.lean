import Castrum.Lib.Split
import Castrum.Util.Str
import Mathlib.Data.List.TakeWhile

/-!
# Castrum — reference resolution (`rust/http/url_join.rs`)

A reference is resolved against a base URL, and the target is written out again. The authority is
whatever stands between `//` and the next `/`: the host stays the base's only if the target's path
begins with that slash, or if nothing at all follows.

* `isBase_parseRef` — what the parser finds behind a scheme and an authority;
* `recompose_parseRef` — a reference is written back as it was read;
* `parseRef_recompose` — the scheme always reads back, the authority only together with what
  follows it up to the first `/`;
* `resolve_confined_iff` — exactly when the authority of the base survives.
-/

namespace Castrum

/-- A parsed URI reference. -/
structure Ref where
  scheme : Option Str
  authority : Option Str
  path : Str
  query : Option Str
  fragment : Option Str
  deriving DecidableEq, Repr

/-- The characters a scheme is made of. -/
def isSchemeChar (c : Char) : Bool := c.isAlphanum || c = '+' || c = '-' || c = '.'

/-- `#`: the fragment is cut off first. -/
def parseFragment (input : Str) : Str × Option Str :=
  match cutAt '#' input with
  | some (rest, fragment) => (rest, some fragment)
  | none => (input, none)

def parseScheme (rest : Str) : Str × Option Str :=
  match cutAt ':' rest with
  | some (candidate, behind) =>
    if candidate ≠ [] ∧ candidate.all isSchemeChar then (behind, some candidate) else (rest, none)
  | none => (rest, none)

/-- `//`, up to the next `/`, whatever is before it. -/
def parseAuthority (rest : Str) : Str × Option Str :=
  match rest with
  | '/' :: '/' :: rest₂ => (rest₂.dropWhile (· ≠ '/'), some (rest₂.takeWhile (· ≠ '/')))
  | _ => (rest, none)

def parseQuery (rest : Str) : Str × Option Str :=
  match cutAt '?' rest with
  | some (path, query) => (path, some query)
  | none => (rest, none)

def parseRef (input : Str) : Ref :=
  let (rest, fragment) := parseFragment input
  let (rest, scheme) := parseScheme rest
  let (rest, authority) := parseAuthority rest
  let (path, query) := parseQuery rest
  { scheme, authority, path, query, fragment }

/-- One turn of the `remove_dot_segments` loop. -/
def pushSegment (segments : List Str) (seg : Str) : List Str :=
  if seg = ['.'] then segments
  else if seg = ['.', '.'] then segments.dropLast
  else segments ++ [seg]

def removeDotSegments (path : Str) : Str :=
  let leading := path.head? = some '/'
  let parts := path.splitOn '/'
  let parts := if parts.head? = some [] then parts.drop 1 else parts
  let body := ['/'].intercalate (parts.foldl pushSegment [])
  if leading then '/' :: body else body

/-- The base path up to its last `/`, and the reference behind it. -/
def mergePaths (basePath refPath : Str) : Str :=
  if '/' ∈ basePath then (basePath.reverse.dropWhile (· ≠ '/')).reverse ++ refPath else refPath

def resolveTarget (base r : Ref) : Ref :=
  if r.scheme.isSome then { r with path := removeDotSegments r.path }
  else
    let t : Ref :=
      { scheme := base.scheme, authority := base.authority, path := [], query := none,
        fragment := r.fragment }
    if r.authority.isSome then
      { t with authority := r.authority, path := removeDotSegments r.path, query := r.query }
    else if r.path = [] then
      { t with path := base.path, query := r.query <|> base.query }
    else if r.path.head? = some '/' then
      { t with path := removeDotSegments r.path, query := r.query }
    else
      { t with path := removeDotSegments (mergePaths base.path r.path), query := r.query }

/-- A component that is written only if it is there. -/
def written (before : Str) (component : Option Str) (behind : Str) : Str :=
  match component with
  | some s => before ++ s ++ behind
  | none => []

def recompose (r : Ref) : Str :=
  written [] r.scheme [':'] ++ written ['/', '/'] r.authority [] ++ r.path ++
    written ['?'] r.query [] ++ written ['#'] r.fragment []

def urlResolve (base reference : Str) : Str :=
  recompose (resolveTarget (parseRef base) (parseRef reference))

/-! ## What the parser finds -/

theorem parseFragment_not_mem (input : Str) : '#' ∉ (parseFragment input).1 := by
  unfold parseFragment
  split
  · next h => exact (cutAt_eq_some_iff.mp h).1
  · next h => exact cutAt_eq_none_iff.mp h

/-- A scheme the parser accepts. -/
def IsScheme (s : Str) : Prop := ':' ∉ s ∧ '#' ∉ s ∧ s ≠ [] ∧ s.all isSchemeChar

theorem not_mem_of_isSchemeChar {s : Str} {c : Char} (h : s.all isSchemeChar)
    (hc : isSchemeChar c = false) : c ∉ s := by
  intro hmem
  rw [List.all_eq_true] at h
  rw [h c hmem] at hc
  nomatch hc

theorem parseScheme_spec (rest : Str) :
    (∃ s, (parseScheme rest).2 = some s ∧ IsScheme s ∧ rest = s ++ ':' :: (parseScheme rest).1) ∨
      ((parseScheme rest).2 = none ∧ (parseScheme rest).1 = rest) := by
  unfold parseScheme
  split
  · next candidate behind h =>
    obtain ⟨hnot, heq⟩ := cutAt_eq_some_iff.mp h
    split
    · next hok =>
      exact .inl ⟨_, rfl, ⟨hnot, not_mem_of_isSchemeChar hok.2 (by decide), hok.1, hok.2⟩, heq⟩
    · exact .inr ⟨rfl, rfl⟩
  · exact .inr ⟨rfl, rfl⟩

theorem parseScheme_append {s : Str} (hs : IsScheme s) (behind : Str) :
    parseScheme (s ++ ':' :: behind) = (behind, some s) := by
  unfold parseScheme
  rw [cutAt_append hs.1]
  exact if_pos ⟨hs.2.2.1, hs.2.2.2⟩

theorem parseQuery_spec (rest : Str) :
    rest = (parseQuery rest).1 ++ written ['?'] (parseQuery rest).2 [] := by
  unfold parseQuery
  split
  · next h =>
    rw [(cutAt_eq_some_iff.mp h).2]
    simp [written]
  · simp [written]

/-- The authority is followed by nothing or by a slash. -/
theorem parseAuthority_spec {rest a : Str} (h : (parseAuthority rest).2 = some a) :
    '/' ∉ a ∧ rest = '/' :: '/' :: (a ++ (parseAuthority rest).1) ∧
      ((parseAuthority rest).1 = [] ∨ ∃ t, (parseAuthority rest).1 = '/' :: t) := by
  unfold parseAuthority at h ⊢
  split at h
  · next rest₂ =>
    obtain rfl := Option.some.inj h
    refine ⟨?_, ?_, ?_⟩
    · intro hmem
      simpa using List.mem_takeWhile_imp hmem
    · rw [List.takeWhile_append_dropWhile]
    · cases hd : rest₂.dropWhile (· ≠ '/') with
      | nil => exact .inl rfl
      | cons x t =>
        have hx := List.head?_dropWhile_not (· ≠ '/') rest₂
        rw [hd] at hx
        exact .inr ⟨t, by simpa using hx⟩
  · nomatch h

/-! ## Writing and reading back -/

theorem parseFragment_spec (input : Str) :
    (parseFragment input).1 ++ written ['#'] (parseFragment input).2 [] = input := by
  unfold parseFragment
  split
  · next h =>
    rw [(cutAt_eq_some_iff.mp h).2]
    simp [written]
  · exact List.append_nil _

theorem written_parseScheme (rest : Str) :
    written [] (parseScheme rest).2 [':'] ++ (parseScheme rest).1 = rest := by
  obtain ⟨s, hs, -, heq⟩ | ⟨hs, heq⟩ := parseScheme_spec rest
  · rw [hs]
    conv_rhs => rw [heq]
    simp [written]
  · rw [hs, heq]
    rfl

theorem written_parseAuthority (rest : Str) :
    written ['/', '/'] (parseAuthority rest).2 [] ++ (parseAuthority rest).1 = rest := by
  cases ha : (parseAuthority rest).2 with
  | some a =>
    obtain ⟨-, heq, -⟩ := parseAuthority_spec ha
    conv_rhs => rw [heq]
    simp [written]
  | none =>
    unfold parseAuthority at ha ⊢
    split at ha
    · nomatch ha
    · rfl

/-- **Nothing is lost**: each component is cut off with its delimiter, and an absent component is
not an empty one. -/
theorem recompose_parseRef (input : Str) : recompose (parseRef input) = input := by
  have hfragment := parseFragment_spec input
  have hscheme := written_parseScheme (parseFragment input).1
  have hauthority := written_parseAuthority (parseScheme (parseFragment input).1).1
  have hquery := parseQuery_spec (parseAuthority (parseScheme (parseFragment input).1).1).1
  conv_rhs => rw [← hfragment, ← hscheme, ← hauthority, hquery]
  unfold parseRef recompose
  simp only [List.append_assoc]

/-- The target is read back from behind its scheme: the authority runs on to the first slash. -/
theorem parseRef_recompose {s a path : Str} {query : Option Str} (fragment : Option Str) (hs : IsScheme s)
    (ha : '/' ∉ a) (hha : '#' ∉ a) (hpath : '#' ∉ path) (hquery : ∀ q ∈ query, '#' ∉ q) :
    let t := parseRef (recompose ⟨some s, some a, path, query, fragment⟩)
    t.scheme = some s ∧
      t.authority = some (a ++ (path ++ written ['?'] query []).takeWhile (· ≠ '/')) := by
  have hq : '#' ∉ written ['?'] query [] := by
    cases query with
    | none => exact List.not_mem_nil
    | some q => simpa [written] using hquery q rfl
  -- the first number sign is the one in front of the fragment
  have hall : '#' ∉ s ++ ':' :: '/' :: '/' :: (a ++ (path ++ written ['?'] query [])) := by
    simp only [List.mem_append, List.mem_cons, not_or]
    exact ⟨hs.2.1, by decide, by decide, by decide, hha, hpath, hq⟩
  have hfrag : (parseFragment (recompose ⟨some s, some a, path, query, fragment⟩)).1 =
      s ++ ':' :: '/' :: '/' :: (a ++ (path ++ written ['?'] query [])) := by
    have hrec : recompose ⟨some s, some a, path, query, fragment⟩ =
        (s ++ ':' :: '/' :: '/' :: (a ++ (path ++ written ['?'] query []))) ++
          written ['#'] fragment [] := by
      simp [recompose, written]
    rw [hrec]
    unfold parseFragment
    cases fragment with
    | none =>
      rw [show written ['#'] none [] = [] from rfl, List.append_nil, cutAt_eq_none_iff.mpr hall]
    | some f =>
      rw [show written ['#'] (some f) [] = '#' :: f by simp [written], cutAt_append hall]
  have htake : (a ++ (path ++ written ['?'] query [])).takeWhile (· ≠ '/') =
      a ++ (path ++ written ['?'] query []).takeWhile (· ≠ '/') := by
    apply List.takeWhile_append_of_pos
    intro c hc
    simpa using fun he : c = '/' => ha (he ▸ hc)
  unfold parseRef
  dsimp only
  rw [hfrag, parseScheme_append hs]
  exact ⟨rfl, congrArg some htake⟩

/-- What follows the authority adds nothing to it just if it is empty or begins with the slash. -/
theorem takeWhile_follow {path : Str} {query : Option Str} :
    (path ++ written ['?'] query []).takeWhile (· ≠ '/') = [] ↔
      path.head? = some '/' ∨ (path = [] ∧ query = none) := by
  cases path with
  | nil =>
    cases query with
    | none => simp [written]
    | some q => simp [written]
  | cons x path =>
    by_cases hx : x = '/'
    · simp [hx]
    · simp [hx]

/-! ## The path of the target -/

theorem mem_foldl_pushSegment {parts segments : List Str} {seg : Str}
    (h : seg ∈ parts.foldl pushSegment segments) : seg ∈ parts ∨ seg ∈ segments := by
  induction parts generalizing segments with
  | nil => exact .inr h
  | cons part parts ih =>
    obtain h | h := ih h
    · exact .inl (List.mem_cons_of_mem _ h)
    · unfold pushSegment at h
      split at h
      · exact .inr h
      · split at h
        · exact .inr (List.dropLast_subset _ h)
        · obtain h | h := List.mem_append.mp h
          · exact .inr h
          · exact .inl (List.mem_singleton.mp h ▸ List.mem_cons_self)

/-- Taking the dot segments out brings in no character but the slash. -/
theorem mem_removeDotSegments {path : Str} {c : Char} (h : c ∈ removeDotSegments path) :
    c = '/' ∨ c ∈ path := by
  unfold removeDotSegments at h
  dsimp only at h
  have hbody : ∀ parts : List Str, (∀ seg ∈ parts, seg ∈ path.splitOn '/') →
      c ∈ ['/'].intercalate (parts.foldl pushSegment []) → c = '/' ∨ c ∈ path := by
    intro parts hparts hc
    obtain rfl | ⟨seg, hseg, hc⟩ := mem_of_mem_intercalate hc
    · exact .inl rfl
    · obtain hseg | hseg := mem_foldl_pushSegment hseg
      · exact .inr (mem_of_mem_splitOn (hparts seg hseg) hc)
      · nomatch hseg
  have hsub : ∀ seg ∈ (if (path.splitOn '/').head? = some [] then (path.splitOn '/').drop 1
      else path.splitOn '/'), seg ∈ path.splitOn '/' := by
    intro seg hseg
    split at hseg
    · exact List.mem_of_mem_drop hseg
    · exact hseg
  split at h
  · obtain rfl | h := List.mem_cons.mp h
    · exact .inl rfl
    · exact hbody _ hsub h
  · exact hbody _ hsub h

/-- A path that begins with the slash still does without its dot segments. -/
theorem removeDotSegments_leading {path : Str} (h : path.head? = some '/') :
    (removeDotSegments path).head? = some '/' := by
  unfold removeDotSegments
  dsimp only
  rw [if_pos h]
  rfl

theorem mergePaths_leading {basePath : Str} (refPath : Str) (h : basePath.head? = some '/') :
    (mergePaths basePath refPath).head? = some '/' := by
  obtain ⟨t, rfl⟩ : ∃ t, basePath = '/' :: t := by
    cases basePath with
    | nil => nomatch h
    | cons x t => exact ⟨t, by rw [Option.some.inj h]⟩
  have hpre : (('/' :: t).reverse.dropWhile (· ≠ '/')).reverse =
      '/' :: (t.reverse.dropWhile (· ≠ '/')).reverse := by
    rw [List.reverse_cons, List.dropWhile_append]
    split
    · next hnil =>
      rw [List.isEmpty_iff.mp hnil]
      rfl
    · rw [List.reverse_append]
      rfl
  rw [mergePaths, if_pos List.mem_cons_self, hpre]
  rfl

/-- The parts of a base URL that has a scheme and an authority. -/
structure IsBase (base : Ref) (s a : Str) : Prop where
  scheme : base.scheme = some s
  authority : base.authority = some a
  isScheme : IsScheme s
  noSlash : '/' ∉ a
  noHash : '#' ∉ a ∧ '#' ∉ base.path ∧ ∀ q ∈ base.query, '#' ∉ q
  path : (base.path = [] ∧ base.query = none) ∨ base.path.head? = some '/'

theorem mem_written {before : Str} {component : Option Str} {s : Str} (h : component = some s)
    {c : Char} (hc : c ∈ s) : c ∈ written before component [] := by
  rw [h, written, List.append_nil]
  exact List.mem_append_right _ hc

/-- What is left to parse behind the scheme, and behind the authority. -/
def behindScheme (input : Str) : Str := (parseScheme (parseFragment input).1).1

def behindAuthority (input : Str) : Str := (parseAuthority (behindScheme input)).1

/-- Path and query of a reference come from before its fragment. -/
theorem parseRef_noHash (input : Str) :
    '#' ∉ (parseRef input).path ∧ ∀ q ∈ (parseRef input).query, '#' ∉ q := by
  have hrest := parseFragment_not_mem input
  have hscheme : '#' ∉ behindScheme input := by
    intro hmem
    obtain ⟨s, -, -, heq⟩ | ⟨-, heq⟩ := parseScheme_spec (parseFragment input).1
    · rw [heq] at hrest
      exact hrest (List.mem_append_right _ (List.mem_cons_of_mem _ hmem))
    · rw [behindScheme, heq] at hmem
      exact hrest hmem
  have hauth : '#' ∉ behindAuthority input := by
    intro hmem
    unfold behindAuthority parseAuthority at hmem
    split at hmem
    · next rest₂ heq =>
      rw [heq] at hscheme
      exact hscheme (List.mem_cons_of_mem _ (List.mem_cons_of_mem _
        ((List.dropWhile_sublist _).subset hmem)))
    · exact hscheme hmem
  rw [parseQuery_spec (behindAuthority input), List.mem_append, not_or] at hauth
  exact ⟨hauth.1, fun q hq hmem => hauth.2 (mem_written hq hmem)⟩

theorem isBase_parseRef {input s a : Str} (hs : (parseRef input).scheme = some s)
    (ha : (parseRef input).authority = some a) : IsBase (parseRef input) s a := by
  obtain ⟨hpath, hquery⟩ := parseRef_noHash input
  have hspec : '/' ∉ a ∧ behindScheme input = '/' :: '/' :: (a ++ behindAuthority input) ∧
      (behindAuthority input = [] ∨ ∃ t, behindAuthority input = '/' :: t) :=
    parseAuthority_spec ha
  obtain ⟨hslash, hrest, hfollow⟩ := hspec
  obtain ⟨s', hs', hscheme, heq⟩ | ⟨hnone, -⟩ := parseScheme_spec (parseFragment input).1
  · obtain rfl : s' = s := Option.some.inj (hs'.symm.trans hs)
    refine ⟨hs, ha, hscheme, hslash, ⟨?_, hpath, hquery⟩, ?_⟩
    · intro hmem
      have hfrag := parseFragment_not_mem input
      rw [heq, show (parseScheme (parseFragment input).1).1 = behindScheme input from rfl,
        hrest] at hfrag
      apply hfrag
      simp [hmem]
    · have hquery := parseQuery_spec (behindAuthority input)
      show ((parseQuery (behindAuthority input)).1 = [] ∧
        (parseQuery (behindAuthority input)).2 = none) ∨
        (parseQuery (behindAuthority input)).1.head? = some '/'
      obtain hnil | ⟨t, ht⟩ := hfollow
      · rw [hnil]
        exact .inl ⟨rfl, rfl⟩
      · rw [Or.comm, ← takeWhile_follow, ← hquery, ht]
        rfl
  · exact nomatch hs.symm.trans hnone

/-! ## Confinement -/

/-- The base has a path, or what the reference's path becomes without its dot segments starts with
the slash that ends an authority, or nothing is written behind the authority at all. -/
def Confined (base r : Ref) : Prop :=
  base.path ≠ [] ∨ (removeDotSegments r.path).head? = some '/' ∨
    (removeDotSegments r.path = [] ∧ r.query = none)

instance (base r : Ref) : Decidable (Confined base r) := inferInstanceAs (Decidable (_ ∨ _ ∨ _))

/-- The target of a reference without scheme and authority, and what its path looks like. -/
theorem resolveTarget_relative {base r : Ref} {s a : Str} (hb : IsBase base s a)
    (hs : r.scheme = none) (ha : r.authority = none) (hr : '#' ∉ r.path ∧ ∀ q ∈ r.query, '#' ∉ q) :
    ∃ path query, resolveTarget base r = ⟨some s, some a, path, query, r.fragment⟩ ∧
      ('#' ∉ path ∧ ∀ q ∈ query, '#' ∉ q) ∧
      (path.head? = some '/' ∨ (path = [] ∧ query = none) ↔ Confined base r) := by
  have hdots : ∀ p : Str, '#' ∉ p → '#' ∉ removeDotSegments p := by
    intro p hp hmem
    obtain h | h := mem_removeDotSegments hmem
    · nomatch h
    · exact hp h
  unfold resolveTarget
  rw [hs, ha, hb.scheme, hb.authority]
  simp only [Option.isSome_none, Bool.false_eq_true, if_false]
  by_cases hnil : r.path = []
  · -- the base's path, and its query where the reference has none
    rw [if_pos hnil]
    refine ⟨_, _, rfl, ⟨hb.noHash.2.1, ?_⟩, ?_⟩
    · intro q hq
      cases hrq : r.query with
      | some q' =>
        rw [hrq] at hq
        exact Option.some.inj hq ▸ hr.2 q' hrq
      | none =>
        rw [hrq] at hq
        exact hb.noHash.2.2 q hq
    · unfold Confined
      rw [hnil, show removeDotSegments [] = [] from rfl]
      obtain ⟨hp, hq⟩ | hp := hb.path
      · rw [hp, hq]
        simp
      · have hne : base.path ≠ [] := by
          intro h
          rw [h] at hp
          nomatch hp
        exact iff_of_true (.inl hp) (.inl hne)
  · rw [if_neg hnil]
    by_cases hlead : r.path.head? = some '/'
    · rw [if_pos hlead]
      have hd := removeDotSegments_leading hlead
      exact ⟨_, _, rfl, ⟨hdots _ hr.1, hr.2⟩, iff_of_true (.inl hd) (.inr (.inl hd))⟩
    · -- merged with the base's path, which is absolute unless it is empty
      rw [if_neg hlead]
      refine ⟨_, _, rfl, ⟨hdots _ ?_, hr.2⟩, ?_⟩
      · unfold mergePaths
        split
        · intro hmem
          obtain h | h := List.mem_append.mp hmem
          · rw [List.mem_reverse] at h
            exact hb.noHash.2.1 (List.mem_reverse.mp ((List.dropWhile_sublist _).subset h))
          · exact hr.1 h
        · exact hr.1
      · obtain ⟨hp, -⟩ | hp := hb.path
        · rw [hp, show mergePaths [] r.path = r.path from rfl, Confined, hp]
          simp
        · have hd := removeDotSegments_leading (mergePaths_leading r.path hp)
          have hne : base.path ≠ [] := by
            intro h
            rw [h] at hp
            nomatch hp
          exact iff_of_true (.inl hd) (.inl hne)

/-- **Exactly when a relative reference stays on the base's host.** -/
theorem resolve_confined_iff (base reference : Str) (hs : (parseRef base).scheme.isSome)
    (ha : (parseRef base).authority.isSome) (hrs : (parseRef reference).scheme = none)
    (hra : (parseRef reference).authority = none) :
    ((parseRef (urlResolve base reference)).scheme = (parseRef base).scheme ∧
      (parseRef (urlResolve base reference)).authority = (parseRef base).authority) ↔
    Confined (parseRef base) (parseRef reference) := by
  obtain ⟨s, hs⟩ := Option.isSome_iff_exists.mp hs
  obtain ⟨a, ha⟩ := Option.isSome_iff_exists.mp ha
  have hb := isBase_parseRef hs ha
  obtain ⟨path, query, htarget, ⟨hpath, hquery⟩, hiff⟩ :=
    resolveTarget_relative hb hrs hra (parseRef_noHash reference)
  obtain ⟨hscheme, hauth⟩ := parseRef_recompose (parseRef reference).fragment
    hb.isScheme hb.noSlash hb.noHash.1 hpath hquery
  rw [← hiff, urlResolve, htarget, hscheme, hauth, hs, ha, and_iff_right rfl, Option.some.injEq,
    ← takeWhile_follow]
  constructor
  · intro h
    exact List.append_cancel_left (h.trans (List.append_nil a).symm)
  · intro h
    rw [h, List.append_nil]

/-- A base that has a path keeps its host. -/
theorem resolve_confined_sibling :
    (parseRef (urlResolve "http://a/b/c/d;p?q".toList "../g?y#f".toList)).authority =
      some "a".toList :=
  ((resolve_confined_iff "http://a/b/c/d;p?q".toList "../g?y#f".toList (by decide +kernel)
    (by decide +kernel) (by decide +kernel) (by decide +kernel)).mpr (by decide +kernel)).2.trans
      (by decide +kernel)

/-- **A reference that leaves the host.** The base has no path, so the segment is glued to it. -/
theorem resolve_leaves_host :
    (parseRef "http://example.com".toList).authority = some "example.com".toList ∧
    (parseRef ".evil.org/".toList).scheme = none ∧
    (parseRef ".evil.org/".toList).authority = none ∧
    urlResolve "http://example.com".toList ".evil.org/".toList =
      "http://example.com.evil.org/".toList ∧
    (parseRef (urlResolve "http://example.com".toList ".evil.org/".toList)).authority =
      some "example.com.evil.org".toList := by
  decide +kernel

end Castrum
