import Castrum.Ingress.Origin

/-!
# Castrum — the components of a request target (`rust/ingress/proxy.rs`)

A target is built from its components, in origin form or behind `http(s)://` and an authority, and
the two extractors are run on what is written.

* `searchSpace_render` — behind the scheme stand the authority, the path and what follows it;
* `extractQuery_render` — the query always reads back, as nothing where there is none;
* `extractPath_render` — a path that is written reads back;
* `extract_render` — both, with `/` for the path of a bare authority.
-/

namespace Castrum

/-- A component that is written behind its mark, if it is there. -/
def marked (mark : UInt8) : Option Bytes → Bytes
  | some component => mark :: component
  | none => []

/-- **A request target by its components**: origin form, with a path from `/` on, or the scheme
`https` or `http` with an authority, and then perhaps no path. -/
structure RequestTarget where
  origin : Option (Bool × Bytes)
  path : Bytes
  query : Option Bytes
  fragment : Option Bytes
  authority_plain : ∀ site ∈ origin, ∀ b ∈ site.2, b ≠ 47 ∧ isQueryMark b = false
  path_plain : ∀ b ∈ path, isQueryMark b = false
  path_rooted : path.head? = some 47 ∨ (path = [] ∧ origin.isSome)
  query_plain : ∀ q ∈ query, 35 ∉ q

namespace RequestTarget

variable (t : RequestTarget)

def scheme : Bytes :=
  match t.origin with
  | some (true, _) => utf8 "https://"
  | some (false, _) => utf8 "http://"
  | none => []

def authority : Bytes := (t.origin.map (·.2)).getD []

/-- What stands behind the path. -/
def suffix : Bytes := marked 63 t.query ++ marked 35 t.fragment

def render : Bytes := t.scheme ++ (t.authority ++ (t.path ++ t.suffix))

/-! ## What is written -/

theorem not_slash_of_mem_authority {b : UInt8} (hb : b ∈ t.authority) : b ≠ 47 := by
  unfold authority at hb
  cases horigin : t.origin with
  | none =>
    rw [horigin] at hb
    cases hb
  | some site =>
    rw [horigin] at hb
    exact (t.authority_plain site horigin b hb).1

/-- No mark stands in front of the query. -/
theorem not_mark_of_mem_front {b : UInt8} (hb : b ∈ t.authority ++ t.path) :
    isQueryMark b = false := by
  rcases List.mem_append.mp hb with hauthority | hpath
  · unfold authority at hauthority
    cases horigin : t.origin with
    | none =>
      rw [horigin] at hauthority
      cases hauthority
    | some site =>
      rw [horigin] at hauthority
      exact (t.authority_plain site horigin b hauthority).2
  · exact t.path_plain b hpath

/-- **The search space** starts behind the scheme: origin form starts with `/`, and so with neither
scheme. -/
theorem searchSpace_render :
    t.render.drop (searchStart t.render) = t.authority ++ (t.path ++ t.suffix) := by
  unfold render scheme
  match horigin : t.origin with
  | some (true, authority) => rfl
  | some (false, authority) => rfl
  | none =>
    have hauthority : t.authority = [] := by
      unfold authority
      rw [horigin]
      rfl
    have hpath : t.path.head? = some 47 := by
      rcases t.path_rooted with hhead | ⟨-, hsome⟩
      · exact hhead
      · rw [horigin] at hsome
        cases hsome
    rw [hauthority]
    cases hp : t.path with
    | nil =>
      rw [hp] at hpath
      cases hpath
    | cons b rest =>
      rw [hp] at hpath
      have hb : b = 47 := Option.some.inj hpath
      subst hb
      rfl

/-! ## The query -/

/-- The query always reads back. -/
theorem extractQuery_render : extractQuery t.render = t.query.getD [] := by
  unfold extractQuery
  rw [searchSpace_render, ← List.append_assoc]
  dsimp only
  have hfront : (t.authority ++ t.path).findIdx? isQueryMark = none := by
    rw [List.findIdx?_eq_none_iff]
    intro b hb
    exact t.not_mark_of_mem_front hb
  rw [List.findIdx?_append, hfront, Option.none_or]
  generalize t.authority ++ t.path = front
  unfold suffix
  cases hquery : t.query with
  | some q =>
    have hend : (q ++ marked 35 t.fragment).takeWhile (· ≠ 35) = q := by
      rw [List.takeWhile_append_of_pos]
      · cases t.fragment with
        | none => exact List.append_nil q
        | some f => exact List.append_nil q
      · intro b hb
        have hne : b ≠ 35 := by
          rintro rfl
          exact t.query_plain q hquery hb
        simpa using hne
    have hbehind : (front ++ 63 :: (q ++ marked 35 t.fragment)).drop (front.length + 1) =
        q ++ marked 35 t.fragment := by
      rw [← List.drop_drop, List.drop_left]
      rfl
    have hmark : (front ++ 63 :: (q ++ marked 35 t.fragment))[front.length]? = some 63 := by
      rw [List.getElem?_append_right (le_refl _), Nat.sub_self]
      rfl
    show (if (front ++ 63 :: (q ++ marked 35 t.fragment))[0 + front.length]? = some 63
      then ((front ++ 63 :: (q ++ marked 35 t.fragment)).drop
        (0 + front.length + 1)).takeWhile (· ≠ 35) else []) = q
    rw [Nat.zero_add, if_pos hmark, hbehind]
    exact hend
  | none =>
    cases t.fragment with
    | none => rfl
    | some f =>
      -- the first mark is the `#`, where no query starts
      show (if (front ++ 35 :: f)[0 + front.length]? = some 63 then _ else []) = []
      rw [Nat.zero_add, List.getElem?_append_right (le_refl _), Nat.sub_self]
      rfl

/-! ## The path -/

theorem takeWhile_path : (t.path ++ t.suffix).takeWhile (fun b => !isQueryMark b) = t.path := by
  rw [List.takeWhile_append_of_pos]
  · have hend : t.suffix.takeWhile (fun b => !isQueryMark b) = [] := by
      unfold suffix
      cases t.query with
      | some q => rfl
      | none =>
        cases t.fragment with
        | some f => rfl
        | none => rfl
    rw [hend, List.append_nil]
  · intro b hb
    rw [t.path_plain b hb]
    rfl

theorem authority_findIdx? : t.authority.findIdx? (· = 47) = none := by
  rw [List.findIdx?_eq_none_iff]
  intro b hb
  exact decide_eq_false (t.not_slash_of_mem_authority hb)

/-- A path that is written is found behind the authority, which has no `/`. -/
theorem extractPath_render (hpath : t.path ≠ []) : extractPath t.render = t.path := by
  have hroot : ∃ rest, t.path = 47 :: rest := by
    rcases t.path_rooted with hhead | ⟨hnil, -⟩
    · exact ⟨_, List.eq_cons_of_mem_head? hhead⟩
    · exact absurd hnil hpath
  obtain ⟨rest, hrest⟩ := hroot
  have hfind : (t.path ++ t.suffix).findIdx? (· = 47) = some 0 := by
    rw [hrest]
    rfl
  unfold extractPath
  rw [searchSpace_render]
  dsimp only
  rw [List.findIdx?_append, authority_findIdx?, Option.none_or, hfind]
  show ((t.authority ++ (t.path ++ t.suffix)).drop (0 + t.authority.length)).takeWhile _ = t.path
  rw [Nat.zero_add, List.drop_left]
  exact t.takeWhile_path

/-- Behind a bare authority the first `/` would be one of the query or the fragment. -/
theorem extractPath_render_bare (hpath : t.path = []) (hsuffix : 47 ∉ t.suffix) :
    extractPath t.render = utf8 "/" := by
  have hfind : (t.path ++ t.suffix).findIdx? (· = 47) = none := by
    rw [hpath, List.nil_append, List.findIdx?_eq_none_iff]
    intro b hb
    apply decide_eq_false
    rintro rfl
    exact hsuffix hb
  unfold extractPath
  rw [searchSpace_render]
  dsimp only
  rw [List.findIdx?_append, authority_findIdx?, Option.none_or, hfind]
  rfl

/-- **The components of a target**: the query is exact, and so is a path that is written; a target
without a path has the path `/`, where no `/` of a query or a fragment is taken for it. -/
theorem extract_render :
    extractQuery t.render = t.query.getD [] ∧
    (t.path ≠ [] → extractPath t.render = t.path) ∧
    (t.path = [] → 47 ∉ t.suffix → extractPath t.render = utf8 "/") :=
  ⟨t.extractQuery_render, t.extractPath_render, t.extractPath_render_bare⟩

/-- `http://example.com`, perhaps with a query. -/
def bare (query : Option Bytes) (hquery : ∀ q ∈ query, 35 ∉ q) : RequestTarget where
  origin := some (false, utf8 "example.com")
  path := []
  query := query
  fragment := none
  authority_plain := by decide
  path_plain := fun b hb => by cases hb
  path_rooted := .inr ⟨rfl, rfl⟩
  query_plain := hquery

/-- `https://example.com/api?x=1#/top`. -/
def absolute : RequestTarget where
  origin := some (true, utf8 "example.com")
  path := utf8 "/api"
  query := some (utf8 "x=1")
  fragment := some (utf8 "/top")
  authority_plain := by decide
  path_plain := by decide
  path_rooted := .inl rfl
  query_plain := by decide

theorem extract_render_absolute :
    extractQuery absolute.render = utf8 "x=1" ∧ extractPath absolute.render = utf8 "/api" ∧
    extractPath (bare none (by decide)).render = utf8 "/" := by
  obtain ⟨hquery, hpath, -⟩ := absolute.extract_render
  obtain ⟨-, -, hbare⟩ := (bare none (by decide)).extract_render
  exact ⟨hquery, hpath (by decide), hbare rfl (by decide)⟩

/-- The path of `http://example.com` is empty and `/` is extracted; that of
`http://example.com?next=/home` is empty and `/home` is extracted. -/
theorem extractPath_bare_ne :
    extractPath (bare none (by decide)).render = utf8 "/" ∧
    extractPath (bare none (by decide)).render ≠ (bare none (by decide)).path ∧
    extractPath (bare (some (utf8 "next=/home")) (by decide)).render = utf8 "/home" ∧
    extractPath (bare (some (utf8 "next=/home")) (by decide)).render ≠
      (bare (some (utf8 "next=/home")) (by decide)).path := by
  refine ⟨?_, ?_, ?_, ?_⟩ <;> decide

end RequestTarget

end Castrum
