import Castrum.Ingress.PathMatcher
import Castrum.Ingress.SelectHeaders

/-!
# Castrum — routes and their handlers (`src/ingress/router.ts`, `server.ts`)

A route specification becomes a plain object of handlers by method. The router looks the method of a
request up in the object of the matched path, with all that it inherits: the functions of
`Object.prototype`, and those of a handler that was wired for a method called `__proto__`.

* `buildRouteHandlers` — the handlers of each path, and `Wired` — the methods they are for;
* `fetch` — the dispatcher, and `fetchOwn` — one that sees own entries only;
* `fetch_eq_fetchOwn_iff` — the methods for which they are the same.
-/

namespace Castrum.Router

open Castrum.PathMatcher

/-! ## Handlers -/

/-- A handler, by the factory that made it: `I` are compiled ingress instances, `F` functions of the
user, which are guarded. -/
inductive Handler (I F : Type) where
  | guarded (f : F)
  | read (i : I)
  | head (i : I)
  | jsonWrite (i fallback : I)
  | echo (i : I)
  | delete (i : I)
  | responder (i : I) (f : F)
  | native (f : F)
  | options (i : I)
  deriving DecidableEq

/-- What a handler map holds: a function, or the response of a static route. -/
inductive Entry (I F : Type) where
  | handler (h : Handler I F)
  | response
  deriving DecidableEq

/-- A plain object of handlers. It inherits from `Object.prototype`, or from a handler that was assigned
to `__proto__`. -/
structure MethodMap (I F : Type) where
  own : String → Option (Entry I F)
  proto : Option (Handler I F)

/-- What a property lookup comes out at. A `builtin` is a function of a prototype; `other` is neither a
function nor a response. -/
inductive Value (I F : Type) where
  | undefined
  | entry (e : Entry I F)
  | builtin
  | other
  | throws

/-- The properties of a function and of `Function.prototype`, before those of `Object.prototype`. -/
def functionNames : List String :=
  ["length", "name", "apply", "bind", "call", "arguments", "caller"]

namespace MethodMap

variable {I F : Type}

def empty : MethodMap I F where
  own _ := none
  proto := none

def put (m : MethodMap I F) (method : String) (e : Entry I F) : MethodMap I F :=
  { m with own := fun k => if k = method then some e else m.own k }

/-- `methods[method] = handler`. The accessor of `Object.prototype` takes the handler as the prototype;
the own properties of a function cannot be assigned over, and its accessors throw. -/
def assign (m : MethodMap I F) (method : String) (h : Handler I F) : Option (MethodMap I F) :=
  if method = Js.protoKey then some { m with proto := some h }
  else if m.proto.isSome ∧ (m.own method).isNone ∧ method ∈ ["length", "name", "arguments", "caller"] then
    none
  else some (m.put method (.handler h))

/-- `methods[method]`. -/
def get (m : MethodMap I F) (method : String) : Value I F :=
  match m.own method, m.proto with
  | some e, _ => .entry e
  | none, none =>
    if method = Js.protoKey then .other
    else if method ∈ Js.objectPrototypeNames then .builtin else .undefined
  | none, some h =>
    if method = Js.protoKey then .entry (.handler h)
    else if method ∈ ["length", "name"] then .other
    else if method ∈ ["arguments", "caller"] then .throws
    else if method ∈ functionNames ∨ method ∈ Js.objectPrototypeNames then .builtin
    else .undefined

/-- The lookup of a method that is not wired does not end at `undefined`, or at an object that is no
function. -/
def Inherits (m : MethodMap I F) (method : String) : Prop :=
  match m.proto with
  | none => method ∈ Js.objectPrototypeNames ∧ method ≠ Js.protoKey
  | some _ => method ∈ Js.objectPrototypeNames ∨ method ∈ functionNames ∧ method ∉ ["length", "name"]

end MethodMap

/-! ## Building the routes -/

inductive StaticRoute (F : Type) where
  | factory (f : F)
  | response

inductive ReadRoute (I F : Type) where
  | raw (f : F)
  | ingress (i : I)

structure ResponderRoute (I F : Type) where
  ingress : I
  handler : F
  methods : Option (List String)

structure NativeResponderRoute (F : Type) where
  handler : F
  methods : Option (List String)

structure BakedRoute (I F : Type) where
  static : Option (StaticRoute F)
  read : Option (ReadRoute I F)
  write : Option I
  echo : Option I
  cookies : Option I
  delete : Option I
  responder : Option (ResponderRoute I F)
  native : Option (NativeResponderRoute F)

section

variable {I F : Type}

/-- The methods of a responder, less the `GET` that a static route owns. -/
def wiredMethods (hasStatic : Bool) (methods : Option (List String)) : List String :=
  (methods.getD ["GET"]).filter fun m => !(hasStatic && m = "GET")

def assignAll (m : MethodMap I F) (methods : List String) (h : Handler I F) :
    Option (MethodMap I F) := methods.foldlM (fun m method => m.assign method h) m

/-- The instance that answers preflights. -/
def BakedRoute.primary (spec : BakedRoute I F) : Option I :=
  spec.delete <|>
    (match spec.static, spec.read with
    | none, some (.ingress i) => some i
    | _, _ => none) <|>
    (if spec.static.isSome then none else spec.cookies) <|> spec.write <|> spec.echo

/-- A static route owns `GET`; a raw handler has no `HEAD`. -/
def getMethods (spec : BakedRoute I F) : MethodMap I F :=
  match spec.static, spec.read with
  | some (.factory f), _ => MethodMap.empty.put "GET" (.handler (.guarded f))
  | some .response, _ => MethodMap.empty.put "GET" .response
  | none, some (.raw f) => MethodMap.empty.put "GET" (.handler (.guarded f))
  | none, some (.ingress i) =>
    (MethodMap.empty.put "GET" (.handler (.read i))).put "HEAD" (.handler (.head i))
  | none, none => MethodMap.empty

def writeMethods (fallback : Option I) (spec : BakedRoute I F) (methods : MethodMap I F) :
    MethodMap I F :=
  spec.write.elim methods fun i =>
    let handler := Entry.handler (.jsonWrite i (fallback.getD i))
    ((methods.put "POST" handler).put "PUT" handler).put "PATCH" handler

def cookieMethods (spec : BakedRoute I F) (methods : MethodMap I F) : MethodMap I F :=
  if spec.static.isSome then methods
  else spec.cookies.elim methods fun i => methods.put "GET" (.handler (.read i))

/-- The handlers of one path; `fallback` is that of the server. -/
def buildMethods (fallback : Option I) (spec : BakedRoute I F) : Option (MethodMap I F) := do
  let methods := writeMethods fallback spec (getMethods spec)
  let methods := spec.echo.elim methods fun i => methods.put "POST" (.handler (.echo i))
  let methods := cookieMethods spec methods
  let methods := spec.delete.elim methods fun i => methods.put "DELETE" (.handler (.delete i))
  let methods ← spec.responder.elim (some methods) fun r =>
    assignAll methods (wiredMethods spec.static.isSome r.methods) (.responder r.ingress r.handler)
  let methods ← spec.native.elim (some methods) fun r =>
    assignAll methods (wiredMethods spec.static.isSome r.methods) (.native r.handler)
  return spec.primary.elim methods fun i => methods.put "OPTIONS" (.handler (.options i))

/-- `buildRouteHandlers`, of the entries of `options.routes`. A path called `__proto__` becomes the
prototype of the table, and no entry of it. -/
def buildRouteHandlers (fallback : Option I) (specs : List (Str × BakedRoute I F)) :
    Option (List (Str × MethodMap I F)) :=
  (specs.filter fun p => p.1 ≠ protoName).mapM fun p => (buildMethods fallback p.2).map (p.1, ·)

end

/-! ## The routes of a router -/

/-- The specification of a route of the router; `ingress` is the instance compiled for it, which the
flags wire. -/
structure RouterRouteSpec (I F : Type) where
  ingress : I
  static : Option (StaticRoute F)
  raw : Option F
  native : Option (NativeResponderRoute F)
  responder : Option (F × Option (List String))
  read : Bool
  write : Bool
  echo : Bool
  cookies : Bool
  delete : Bool

section

variable {I F : Type}

/-- The route that `createIngressRouter` passes on. -/
def RouterRouteSpec.baked (spec : RouterRouteSpec I F) : BakedRoute I F :=
  let none' : BakedRoute I F := ⟨none, none, none, none, none, none, none, none⟩
  match spec.static, spec.raw, spec.native, spec.responder with
  | some s, _, _, _ => { none' with static := some s }
  | none, some f, _, _ => { none' with read := some (.raw f) }
  | none, none, some n, _ => { none' with native := some n }
  | none, none, none, some (f, methods) =>
    { none' with responder := some ⟨spec.ingress, f, methods⟩ }
  | none, none, none, none =>
    { none' with
      read := if spec.read then some (.ingress spec.ingress) else none
      write := if spec.write then some spec.ingress else none
      echo := if spec.echo then some spec.ingress else none
      cookies := if spec.cookies then some spec.ingress else none
      delete := if spec.delete then some spec.ingress else none }

def createIngressRouter (specs : List (Str × RouterRouteSpec I F)) :
    Option (List (Str × MethodMap I F)) :=
  buildRouteHandlers none (specs.map fun p => (p.1, p.2.baked))

/-! ## Dispatch -/

/-- What the dispatcher does: it answers with an error, calls a handler, answers with the response of a
static route, calls a function that is no handler, or throws. -/
inductive Outcome (I F : Type) where
  | error (status : Nat)
  | called (h : Handler I F) (params : Str → Option Str)
  | static
  | builtin
  | threw

/-- The answer of a matched route. -/
def respond (matched : PathMatch (MethodMap I F)) (method : String) : Outcome I F :=
  match matched.methods.get method with
  | .entry (.handler h) => .called h matched.params
  | .builtin => .builtin
  | .throws => .threw
  | .entry .response => .static
  | _ =>
    if method = "OPTIONS" then
      match matched.methods.get "OPTIONS" with
      | .entry (.handler h) => .called h matched.params
      | .builtin => .builtin
      | _ => .error 405
    else .error 405

/-- `fetch` of the router; `pathname` is that of the URL, if it is one. -/
def fetch (routes : List (Str × MethodMap I F)) (pathname : Option Str) (method : String) :
    Outcome I F :=
  pathname.elim (.error 400) fun pathname =>
    (buildPathMatcher routes pathname).elim (.error 404) fun matched => respond matched method

/-- The answer that own entries alone give. -/
def respondOwn (matched : PathMatch (MethodMap I F)) (method : String) : Outcome I F :=
  match matched.methods.own method with
  | some (.handler h) => .called h matched.params
  | some .response => .static
  | none => .error 405

/-- A dispatcher that sees own entries only. -/
def fetchOwn (routes : List (Str × MethodMap I F)) (pathname : Option Str) (method : String) :
    Outcome I F :=
  pathname.elim (.error 400) fun pathname =>
    (buildPathMatcher routes pathname).elim (.error 404) fun matched => respondOwn matched method

/-- The methods a route is wired for. A method called `__proto__` is not one. -/
def Wired (spec : BakedRoute I F) (method : String) : Prop :=
  method = "OPTIONS" ∧ spec.primary.isSome ∨
    (method ≠ Js.protoKey ∧
      ∃ r, spec.native = some r ∧ method ∈ wiredMethods spec.static.isSome r.methods) ∨
    (method ≠ Js.protoKey ∧
      ∃ r, spec.responder = some r ∧ method ∈ wiredMethods spec.static.isSome r.methods) ∨
    method = "DELETE" ∧ spec.delete.isSome ∨
    method = "GET" ∧ spec.static = none ∧ spec.cookies.isSome ∨
    method = "POST" ∧ spec.echo.isSome ∨
    method ∈ ["POST", "PUT", "PATCH"] ∧ spec.write.isSome ∨
    method = "GET" ∧ (spec.static.isSome ∨ spec.read.isSome) ∨
    method = "HEAD" ∧ spec.static = none ∧ ∃ i, spec.read = some (.ingress i)

end

/-! ## What is wired -/

section

variable {I F : Type} {m m' : MethodMap I F} {method k : String} {e : Entry I F} {h : Handler I F}

theorem MethodMap.isSome_put :
    ((m.put k e).own method).isSome ↔ method = k ∨ (m.own method).isSome := by
  show (if method = k then some e else m.own method).isSome ↔ _
  split
  · next heq => exact iff_of_true rfl (.inl heq)
  · next hne => rw [or_iff_right hne]

theorem MethodMap.isSome_assign (hm : m.assign k h = some m') :
    (m'.own method).isSome ↔ method ≠ Js.protoKey ∧ method = k ∨ (m.own method).isSome := by
  unfold MethodMap.assign at hm
  split at hm
  · next heq =>
    cases hm
    rw [or_iff_right]
    rintro ⟨hne, rfl⟩
    exact hne heq
  · next hne =>
    split at hm
    · exact nomatch hm
    · cases hm
      rw [MethodMap.isSome_put, and_iff_right_of_imp]
      rintro rfl
      exact hne

theorem isSome_assignAll {methods : List String} (hm : assignAll m methods h = some m') :
    (m'.own method).isSome ↔ method ≠ Js.protoKey ∧ method ∈ methods ∨ (m.own method).isSome := by
  unfold assignAll at hm
  induction methods generalizing m with
  | nil =>
    cases hm
    rw [or_iff_right (fun hmem => nomatch hmem.2)]
  | cons k methods ih =>
    obtain ⟨m₁, hm₁, hm⟩ := Option.bind_eq_some_iff.mp hm
    rw [ih hm, MethodMap.isSome_assign hm₁, List.mem_cons]
    tauto

theorem isSome_elim_put {α : Type} {x : Option α} {g : α → Entry I F} :
    ((x.elim m fun i => m.put k (g i)).own method).isSome ↔
      method = k ∧ x.isSome ∨ (m.own method).isSome := by
  cases x with
  | none => exact (or_iff_right fun h => nomatch h.2).symm
  | some i => exact MethodMap.isSome_put.trans (or_congr_left (and_iff_left rfl).symm)

/-- A responder is wired for its methods. -/
theorem isSome_elim_assign {α : Type} {x : Option α} {methods : α → List String}
    {handler : α → Handler I F}
    (hm : (x.elim (some m) fun r => assignAll m (methods r) (handler r)) = some m') :
    (m'.own method).isSome ↔
      (method ≠ Js.protoKey ∧ ∃ r, x = some r ∧ method ∈ methods r) ∨ (m.own method).isSome := by
  cases x with
  | none =>
    cases hm
    rw [or_iff_right]
    rintro ⟨-, r, hr, -⟩
    exact nomatch hr
  | some r =>
    rw [isSome_assignAll hm]
    refine or_congr_left (and_congr_right fun _ => ⟨fun h => ⟨r, rfl, h⟩, ?_⟩)
    rintro ⟨r', hr', h⟩
    cases hr'
    exact h

theorem isSome_getMethods (spec : BakedRoute I F) : ((getMethods spec).own method).isSome ↔
    method = "GET" ∧ (spec.static.isSome ∨ spec.read.isSome) ∨
      method = "HEAD" ∧ spec.static = none ∧ ∃ i, spec.read = some (.ingress i) := by
  have hempty : ¬ ((MethodMap.empty : MethodMap I F).own method).isSome := nofun
  unfold getMethods
  split
  · next hstatic =>
    rw [MethodMap.isSome_put, hstatic]
    simp [hempty]
  · next hstatic =>
    rw [MethodMap.isSome_put, hstatic]
    simp [hempty]
  · next hstatic hread =>
    rw [MethodMap.isSome_put, hstatic, hread]
    simp [hempty]
  · next hstatic hread =>
    rw [MethodMap.isSome_put, MethodMap.isSome_put, hstatic, hread]
    simp [hempty, or_comm]
  · next hstatic hread =>
    rw [hstatic, hread]
    simp [hempty]

theorem isSome_writeMethods (fallback : Option I) (spec : BakedRoute I F) :
    ((writeMethods fallback spec m).own method).isSome ↔
      method ∈ ["POST", "PUT", "PATCH"] ∧ spec.write.isSome ∨ (m.own method).isSome := by
  unfold writeMethods
  cases spec.write with
  | none => exact (or_iff_right fun h => nomatch h.2).symm
  | some i =>
    show ((((m.put "POST" _).put "PUT" _).put "PATCH" _).own method).isSome ↔ _
    rw [MethodMap.isSome_put, MethodMap.isSome_put, MethodMap.isSome_put]
    simp only [List.mem_cons, List.not_mem_nil, Option.isSome_some]
    tauto

theorem isSome_cookieMethods (spec : BakedRoute I F) :
    ((cookieMethods spec m).own method).isSome ↔
      method = "GET" ∧ spec.static = none ∧ spec.cookies.isSome ∨ (m.own method).isSome := by
  unfold cookieMethods
  cases spec.static with
  | none =>
    rw [if_neg (by simp), isSome_elim_put]
    simp
  | some static => simp

/-- **The own entries of a route** are those of the methods it is wired for. -/
theorem isSome_buildMethods {fallback : Option I} {spec : BakedRoute I F}
    (hm : buildMethods fallback spec = some m) : (m.own method).isSome ↔ Wired spec method := by
  obtain ⟨m₅, h₅, hm⟩ := Option.bind_eq_some_iff.mp hm
  obtain ⟨m₆, h₆, hm⟩ := Option.bind_eq_some_iff.mp hm
  cases hm
  rw [isSome_elim_put, isSome_elim_assign h₆, isSome_elim_assign h₅, isSome_elim_put,
    isSome_cookieMethods, isSome_elim_put, isSome_writeMethods, isSome_getMethods]
  exact Iff.rfl

theorem exists_of_mem_mapM {α β : Type} {f : α → Option β} {l : List α} {l' : List β}
    (h : l.mapM f = some l') {y : β} (hy : y ∈ l') : ∃ x ∈ l, f x = some y := by
  induction l generalizing l' with
  | nil =>
    rw [List.mapM_nil] at h
    cases h
    exact nomatch hy
  | cons x l ih =>
    rw [List.mapM_cons] at h
    obtain ⟨y', hy', h⟩ := Option.bind_eq_some_iff.mp h
    obtain ⟨ys, hys, h⟩ := Option.bind_eq_some_iff.mp h
    cases h
    rcases List.mem_cons.mp hy with rfl | hy
    · exact ⟨x, List.mem_cons_self, hy'⟩
    · obtain ⟨x', hx', hfx⟩ := ih hys hy
      exact ⟨x', List.mem_cons_of_mem _ hx', hfx⟩

/-- **Every route of a router** is one of its specifications, with the handlers that it is wired for. -/
theorem mem_createIngressRouter {specs : List (Str × RouterRouteSpec I F)}
    {routes : List (Str × MethodMap I F)} (hbuilt : createIngressRouter specs = some routes)
    {p : Str × MethodMap I F} (hp : p ∈ routes) :
    ∃ spec, (p.1, spec) ∈ specs ∧ ∀ method, (p.2.own method).isSome ↔ Wired spec.baked method := by
  obtain ⟨q, hq, hbuild⟩ := exists_of_mem_mapM hbuilt hp
  obtain ⟨m, hm, rfl⟩ := Option.map_eq_some_iff.mp hbuild
  obtain ⟨r, hr, rfl⟩ := List.mem_map.mp (List.mem_of_mem_filter hq)
  exact ⟨r.2, hr, fun method => isSome_buildMethods hm⟩

/-! ## Dispatch -/

/-- **Where own entries are all that is seen.** A lookup that is inherited is called, or throws. -/
theorem get_of_not_own (hown : m.own method = none) :
    (¬ m.Inherits method → m.get method = .undefined ∨ m.get method = .other) ∧
      (m.Inherits method → m.get method = .builtin ∨ m.get method = .throws ∨
        ∃ h, m.get method = .entry (.handler h)) := by
  unfold MethodMap.Inherits MethodMap.get
  rw [hown]
  -- A plain map inherits from `Object.prototype`; a bare handler is a function, with the names of
  -- these besides.
  cases m.proto with
  | none =>
    dsimp only
    by_cases hproto : method = Js.protoKey
    · rw [if_pos hproto]
      exact ⟨fun _ => .inr rfl, fun h => absurd hproto h.2⟩
    · rw [if_neg hproto]
      by_cases hname : method ∈ Js.objectPrototypeNames
      · rw [if_pos hname]
        exact ⟨fun h => absurd ⟨hname, hproto⟩ h, fun _ => .inl rfl⟩
      · rw [if_neg hname]
        exact ⟨fun _ => .inl rfl, fun h => absurd h.1 hname⟩
  | some h =>
    dsimp only
    -- A function has two own data properties, two accessors that throw, and what it inherits.
    by_cases hproto : method = Js.protoKey
    · rw [if_pos hproto]
      exact ⟨fun h => absurd (.inl (hproto ▸ by decide)) h, fun _ => .inr (.inr ⟨h, rfl⟩)⟩
    · rw [if_neg hproto]
      by_cases hplain : method ∈ ["length", "name"]
      · rw [if_pos hplain]
        refine ⟨fun _ => .inr rfl, ?_⟩
        rintro (hname | hname)
        · have hnot : ∀ k ∈ ["length", "name"], k ∉ Js.objectPrototypeNames := by decide
          exact absurd hname (hnot method hplain)
        · exact absurd hplain hname.2
      · rw [if_neg hplain]
        by_cases hthrows : method ∈ ["arguments", "caller"]
        · rw [if_pos hthrows]
          have hin : ∀ k ∈ ["arguments", "caller"], k ∈ functionNames := by decide
          exact ⟨fun h => absurd (.inr ⟨hin method hthrows, hplain⟩) h, fun _ => .inr (.inl rfl)⟩
        · rw [if_neg hthrows]
          by_cases hname : method ∈ functionNames ∨ method ∈ Js.objectPrototypeNames
          · rw [if_pos hname]
            refine ⟨fun h => absurd ?_ h, fun _ => .inl rfl⟩
            rcases hname with hname | hname
            · exact .inr ⟨hname, hplain⟩
            · exact .inl hname
          · rw [if_neg hname]
            refine ⟨fun _ => .inl rfl, ?_⟩
            rintro (h | h)
            · exact absurd (.inr h) hname
            · exact absurd (.inl h.1) hname

theorem respond_eq_respondOwn_iff (matched : PathMatch (MethodMap I F)) (method : String) :
    respond matched method = respondOwn matched method ↔
      (matched.methods.own method = none → ¬ matched.methods.Inherits method) := by
  unfold respondOwn
  cases hown : matched.methods.own method with
  | some e =>
    have hget : matched.methods.get method = .entry e := by rw [MethodMap.get, hown]
    refine iff_of_true ?_ fun h => nomatch h
    unfold respond
    rw [hget]
    cases e with
    | _ => rfl
  | none =>
    obtain ⟨hnot, hyes⟩ := get_of_not_own hown
    by_cases hinherits : matched.methods.Inherits method
    · refine iff_of_false ?_ fun h => h rfl hinherits
      unfold respond
      rcases hyes hinherits with hget | hget | ⟨h, hget⟩
      · rw [hget]
        exact nofun
      · rw [hget]
        exact nofun
      · rw [hget]
        exact nofun
    · refine iff_of_true ?_ fun _ => hinherits
      -- the second look at `OPTIONS` sees what the first one saw
      have hagain : method = "OPTIONS" →
          matched.methods.get "OPTIONS" = .undefined ∨ matched.methods.get "OPTIONS" = .other := by
        rintro rfl
        exact hnot hinherits
      have herror : (if method = "OPTIONS" then
          match matched.methods.get "OPTIONS" with
          | .entry (.handler h) => .called h matched.params
          | .builtin => .builtin
          | _ => .error 405
        else .error 405 : Outcome I F) = .error 405 := by
        split
        · next heq =>
          rcases hagain heq with hget | hget
          · rw [hget]
          · rw [hget]
        · rfl
      unfold respond
      rcases hnot hinherits with hget | hget
      · rw [hget]
        exact herror
      · rw [hget]
        exact herror

/-- **Dispatch** is by own entries exactly where the matched map has one for the method, or inherits
nothing under its name. -/
theorem fetch_eq_fetchOwn_iff (routes : List (Str × MethodMap I F)) (pathname : Option Str)
    (method : String) : fetch routes pathname method = fetchOwn routes pathname method ↔
      ∀ path matched, pathname = some path → buildPathMatcher routes path = some matched →
        matched.methods.own method = none → ¬ matched.methods.Inherits method := by
  cases pathname with
  | none => exact iff_of_true rfl fun path matched hpath => nomatch hpath
  | some path =>
    unfold fetch fetchOwn
    rw [Option.elim_some, Option.elim_some]
    constructor
    · rintro h path' matched hpath hmatched
      cases hpath
      rw [hmatched] at h
      exact (respond_eq_respondOwn_iff matched method).mp h
    · rintro h
      cases hmatched : buildPathMatcher routes path with
      | none => rfl
      | some matched => exact (respond_eq_respondOwn_iff matched method).mpr (h path matched rfl hmatched)

/-- An inherited name is the only one that is not looked up among the own kinds. -/
theorem methodKindOf_eq_own_iff (method : String) :
    Packing.methodKindOf method = Packing.ownMethodKind method ↔
      method ∉ Js.objectPrototypeNames := by
  unfold Packing.methodKindOf
  by_cases hname : method ∈ Js.objectPrototypeNames
  · rw [if_pos hname]
    refine iff_of_false ?_ fun h => h hname
    have hother : ∀ k ∈ Js.objectPrototypeNames, MethodKind.get ≠ Packing.ownMethodKind k := by decide
    exact hother method hname
  · rw [if_neg hname]
    exact iff_of_true rfl hname

/-- **Dispatch of a built router.** A handler that is called for a method is wired for it, and whatever is
not wired is answered with an error, exactly where no property is inherited under the name of the method;
and the method kind is an own one exactly for the names that no object inherits. -/
theorem dispatch_wired_iff {specs : List (Str × RouterRouteSpec I F)}
    {routes : List (Str × MethodMap I F)} (hbuilt : createIngressRouter specs = some routes) :
    (∀ p ∈ routes, ∃ spec, (p.1, spec) ∈ specs ∧
      ∀ method, (p.2.own method).isSome ↔ Wired spec.baked method) ∧
      ∀ pathname method,
        (fetch routes pathname method = fetchOwn routes pathname method ↔
          ∀ path matched, pathname = some path → buildPathMatcher routes path = some matched →
            matched.methods.own method = none → ¬ matched.methods.Inherits method) ∧
        (Packing.methodKindOf method = Packing.ownMethodKind method ↔
          method ∉ Js.objectPrototypeNames) :=
  ⟨fun _ hp => mem_createIngressRouter hbuilt hp, fun pathname method =>
    ⟨fetch_eq_fetchOwn_iff routes pathname method, methodKindOf_eq_own_iff method⟩⟩

/-- A router with one path, read by an ingress instance. -/
def usersSpecs : List (Str × RouterRouteSpec String String) :=
  [("/users".toList, ⟨"users", none, none, none, none, true, false, false, false, false⟩)]

theorem dispatch_wired_users : ∃ routes, createIngressRouter usersSpecs = some routes ∧
    ∀ pathname method, (fetch routes pathname method = fetchOwn routes pathname method ↔
      ∀ path matched, pathname = some path → buildPathMatcher routes path = some matched →
        matched.methods.own method = none → ¬ matched.methods.Inherits method) := by
  obtain ⟨routes, hroutes⟩ : ∃ routes, createIngressRouter usersSpecs = some routes := ⟨_, rfl⟩
  exact ⟨routes, hroutes, fun pathname method => ((dispatch_wired_iff hroutes).2 pathname method).1⟩

/-- The method `constructor` calls a function that nobody wired. -/
theorem fetch_calls_constructor : ∃ routes, createIngressRouter usersSpecs = some routes ∧
    fetch routes (some "/users".toList) "constructor" = .builtin ∧
      fetchOwn routes (some "/users".toList) "constructor" = .error 405 :=
  ⟨_, rfl, rfl, rfl⟩

end

end Castrum.Router
