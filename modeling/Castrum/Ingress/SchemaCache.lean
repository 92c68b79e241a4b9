import Castrum.Lib.Lru
import Castrum.Lib.Runs
import Castrum.Util.Bytes

/-!
# Castrum — the compiled-schema cache (`rust/ingress/schema_cache.rs`)

A call looks its schema up under the lock, compiles it without the lock if it is not there, and takes
the lock again to insert it. Between the two sections other calls may insert, evict or clear. An entry
is found by a hash, and is a hit only if it was made from the bytes that are asked for.

* `Sys.step` — one section of one call, or a clear, in any order;
* `Sys.Wf` / `Sys.Wf.steps` — entries are compilations of their bytes, calls carry what they were asked;
* `getOrCompile_correct` — what every call returns in every run, and what the cache holds.
-/

namespace Castrum

namespace SchemaCache

/-! ## The source -/

/-- Values of schemas, their serialization, the hash of the bytes, and the compiler. The capacity `cap` of
the cache comes from the environment. -/
structure Engine where
  Value : Type
  Schema : Type
  toVec : Value → Except String Bytes
  schemaKey : Bytes → UInt64
  compile : Value → Except String Schema

variable (M : Type → Type → Nat → Type) (E : Engine) (cap : Nat)

/-- The cache, over any map with the laws of an LRU map. -/
abbrev Cache := M UInt64 (Bytes × E.Schema) cap

variable {M E cap} [LruMap M]

/-- `cache.get(&key)` and the comparison of the bytes. A look counts as a use, hit or not. -/
def Cache.hit (cache : Cache M E cap) (bytes : Bytes) : Option E.Schema × Cache M E cap :=
  match LruMap.get? cache (E.schemaKey bytes) with
  | none => (none, cache)
  | some (stored, existing) =>
    (if stored = bytes then some existing else none,
      LruMap.touch cache (E.schemaKey bytes) (stored, existing))

variable (M E cap)

/-- Where a call of `get_or_compile_in` is: before its first section, between the two, before its second
section with what it compiled, or back with its result. -/
inductive Call where
  | looking (schemaValue : E.Value) (bytes : Bytes)
  | compiling (schemaValue : E.Value) (bytes : Bytes)
  | inserting (schemaValue : E.Value) (bytes : Bytes) (compiled : E.Schema)
  | returned (schemaValue : E.Value) (result : Except String E.Schema)

/-- The cache and the last call of every thread. -/
structure Sys where
  cache : Cache M E cap
  calls : Nat → Option (Call E)

/-- A move of a thread, or a clear. -/
inductive Move where
  | call (t : Nat) (schemaValue : E.Value)
  | lookup (t : Nat)
  | compile (t : Nat)
  | insert (t : Nat)
  | clear

variable {M E cap}

namespace Sys

def init : Sys M E cap := ⟨LruMap.empty, fun _ => none⟩

/-- The call of `t` is here now, and this is the cache it leaves. -/
def moved (s : Sys M E cap) (cache : Cache M E cap) (t : Nat) (call : Call E) : Sys M E cap :=
  ⟨cache, Function.update s.calls t (some call)⟩

def step (s : Sys M E cap) : Move E → Option (Sys M E cap)
  | .call t v =>
    match s.calls t with
    | none | some (.returned _ _) =>
      match E.toVec v with
      | .error e => some (s.moved s.cache t (.returned v (.error e)))
      | .ok bytes => some (s.moved s.cache t (.looking v bytes))
    | _ => none
  | .lookup t =>
    match s.calls t with
    | some (.looking v bytes) =>
      match Cache.hit s.cache bytes with
      | (some existing, cache) => some (s.moved cache t (.returned v (.ok existing)))
      | (none, cache) => some (s.moved cache t (.compiling v bytes))
    | _ => none
  | .compile t =>
    match s.calls t with
    | some (.compiling v bytes) =>
      match E.compile v with
      | .error e => some (s.moved s.cache t (.returned v (.error e)))
      | .ok compiled => some (s.moved s.cache t (.inserting v bytes compiled))
    | _ => none
  | .insert t =>
    match s.calls t with
    | some (.inserting v bytes compiled) =>
      match Cache.hit s.cache bytes with
      | (some existing, cache) => some (s.moved cache t (.returned v (.ok existing)))
      | (none, cache) =>
        some (s.moved (LruMap.touch cache (E.schemaKey bytes) (bytes, compiled)) t (.returned v (.ok compiled)))
    | _ => none
  | .clear => some { s with cache := LruMap.empty }

end Sys

/-! ## What the cache is for -/

/-- The schema is the compilation of a value with these bytes. -/
def Engine.CompilationOf (E : Engine) (bytes : Bytes) (schema : E.Schema) : Prop :=
  ∃ v, E.toVec v = .ok bytes ∧ E.compile v = .ok schema

/-- What a call would return without a cache. -/
def Engine.direct (E : Engine) (v : E.Value) : Except String E.Schema :=
  E.toVec v >>= fun _ => E.compile v

/-- The result of a call is right: a schema is the compilation of the bytes that were asked for, an error
is the one that the value gives without a cache. -/
def Engine.Answers (E : Engine) (v : E.Value) : Except String E.Schema → Prop
  | .ok schema => ∃ bytes, E.toVec v = .ok bytes ∧ E.CompilationOf bytes schema
  | .error e => E.direct v = .error e

/-- An entry stands under the hash of its bytes, and holds their compilation. -/
def Engine.EntryWf (E : Engine) (entry : UInt64 × Bytes × E.Schema) : Prop :=
  entry.1 = E.schemaKey entry.2.1 ∧ E.CompilationOf entry.2.1 entry.2.2

def Call.Wf : Call E → Prop
  | looking v bytes => E.toVec v = .ok bytes
  | compiling v bytes => E.toVec v = .ok bytes
  | inserting v bytes compiled => E.toVec v = .ok bytes ∧ E.compile v = .ok compiled
  | returned v result => E.Answers v result

/-- **The invariant** of the cache and its callers. -/
structure Sys.Wf (s : Sys M E cap) : Prop where
  entries : ∀ entry ∈ LruMap.entries s.cache, E.EntryWf entry
  calls : ∀ t call, s.calls t = some call → call.Wf

theorem Sys.init_wf : (init : Sys M E cap).Wf :=
  ⟨fun _ he => absurd he LruMap.not_mem_empty, nofun⟩

/-! ## Steps -/

/-- A look finds the compilation of the bytes or nothing, and leaves the entries as they are. -/
theorem Cache.hit_spec {cache : Cache M E cap} (hentries : ∀ entry ∈ LruMap.entries cache, E.EntryWf entry)
    (bytes : Bytes) :
    (∀ existing, (hit cache bytes).1 = some existing → E.CompilationOf bytes existing) ∧
      ∀ entry ∈ LruMap.entries (hit cache bytes).2, E.EntryWf entry := by
  unfold hit
  cases hget : LruMap.get? cache (E.schemaKey bytes) with
  | none => exact ⟨nofun, hentries⟩
  | some found =>
    obtain ⟨stored, existing⟩ := found
    have hfound : E.EntryWf (E.schemaKey bytes, stored, existing) :=
      hentries _ (LruMap.mem_of_get? hget)
    constructor
    · intro schema hschema
      dsimp only at hschema
      by_cases hbytes : stored = bytes
      · rw [if_pos hbytes, Option.some.injEq] at hschema
        rw [← hbytes, ← hschema]
        exact hfound.2
      · rw [if_neg hbytes] at hschema
        cases hschema
    · intro entry hentry
      rcases LruMap.mem_touch hentry with rfl | hold
      · exact hfound
      · exact hentries entry hold

namespace Sys

/-- What a move does. -/
inductive Steps (s : Sys M E cap) : Sys M E cap → Prop where
  | unserializable (t : Nat) {v : E.Value} {e : String} (hvec : E.toVec v = .error e) :
      Steps s (s.moved s.cache t (.returned v (.error e)))
  | begins (t : Nat) {v : E.Value} {bytes : Bytes} (hvec : E.toVec v = .ok bytes) :
      Steps s (s.moved s.cache t (.looking v bytes))
  | found (t : Nat) {v : E.Value} {bytes : Bytes} {existing : E.Schema} {cache : Cache M E cap}
      (hcall : s.calls t = some (.looking v bytes) ∨
        ∃ compiled, s.calls t = some (.inserting v bytes compiled))
      (hhit : Cache.hit s.cache bytes = (some existing, cache)) :
      Steps s (s.moved cache t (.returned v (.ok existing)))
  | missed (t : Nat) {v : E.Value} {bytes : Bytes} {cache : Cache M E cap}
      (hcall : s.calls t = some (.looking v bytes)) (hhit : Cache.hit s.cache bytes = (none, cache)) :
      Steps s (s.moved cache t (.compiling v bytes))
  | failed (t : Nat) {v : E.Value} {bytes : Bytes} {e : String}
      (hcall : s.calls t = some (.compiling v bytes)) (hcompile : E.compile v = .error e) :
      Steps s (s.moved s.cache t (.returned v (.error e)))
  | compiled (t : Nat) {v : E.Value} {bytes : Bytes} {schema : E.Schema}
      (hcall : s.calls t = some (.compiling v bytes)) (hcompile : E.compile v = .ok schema) :
      Steps s (s.moved s.cache t (.inserting v bytes schema))
  | inserted (t : Nat) {v : E.Value} {bytes : Bytes} {schema : E.Schema} {cache : Cache M E cap}
      (hcall : s.calls t = some (.inserting v bytes schema))
      (hhit : Cache.hit s.cache bytes = (none, cache)) :
      Steps s (s.moved (LruMap.touch cache (E.schemaKey bytes) (bytes, schema)) t (.returned v (.ok schema)))
  | cleared : Steps s { s with cache := LruMap.empty }

theorem step_cases {s s' : Sys M E cap} {m : Move E} (hstep : s.step m = some s') : Steps s s' := by
  cases m with
  | call t v =>
    simp only [Sys.step] at hstep
    -- A call begins between calls only, whatever the last one returned.
    split at hstep
    any_goals cases hstep
    all_goals
      cases hvec : E.toVec v with
      | error e =>
        rw [hvec] at hstep
        cases hstep
        exact .unserializable t hvec
      | ok bytes =>
        rw [hvec] at hstep
        cases hstep
        exact .begins t hvec
  | lookup t =>
    simp only [Sys.step] at hstep
    split at hstep
    · rename_i v bytes hcall
      split at hstep
      · rename_i hhit
        cases hstep
        exact .found t (.inl hcall) hhit
      · rename_i hhit
        cases hstep
        exact .missed t hcall hhit
    · cases hstep
  | compile t =>
    simp only [Sys.step] at hstep
    split at hstep
    · rename_i v bytes hcall
      split at hstep
      · rename_i hcompile
        cases hstep
        exact .failed t hcall hcompile
      · rename_i hcompile
        cases hstep
        exact .compiled t hcall hcompile
    · cases hstep
  | insert t =>
    simp only [Sys.step] at hstep
    split at hstep
    · rename_i v bytes schema hcall
      split at hstep
      · rename_i hhit
        cases hstep
        exact .found t (.inr ⟨schema, hcall⟩) hhit
      · rename_i hhit
        cases hstep
        exact .inserted t hcall hhit
    · cases hstep
  | clear =>
    cases hstep
    exact .cleared

theorem moved_wf {s : Sys M E cap} (hs : s.Wf) {cache : Cache M E cap}
    (hentries : ∀ entry ∈ LruMap.entries cache, E.EntryWf entry) (t : Nat) {call : Call E} (hcall : call.Wf) :
    (s.moved cache t call).Wf := by
  refine ⟨hentries, ?_⟩
  intro t' call' ht'
  have hupdate : Function.update s.calls t (some call) t' = some call' := ht'
  by_cases htt : t' = t
  · rw [htt, Function.update_self, Option.some.injEq] at hupdate
    rw [← hupdate]
    exact hcall
  · rw [Function.update_of_ne htt] at hupdate
    exact hs.calls t' call' hupdate

/-- **Every move keeps the invariant**, whatever happened between the sections of a call. -/
theorem Wf.steps {s s' : Sys M E cap} (hs : s.Wf) (hstep : Steps s s') : s'.Wf := by
  cases hstep with
  | @unserializable t v e hvec =>
    have hdirect : E.direct v = .error e := by
      rw [Engine.direct, hvec]
      rfl
    exact moved_wf hs hs.entries t hdirect
  | begins t hvec => exact moved_wf hs hs.entries t hvec
  | @found t v bytes existing cache hcall hhit =>
    have hvec : E.toVec v = .ok bytes := by
      rcases hcall with hcall | ⟨_, hcall⟩
      · exact hs.calls t _ hcall
      · exact (hs.calls t _ hcall).1
    obtain ⟨hfound, hentries⟩ := Cache.hit_spec hs.entries bytes
    rw [hhit] at hfound hentries
    exact moved_wf hs hentries t ⟨bytes, hvec, hfound existing rfl⟩
  | @missed t v bytes cache hcall hhit =>
    have hentries := (Cache.hit_spec hs.entries bytes).2
    rw [hhit] at hentries
    have hvec : E.toVec v = .ok bytes := hs.calls t _ hcall
    exact moved_wf hs hentries t hvec
  | @failed t v bytes e hcall hcompile =>
    have hvec : E.toVec v = .ok bytes := hs.calls t _ hcall
    have hdirect : E.direct v = .error e := by
      rw [Engine.direct, hvec]
      exact hcompile
    exact moved_wf hs hs.entries t hdirect
  | compiled t hcall hcompile => exact moved_wf hs hs.entries t ⟨hs.calls t _ hcall, hcompile⟩
  | @inserted t v bytes schema cache hcall hhit =>
    have hcompiled : E.toVec v = .ok bytes ∧ E.compile v = .ok schema := hs.calls t _ hcall
    have hentries := (Cache.hit_spec hs.entries bytes).2
    rw [hhit] at hentries
    have hanswer : E.Answers v (.ok schema) := ⟨bytes, hcompiled.1, v, hcompiled⟩
    refine moved_wf hs ?_ t hanswer
    -- the bucket now holds what was asked for, whatever it held before
    intro entry hentry
    rcases LruMap.mem_touch hentry with rfl | hold
    · exact ⟨rfl, v, hcompiled⟩
    · exact hentries entry hold
  | cleared => exact ⟨fun _ he => absurd he LruMap.not_mem_empty, hs.calls⟩

theorem wf_of_run {s : Sys M E cap} (hrun : Run step (fun _ _ => True) init s) : s.Wf :=
  hrun.invariant init_wf fun _ _ _ hs _ hstep => hs.steps (step_cases hstep)

/-- A move that gives a call its error leaves the cache as it was. -/
theorem cache_of_error {s s' : Sys M E cap} {m : Move E} (hstep : s.step m = some s') {t : Nat}
    {v : E.Value} {e : String} (hbefore : s.calls t ≠ some (.returned v (.error e)))
    (hafter : s'.calls t = some (.returned v (.error e))) : s'.cache = s.cache := by
  have hother : ∀ (cache : Cache M E cap) (t' : Nat) (call : Call E),
      call ≠ .returned v (.error e) → (s.moved cache t' call).calls t ≠
        some (.returned v (.error e)) := by
    intro cache t' call hcall hupdate
    have hupdate : Function.update s.calls t' (some call) t = some (.returned v (.error e)) := hupdate
    by_cases htt : t = t'
    · rw [htt, Function.update_self, Option.some.injEq] at hupdate
      exact hcall hupdate
    · rw [Function.update_of_ne htt] at hupdate
      exact hbefore hupdate
  cases step_cases hstep with
  | unserializable | begins | failed | compiled => rfl
  | found | missed | inserted => exact absurd hafter (hother _ _ _ nofun)
  | cleared => exact absurd hafter hbefore

end Sys

/-! ## Every run -/

/-- **The cache under any interleaving.** In every state of every run, a call that has returned a schema
returned the compilation of the bytes it was asked for, also when other bytes have their hash; an error
is the call's own, and no entry is made of it; and the cache is never larger than its capacity. Where a
value can be read off its bytes, the result is what the compiler gives for the value itself. -/
theorem getOrCompile_correct {s : Sys M E cap} (hrun : Run Sys.step (fun _ _ => True) Sys.init s) :
    (∀ t v result, s.calls t = some (.returned v result) → E.Answers v result ∧
      ((∀ v w bytes, E.toVec v = .ok bytes → E.toVec w = .ok bytes → v = w) →
        result = E.direct v)) ∧
    (∀ entry ∈ LruMap.entries s.cache, E.EntryWf entry) ∧
    (∀ m s' t v e, s.step m = some s' → s.calls t ≠ some (.returned v (.error e)) →
      s'.calls t = some (.returned v (.error e)) → s'.cache = s.cache) ∧
    (LruMap.entries s.cache).length ≤ cap := by
  have hs := Sys.wf_of_run hrun
  refine ⟨?_, hs.entries, fun m s' t v e hstep => Sys.cache_of_error hstep, LruMap.length_le s.cache⟩
  intro t v result hreturned
  have hanswers : E.Answers v result := hs.calls t _ hreturned
  refine ⟨hanswers, fun hinjective => ?_⟩
  cases result with
  | ok schema =>
    obtain ⟨bytes, hvec, w, hw, hcompile⟩ := hanswers
    rw [Engine.direct, hvec, hinjective v w bytes hvec hw]
    exact hcompile.symm
  | error e => exact hanswers.symm

/-- Schemas that are compiled to their own bytes, in one bucket all of them; the byte `0` is no schema. -/
def collidingEngine : Engine where
  Value := Bytes
  Schema := Bytes
  toVec v := .ok v
  schemaKey _ := 0
  compile v := if v = [0] then .error "schema" else .ok v

/-- Two calls, section by section in turn. -/
def collidingMoves : List (Move collidingEngine) :=
  [.call 0 [1], .lookup 0, .call 1 [2], .lookup 1, .compile 0, .compile 1, .insert 0, .insert 1]

/-- Two calls whose schemas collide, each between the sections of the other. -/
theorem getOrCompile_correct_collision :
    ∃ s : Sys Lru collidingEngine 2, Run Sys.step (fun _ _ => True) Sys.init s ∧
      s.calls 0 = some (.returned [1] (.ok [1])) ∧ collidingEngine.Answers [1] (.ok [1]) ∧
      s.calls 1 = some (.returned [2] (.ok [2])) ∧ collidingEngine.Answers [2] (.ok [2]) := by
  have hrun : Run Sys.step (fun _ _ => True) (Sys.init : Sys Lru collidingEngine 2) _ :=
    Run.of_exec (collidingMoves : List (Move collidingEngine)) rfl
  refine ⟨_, hrun, rfl, ?_, rfl, ?_⟩
  · exact ((getOrCompile_correct hrun).1 0 [1] _ rfl).1
  · exact ((getOrCompile_correct hrun).1 1 [2] _ rfl).1

end SchemaCache

end Castrum
