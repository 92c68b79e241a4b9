import Castrum.FastSchema.CompileCorrect
import Castrum.Lib.Fuel
import Mathlib.Logic.Relation

/-!
# Castrum — reference graphs (`compile` and `compile_ref` of `compile.rs`)

A `$ref` jumps to any place of the schema, so `compile_node` does not descend: what ends the
recursion is that a pointer is compiled once and that a pointer in progress is refused. The
compiler is run here with the end of its fuel told apart from `Err(())`.

* `parts` — the schemas a schema applies, and `RefersTo` — the references between pointers;
* `compileKeywords_settles`, `compileRef_settles` — the two forms of an object schema;
* `runLevels_settles` — the measure: pointers not yet in progress first, then the size of a schema;
* `compile_terminates` — the compiler returns, and it refuses every cycle it can reach.
-/

namespace Castrum

/-! ## The reference graph

A schema leads to its parts, and a reference to its target. The compiler fails on a cycle of
references. -/

/-- The schemas of `items`: a tuple of them or one. -/
def itemParts : Option Value → List Value
  | some (.array tuple) => tuple
  | o => o.toList

/-- `additionalItems` is applied alongside a tuple only. -/
def additionalItemParts (map : SchemaMap) : List Value :=
  match get? map "items" with
  | some (.array _) => (get? map "additionalItems").toList
  | _ => []

/-- `then` and `else` are applied alongside `if` only. -/
def ifParts (map : SchemaMap) : List Value :=
  match get? map "if" with
  | none => []
  | some v => v :: ((get? map "then").toList ++ (get? map "else").toList)

def objectParts (map : SchemaMap) : List Value :=
  (membersOf (get? map "properties")).map Prod.snd ++
    ((membersOf (get? map "patternProperties")).map Prod.snd ++
      (get? map "additionalProperties").toList)

def arrayParts (map : SchemaMap) : List Value :=
  itemParts (get? map "items") ++ (additionalItemParts map ++ (get? map "contains").toList)

def combParts (map : SchemaMap) : List Value :=
  branchesOf (get? map "allOf") ++ (branchesOf (get? map "anyOf") ++
    (branchesOf (get? map "oneOf") ++ ((get? map "not").toList ++ ifParts map)))

/-- The schemas a schema applies directly; the siblings of `$ref` are ignored. -/
def parts : Value → List Value
  | .object map =>
    match get? map "$ref" with
    | some (.string _) => []
    | _ => objectParts map ++ (arrayParts map ++ combParts map)
  | _ => []

/-- The pointer of an in-document reference. -/
def refTo : Value → Option Bytes
  | .object map =>
    match get? map "$ref" with
    | some (.string (35 :: pointer)) => some pointer
    | _ => none
  | _ => none

/-- The schema applies a reference to the pointer, without following another one. -/
inductive Mentions : Value → Bytes → Prop where
  | ref {s : Value} {pointer : Bytes} : refTo s = some pointer → Mentions s pointer
  | part {s v : Value} {pointer : Bytes} : v ∈ parts s → Mentions v pointer → Mentions s pointer

section

variable (root : Value)

/-- The schema of the one pointer mentions the other. -/
def RefersTo (pointer pointer' : Bytes) : Prop :=
  ∃ target, (refIndex root).lookup pointer = some target ∧ Mentions target pointer'

/-- From the root, a pointer can be reached that leads back to itself. -/
def ReachesCycle : Prop :=
  ∃ start pointer, Mentions root start ∧ Relation.ReflTransGen (RefersTo root) start pointer ∧
    Relation.TransGen (RefersTo root) pointer pointer

/-- Every chain of references from the pointer ends. -/
def Grounded (pointer : Bytes) : Prop := Acc (fun q p => RefersTo root p q) pointer

/-- Every reference a schema mentions is grounded. -/
def Settled (s : Value) : Prop := ∀ pointer, Mentions s pointer → Grounded root pointer

end

section

variable {map : SchemaMap}

theorem parts_of_ref {r : Bytes} (h : get? map "$ref" = some (.string r)) :
    parts (.object map) = [] := by
  rw [parts, h]

theorem eq_of_refTo {r pointer : Bytes} (h : get? map "$ref" = some (.string r))
    (hr : refTo (.object map) = some pointer) : r = 35 :: pointer := by
  rw [refTo, h] at hr
  split at hr
  · next pointer' heq =>
    obtain rfl := Option.some.inj hr
    exact Value.string.inj (Option.some.inj heq)
  · cases hr

variable (h : ∀ r, get? map "$ref" = some (.string r) → False)
include h

theorem parts_of_keywords :
    parts (.object map) = objectParts map ++ (arrayParts map ++ combParts map) := by
  rw [parts]
  split
  · next heq => exact absurd heq (h _)
  · rfl

theorem refTo_of_keywords : refTo (.object map) = none := by
  rw [refTo]
  split
  · next heq => exact absurd heq (h _)
  · rfl

end

section

variable {root : Value} {p q : Bytes}

theorem Grounded.of_refersTo (h : Grounded root p) (hpq : RefersTo root p q) : Grounded root q :=
  h.inv hpq

theorem Grounded.of_reaches (h : Grounded root p)
    (hpq : Relation.ReflTransGen (RefersTo root) p q) : Grounded root q := by
  induction hpq with
  | refl => exact h
  | tail _ hstep ih => exact ih.of_refersTo hstep

/-- A grounded pointer is on no cycle. -/
theorem Grounded.not_cycle (h : Grounded root p) :
    ¬ Relation.TransGen (RefersTo root) p p := by
  induction h with
  | intro p _ ih =>
    intro hcycle
    obtain ⟨q, hpq, hqp⟩ := Relation.TransGen.head'_iff.mp hcycle
    exact ih q hpq (Relation.TransGen.tail' hqp hpq)

theorem Settled.not_reachesCycle (h : Settled root root) : ¬ ReachesCycle root := by
  rintro ⟨start, pointer, hstart, hreach, hcycle⟩
  exact ((h start hstart).of_reaches hreach).not_cycle hcycle

theorem settled_of_parts {s : Value} (href : refTo s = none)
    (h : ∀ v ∈ parts s, Settled root v) : Settled root s := by
  intro pointer hm
  cases hm with
  | ref hr =>
    rw [href] at hr
    cases hr
  | part hv hm => exact h _ hv pointer hm

theorem grounded_of_settled {target : Value} (htarget : (refIndex root).lookup p = some target)
    (h : Settled root target) : Grounded root p := by
  refine Acc.intro p fun q hq => ?_
  obtain ⟨target', htarget', hm⟩ := hq
  rw [htarget] at htarget'
  obtain rfl := Option.some.inj htarget'
  exact h q hm

theorem settled_bool (b : Bool) : Settled root (.bool b) :=
  settled_of_parts rfl (List.forall_mem_nil _)

end

/-! ## Sizes -/

theorem sizeOf_membersOf {o : Option Value} {kv : Value} (h : o = some kv) {p : Bytes × Value}
    (hp : p ∈ membersOf o) : sizeOf p.2 < sizeOf kv := by
  subst h
  cases kv with
  | object ms =>
    have hmem : sizeOf p < sizeOf ms := List.sizeOf_lt_of_mem hp
    obtain ⟨k, v⟩ := p
    simp only [Value.object.sizeOf_spec, Prod.mk.sizeOf_spec] at hmem ⊢
    omega
  | _ => cases hp

theorem sizeOf_get? {map : SchemaMap} {name : String} {kv : Value} (h : get? map name = some kv) :
    sizeOf kv < sizeOf (Value.object map) := by
  obtain ⟨xs, ys, heq, -⟩ := List.lookup_eq_some_iff.mp h
  have hmem := List.sizeOf_lt_of_mem (show (utf8 name, kv) ∈ map by rw [heq]; simp)
  simp only [Value.object.sizeOf_spec, Prod.mk.sizeOf_spec] at hmem ⊢
  omega

theorem sizeOf_array {items : List Value} {v : Value} (h : v ∈ items) :
    sizeOf v < sizeOf (Value.array items) := by
  have hmem := List.sizeOf_lt_of_mem h
  simp only [Value.array.sizeOf_spec]
  omega

section

variable {map : SchemaMap} {name : String} {v : Value}

theorem sizeOf_members (h : v ∈ (membersOf (get? map name)).map Prod.snd) :
    sizeOf v < sizeOf (Value.object map) := by
  obtain ⟨p, hp, rfl⟩ := List.mem_map.mp h
  cases hkv : get? map name with
  | none =>
    rw [hkv] at hp
    cases hp
  | some kv => exact (sizeOf_membersOf hkv hp).trans (sizeOf_get? hkv)

theorem sizeOf_branches (h : v ∈ branchesOf (get? map name)) :
    sizeOf v < sizeOf (Value.object map) := by
  unfold branchesOf at h
  split at h
  · next items hitems => exact (sizeOf_array h).trans (sizeOf_get? hitems)
  · cases h

theorem sizeOf_single (h : v ∈ (get? map name).toList) : sizeOf v < sizeOf (Value.object map) :=
  sizeOf_get? (Option.mem_toList.mp h)

theorem sizeOf_items (h : v ∈ itemParts (get? map "items")) :
    sizeOf v < sizeOf (Value.object map) := by
  unfold itemParts at h
  split at h
  · next items hitems => exact (sizeOf_array h).trans (sizeOf_get? hitems)
  · exact sizeOf_single h

end

/-- **A schema is larger than those it applies.** -/
theorem sizeOf_part {s v : Value} (h : v ∈ parts s) : sizeOf v < sizeOf s := by
  unfold parts at h
  split at h
  · next map =>
    split at h
    · cases h
    · simp only [objectParts, arrayParts, combParts, List.mem_append] at h
      -- One case for each keyword that applies schemas, in the order of `parts`.
      rcases h with (h | h | h) | (h | h | h) | h | h | h | h | h
      · exact sizeOf_members h
      · exact sizeOf_members h
      · exact sizeOf_single h
      · exact sizeOf_items h
      · unfold additionalItemParts at h
        split at h
        · exact sizeOf_single h
        · cases h
      · exact sizeOf_single h
      · exact sizeOf_branches h
      · exact sizeOf_branches h
      · exact sizeOf_branches h
      · exact sizeOf_single h
      · unfold ifParts at h
        split at h
        · cases h
        · next i hi =>
          rcases List.mem_cons.mp h with rfl | h
          · exact sizeOf_get? hi
          · rcases List.mem_append.mp h with h | h
            · exact sizeOf_single h
            · exact sizeOf_single h
  · cases h

theorem Step.sizeOf_lt {v w : Value} {tok : Bytes} (h : Step v tok w) : sizeOf w < sizeOf v := by
  cases h with
  | member hmem =>
    have hlt := List.sizeOf_lt_of_mem hmem
    simp only [Value.object.sizeOf_spec, Prod.mk.sizeOf_spec] at hlt ⊢
    omega
  | element hi => exact sizeOf_array (List.mem_of_getElem? hi)

theorem Points.sizeOf_le {v u : Value} {p : Bytes} (h : Points v p u) : sizeOf u ≤ sizeOf v := by
  induction h with
  | here => exact le_refl _
  | step hs _ ih => exact ih.trans hs.sizeOf_lt.le

/-! ## The compiler -/

section

variable {S : Oracles} {I : CompileCtx S → Prop} {Q : Value → Prop}
  {sub : Value → String → CompileIn S Fueled (FastNode S.Regex)}
  {sub' : Value → String → CompileM S (FastNode S.Regex)} {map : SchemaMap}

theorem whenAny_settles {α : Type} {names : List String} {m : CompileIn S Fueled α}
    {m' : CompileM S α} {P : Prop} (h : Settles I m m' fun _ => P)
    (hP : hasAny map names = false → P) :
    Settles I (whenAny S map names m) (whenAny S map names m') fun _ => P := by
  unfold whenAny
  cases hany : hasAny map names with
  | true => exact h.bind fun _ hp => .pure hp
  | false => exact .pure (hP hany)

/-- A keyword that is not there in a group that is not there. -/
theorem get?_eq_none {names : List String} (h : hasAny map names = false) (name : String)
    (hname : name ∈ names) : get? map name = none := by
  have hnone := List.any_eq_false.mp h name hname
  rwa [Bool.not_eq_true, Option.isSome_eq_false_iff, Option.isNone_iff_eq_none] at hnone

theorem compileAdditional_settles {v : Value} (hbool : ∀ b, Q (.bool b))
    (hsub : ∀ path, Settles I (sub v path) (sub' v path) fun _ => Q v) (path : String) :
    Settles I (compileAdditional S sub v path) (compileAdditional S sub' v path) fun _ => Q v := by
  unfold compileAdditional
  cases v with
  | bool b => cases b <;> exact .pure (hbool _)
  | object map => exact (hsub path).bind fun _ hq => .pure hq
  | _ => exact .failure

theorem compileSub?_settles {o : Option Value}
    (hsub : ∀ v ∈ o.toList, ∀ path, Settles I (sub v path) (sub' v path) fun _ => Q v)
    (path : String) :
    Settles I (compileSub? S sub o path) (compileSub? S sub' o path) fun _ => ∀ v ∈ o.toList, Q v := by
  cases o with
  | none => exact .pure (List.forall_mem_nil _)
  | some v =>
    refine (hsub v (List.mem_singleton_self v) path).bind fun _ hq => .pure ?_
    exact List.forall_mem_singleton.mpr hq

theorem compileSubs_settles {items : List Value}
    (hsub : ∀ v ∈ items, ∀ path, Settles I (sub v path) (sub' v path) fun _ => Q v)
    (path : String) :
    Settles I (compileSubs S sub items path) (compileSubs S sub' items path) fun _ =>
      ∀ v ∈ items, Q v := by
  have hrun : Settles I (compileSubs S sub items path) (compileSubs S sub' items path) fun _ =>
      ∀ p ∈ items.zipIdx, Q p.1 := by
    refine .mapM fun p hp => ?_
    exact hsub p.1 (List.fst_mem_of_mem_zipIdx hp) _
  refine hrun.imp fun _ h v hv => ?_
  rw [← List.zipIdx_map_fst 0 items] at hv
  obtain ⟨p, hp, rfl⟩ := List.mem_map.mp hv
  exact h p hp

/-! ### Objects -/

theorem compileProps_settles
    (hsub : ∀ v ∈ (membersOf (get? map "properties")).map Prod.snd, ∀ path,
      Settles I (sub v path) (sub' v path) fun _ => Q v) (path : String) :
    Settles I (compileProps S sub map path) (compileProps S sub' map path) fun _ =>
      ∀ v ∈ (membersOf (get? map "properties")).map Prod.snd, Q v := by
  unfold compileProps
  rw [List.forall_mem_map]
  split
  · next props hprops =>
    rw [hprops] at hsub ⊢
    refine .mapM fun p hp => ?_
    exact (hsub p.2 (List.mem_map_of_mem hp) _).bind fun _ hq => .pure hq
  · next hne =>
    rw [membersOf_eq_nil hne]
    exact .pure (List.forall_mem_nil _)

theorem compilePatterns_settles
    (hsub : ∀ v ∈ (membersOf (get? map "patternProperties")).map Prod.snd, ∀ path,
      Settles I (sub v path) (sub' v path) fun _ => Q v) (path : String) :
    Settles I (compilePatterns S sub map path) (compilePatterns S sub' map path) fun _ =>
      ∀ v ∈ (membersOf (get? map "patternProperties")).map Prod.snd, Q v := by
  unfold compilePatterns
  rw [List.forall_mem_map]
  split
  · next pats hpats =>
    rw [hpats] at hsub ⊢
    refine .mapM fun p hp => ?_
    refine .option_bind fun re => ?_
    exact (hsub p.2 (List.mem_map_of_mem hp) _).bind fun _ hq => .pure hq
  · next hne =>
    rw [membersOf_eq_nil hne]
    exact .pure (List.forall_mem_nil _)

theorem compileAdditionalProps_settles {o : Option Value} (hbool : ∀ b, Q (.bool b))
    (hsub : ∀ v ∈ o.toList, ∀ path, Settles I (sub v path) (sub' v path) fun _ => Q v)
    (path : String) :
    Settles I (compileAdditionalProps S sub o path) (compileAdditionalProps S sub' o path) fun _ =>
      ∀ v ∈ o.toList, Q v := by
  cases o with
  | none => exact .pure (List.forall_mem_nil _)
  | some v =>
    refine (compileAdditional_settles hbool (hsub v (List.mem_singleton_self v)) path).imp
      fun _ hq => ?_
    exact List.forall_mem_singleton.mpr hq

theorem compileObjectConstraints_settles (hbool : ∀ b, Q (.bool b))
    (hsub : ∀ v ∈ objectParts map, ∀ path, Settles I (sub v path) (sub' v path) fun _ => Q v)
    (path : String) :
    Settles I (compileObjectConstraints S sub map path) (compileObjectConstraints S sub' map path)
      fun _ => ∀ v ∈ objectParts map, Q v := by
  simp only [objectParts, List.forall_mem_append] at hsub ⊢
  obtain ⟨hprops, hpats, hadd⟩ := hsub
  unfold compileObjectConstraints
  refine (compileProps_settles hprops path).bind fun _ hqprops => ?_
  refine (compilePatterns_settles hpats path).bind fun _ hqpats => ?_
  refine .option_bind fun _ => ?_
  refine (compileAdditionalProps_settles hbool hadd _).bind fun _ hqadd => ?_
  refine .option_bind fun _ => ?_
  refine .option_bind fun _ => ?_
  refine .option_bind fun _ => ?_
  exact .pure ⟨hqprops, hqpats, hqadd⟩

/-! ### Arrays -/

theorem compileItems_settles
    (hsub : ∀ v ∈ itemParts (get? map "items"), ∀ path,
      Settles I (sub v path) (sub' v path) fun _ => Q v) (path : String) :
    Settles I (compileItems S sub map path) (compileItems S sub' map path) fun r =>
      (∀ v ∈ itemParts (get? map "items"), Q v) ∧
        (r.2.isSome ↔ ∃ items, get? map "items" = some (.array items)) := by
  unfold compileItems
  split
  · next tuple htuple =>
    rw [htuple] at hsub ⊢
    exact (compileSubs_settles hsub _).bind fun _ hq => .pure ⟨hq, iff_of_true rfl ⟨tuple, rfl⟩⟩
  · next hne =>
    have hparts : itemParts (get? map "items") = (get? map "items").toList := by
      unfold itemParts
      split
      · next tuple htuple => exact absurd htuple (hne tuple)
      · rfl
    rw [hparts] at hsub ⊢
    refine (compileSub?_settles hsub _).bind fun _ hq => .pure ⟨hq, ?_⟩
    refine iff_of_false Bool.false_ne_true ?_
    rintro ⟨items, h⟩
    exact hne items h

theorem compileAdditionalItems_settles (hbool : ∀ b, Q (.bool b))
    (hsub : ∀ v ∈ additionalItemParts map, ∀ path,
      Settles I (sub v path) (sub' v path) fun _ => Q v)
    {tuple : Option (List (FastNode S.Regex))}
    (htuple : tuple.isSome ↔ ∃ items, get? map "items" = some (.array items)) (path : String) :
    Settles I (compileAdditionalItems S sub (get? map "additionalItems") tuple path)
      (compileAdditionalItems S sub' (get? map "additionalItems") tuple path) fun _ =>
      ∀ v ∈ additionalItemParts map, Q v := by
  unfold compileAdditionalItems
  unfold additionalItemParts at hsub ⊢
  cases tuple with
  | none =>
    split
    · next heq => cases heq
    · refine .pure fun v hv => ?_
      split at hv
      · next items h => exact absurd (htuple.mpr ⟨items, h⟩) Bool.false_ne_true
      · cases hv
  | some nodes =>
    obtain ⟨items, h⟩ := htuple.mp rfl
    rw [h] at hsub ⊢
    cases hadd : get? map "additionalItems" with
    | none => exact .pure (List.forall_mem_nil _)
    | some v =>
      rw [hadd] at hsub
      refine (compileAdditional_settles hbool (hsub v (List.mem_singleton_self v)) path).bind
        fun _ hq => .pure ?_
      exact List.forall_mem_singleton.mpr hq

theorem compileArrayConstraints_settles (hbool : ∀ b, Q (.bool b))
    (hsub : ∀ v ∈ arrayParts map, ∀ path, Settles I (sub v path) (sub' v path) fun _ => Q v)
    (path : String) :
    Settles I (compileArrayConstraints S sub map path) (compileArrayConstraints S sub' map path)
      fun _ => ∀ v ∈ arrayParts map, Q v := by
  simp only [arrayParts, List.forall_mem_append] at hsub ⊢
  obtain ⟨hitems, hadd, hcontains⟩ := hsub
  unfold compileArrayConstraints
  refine (compileItems_settles hitems path).bind fun r hr => ?_
  refine (compileAdditionalItems_settles hbool hadd hr.2 _).bind fun _ hqadd => ?_
  refine .option_bind fun _ => ?_
  refine .option_bind fun _ => ?_
  refine .option_bind fun _ => ?_
  refine (compileSub?_settles hcontains _).bind fun _ hqcontains => ?_
  exact .pure ⟨hr.1, hqadd, hqcontains⟩

/-! ### Combinators -/

theorem compileBranches_settles {name : String}
    (hsub : ∀ v ∈ branchesOf (get? map name), ∀ path,
      Settles I (sub v path) (sub' v path) fun _ => Q v) (path : String) :
    Settles I (compileBranches S sub map name path) (compileBranches S sub' map name path) fun _ =>
      ∀ v ∈ branchesOf (get? map name), Q v := by
  unfold compileBranches
  split
  · next items hitems =>
    rw [hitems] at hsub ⊢
    exact compileSubs_settles hsub _
  · next hne =>
    rw [branchesOf_eq_nil hne]
    exact .pure (List.forall_mem_nil _)

theorem compileIf_settles
    (hsub : ∀ v ∈ ifParts map, ∀ path, Settles I (sub v path) (sub' v path) fun _ => Q v)
    (path : String) :
    Settles I (compileIf S sub map path) (compileIf S sub' map path) fun _ =>
      ∀ v ∈ ifParts map, Q v := by
  unfold compileIf
  unfold ifParts at hsub ⊢
  cases hif : get? map "if" with
  | none => exact .pure (List.forall_mem_nil _)
  | some i =>
    rw [hif] at hsub
    simp only [List.forall_mem_cons, List.forall_mem_append] at hsub ⊢
    obtain ⟨hi, hthen, helse⟩ := hsub
    refine (hi _).bind fun _ hqi => ?_
    refine (compileSub?_settles hthen _).bind fun _ hqthen => ?_
    refine (compileSub?_settles helse _).bind fun _ hqelse => ?_
    exact .pure ⟨hqi, hqthen, hqelse⟩

theorem compileCombinators_settles
    (hsub : ∀ v ∈ combParts map, ∀ path, Settles I (sub v path) (sub' v path) fun _ => Q v)
    (path : String) :
    Settles I (compileCombinators S sub map path) (compileCombinators S sub' map path) fun _ =>
      ∀ v ∈ combParts map, Q v := by
  simp only [combParts, List.forall_mem_append] at hsub ⊢
  obtain ⟨hall, hany, hone, hnot, hif⟩ := hsub
  unfold compileCombinators
  refine (compileBranches_settles hall path).bind fun _ hqall => ?_
  refine (compileBranches_settles hany path).bind fun _ hqany => ?_
  refine (compileBranches_settles hone path).bind fun _ hqone => ?_
  refine (compileSub?_settles hnot _).bind fun _ hqnot => ?_
  refine (compileIf_settles hif path).bind fun _ hqif => ?_
  exact .pure ⟨hqall, hqany, hqone, hqnot, hqif⟩

/-! ### Keywords -/

/-- A group whose keywords are all missing applies no schema. -/
theorem objectParts_eq_nil (h : hasAny map objectNames = false) : objectParts map = [] := by
  rw [objectParts, get?_eq_none h "properties" (by simp [objectNames]),
    get?_eq_none h "patternProperties" (by simp [objectNames]),
    get?_eq_none h "additionalProperties" (by simp [objectNames])]
  rfl

theorem arrayParts_eq_nil (h : hasAny map arrayNames = false) : arrayParts map = [] := by
  rw [arrayParts, additionalItemParts, get?_eq_none h "items" (by simp [arrayNames]),
    get?_eq_none h "contains" (by simp [arrayNames])]
  rfl

theorem combParts_eq_nil (h : hasAny map combNames = false) : combParts map = [] := by
  rw [combParts, ifParts, get?_eq_none h "allOf" (by simp [combNames]),
    get?_eq_none h "anyOf" (by simp [combNames]),
    get?_eq_none h "oneOf" (by simp [combNames]),
    get?_eq_none h "not" (by simp [combNames]),
    get?_eq_none h "if" (by simp [combNames])]
  rfl

/-- **The keywords of an object schema without `$ref`** compile the schemas it applies and no
others. -/
theorem compileKeywords_settles (hbool : ∀ b, Q (.bool b))
    (hsub : ∀ v ∈ objectParts map ++ (arrayParts map ++ combParts map), ∀ path,
      Settles I (sub v path) (sub' v path) fun _ => Q v) (path : String) :
    Settles I (compileKeywords S sub map path) (compileKeywords S sub' map path) fun _ =>
      ∀ v ∈ objectParts map ++ (arrayParts map ++ combParts map), Q v := by
  simp only [List.forall_mem_append] at hsub ⊢
  obtain ⟨hobj, harr, hcomb⟩ := hsub
  unfold compileKeywords
  split
  · exact .failure
  · refine .option_bind fun _ => ?_
    refine (whenAny_settles (compileObjectConstraints_settles hbool hobj path) fun h => by
      rw [objectParts_eq_nil h]
      exact List.forall_mem_nil _).bind fun _ hqobj => ?_
    refine (whenAny_settles (compileArrayConstraints_settles hbool harr path) fun h => by
      rw [arrayParts_eq_nil h]
      exact List.forall_mem_nil _).bind fun _ hqarr => ?_
    refine (whenAny_settles (P := True) (.liftOption fun _ _ => trivial) fun _ => trivial).bind
      fun _ _ => ?_
    refine (whenAny_settles (P := True) (.liftOption fun _ _ => trivial) fun _ => trivial).bind
      fun _ _ => ?_
    refine (whenAny_settles (compileCombinators_settles hcomb path) fun h => by
      rw [combParts_eq_nil h]
      exact List.forall_mem_nil _).bind fun _ hqcomb => ?_
    refine .option_bind fun _ => ?_
    exact .pure ⟨hqobj, hqarr, hqcomb⟩

end

/-! ### References -/

section

variable (S : Oracles) (root : Value) (inProgress : List Bytes)

/-- The state while the pointers are in progress: a cached pointer is grounded. -/
structure CompileCtx.Resolving (ctx : CompileCtx S) : Prop where
  refs : ctx.refs = refIndex root
  inProgress : ctx.inProgress = inProgress
  cache : ∀ e ∈ ctx.cache, Grounded root e.1

end

section

variable {S : Oracles} {root : Value} {inProgress : List Bytes}
  {sub : Value → String → CompileIn S Fueled (FastNode S.Regex)}
  {sub' : Value → String → CompileM S (FastNode S.Regex)}

/-- **A reference** compiles the schema its pointer leads to, unless that is in progress. -/
theorem compileRef_settles
    (hsub : ∀ pointer target path, pointer ∉ inProgress →
      (refIndex root).lookup pointer = some target →
      Settles (CompileCtx.Resolving S root (inProgress ++ [pointer])) (sub target path)
        (sub' target path) fun _ => Settled root target) (r : Bytes) :
    Settles (CompileCtx.Resolving S root inProgress) (compileRef S sub r) (compileRef S sub' r)
      fun _ => ∀ pointer, r = 35 :: pointer → Grounded root pointer := by
  intro ctx hctx
  unfold compileRef
  split
  · next pointer =>
    have hpost : Grounded root pointer →
        ∀ pointer', 35 :: pointer = 35 :: pointer' → Grounded root pointer' :=
      fun h _ heq => (List.cons.inj heq).2 ▸ h
    simp only
    split
    · exact ⟨rfl, nofun⟩
    · cases hcached : ctx.cache.lookup pointer with
      | some node =>
        refine ⟨rfl, fun r hr => ?_⟩
        obtain rfl := Option.some.inj hr
        obtain ⟨xs, ys, heq, -⟩ := List.lookup_eq_some_iff.mp hcached
        exact ⟨hpost (hctx.cache (pointer, node) (by rw [heq]; simp)), hctx⟩
      | none =>
        simp only [hctx.inProgress, hctx.refs]
        split
        · exact ⟨rfl, nofun⟩
        · next hnew =>
          cases htarget : (refIndex root).lookup pointer with
          | none => exact ⟨rfl, nofun⟩
          | some target =>
            -- the target is compiled with its own pointer in progress, which is taken back afterwards
            have hrun := hsub pointer target (S.fromUtf8Lossy pointer) hnew htarget
            obtain ⟨hend, hres⟩ := hrun
              ⟨ctx.refs, ctx.cache, inProgress ++ [pointer]⟩ ⟨hctx.refs, rfl, hctx.cache⟩
            rw [hctx.refs] at hend hres
            constructor
            · show Fueled.bind _ _ = _
              rw [hend]
              exact Fueled.ended_bind _ fun p _ => rfl
            · intro r hr
              obtain ⟨⟨node, ctx'⟩, hnode, hr⟩ := Option.bind_eq_some_iff.mp hr
              obtain rfl := Option.some.inj hr
              obtain ⟨hsettled, hctx'⟩ := hres _ hnode
              have hgrounded := grounded_of_settled htarget hsettled
              refine ⟨hpost hgrounded, hctx'.refs, ?_, ?_⟩
              · show ctx'.inProgress.dropLast = inProgress
                rw [hctx'.inProgress, List.dropLast_concat]
              · exact List.forall_mem_cons.mpr ⟨hgrounded, hctx'.cache⟩
  · next hne =>
    exact ⟨rfl, nofun⟩

theorem compileNode_settles {s : Value}
    (hparts : ∀ v ∈ parts s, ∀ path,
      Settles (CompileCtx.Resolving S root inProgress) (sub v path) (sub' v path)
        fun _ => Settled root v)
    (htarget : ∀ pointer target path, pointer ∉ inProgress →
      (refIndex root).lookup pointer = some target →
      Settles (CompileCtx.Resolving S root (inProgress ++ [pointer])) (sub target path)
        (sub' target path) fun _ => Settled root target) (path : String) :
    Settles (CompileCtx.Resolving S root inProgress) (compileNode S sub s path)
      (compileNode S sub' s path) fun _ => Settled root s := by
  unfold compileNode
  cases s with
  | bool b => cases b <;> exact .pure (settled_bool _)
  | object map =>
    simp only
    split
    · next r href =>
      refine (compileRef_settles htarget r).imp fun _ hgrounded pointer hm => ?_
      cases hm with
      | ref hr => exact hgrounded pointer (eq_of_refTo href hr)
      | part hv =>
        rw [parts_of_ref href] at hv
        cases hv
    · next hne =>
      rw [parts_of_keywords hne] at hparts
      refine (compileKeywords_settles settled_bool hparts path).imp fun _ h => ?_
      rw [← parts_of_keywords hne] at h
      exact settled_of_parts (refTo_of_keywords hne) h
  | _ => exact .failure

end

/-! ## Termination

Pointers in progress are distinct and from the index, so the references end; between two of them
schemas get smaller. -/

section

variable (S : Oracles)

/-- `compile_node` to a nesting of `fuel` levels, where the end of the fuel is not `Err(())`. -/
def runLevels : Nat → Value → String → CompileIn S Fueled (FastNode S.Regex)
  | 0, _, _ => fun _ => .outOfFuel
  | fuel + 1, schema, path => compileNode S (runLevels fuel) schema path

/-- `compile`, where the end of the fuel is not `Err(())`. -/
def runCompile (fuel : Nat) (schema : Value) : Fueled (FastNode S.Regex) :=
  if otherDraft schema then .failed
  else (runLevels S fuel schema "" ⟨refIndex schema, [], []⟩).bind fun r => .done r.1

/-- How deep the compiler may nest: each pointer is in progress once, and below it schemas get
smaller. -/
noncomputable def nestingBound (root : Value) : Nat := ((refIndex root).length + 1) * (sizeOf root + 1)

variable {S} {root : Value}

/-- **The measure.** A part of a schema is smaller; the target of a reference is not, but one pointer
fewer can be followed below it. Induction on the fuel of the one run; the other run has enough as
well. -/
theorem runLevels_settles {fuel fuel' : Nat} {inProgress : List Bytes} {s : Value}
    (hnodup : inProgress.Nodup) (hkeys : inProgress ⊆ (refIndex root).map Prod.fst)
    (hs : sizeOf s ≤ sizeOf root)
    (hfuel : ((refIndex root).length - inProgress.length) * (sizeOf root + 1) + sizeOf s < fuel)
    (hfuel' : ((refIndex root).length - inProgress.length) * (sizeOf root + 1) + sizeOf s < fuel')
    (path : String) :
    Settles (CompileCtx.Resolving S root inProgress) (runLevels S fuel s path)
      (compileLevels S fuel' s path) fun _ => Settled root s := by
  induction fuel generalizing fuel' inProgress s path with
  | zero => omega
  | succ fuel ih =>
    obtain ⟨fuel', rfl⟩ : ∃ k, fuel' = k + 1 := ⟨fuel' - 1, by omega⟩
    refine compileNode_settles (fun v hv path => ?_)
      (fun pointer target path hnew htarget => ?_) path
    · have hlt := sizeOf_part hv
      exact ih hnodup hkeys (by omega) (by omega) (by omega) path
    · have hmem : pointer ∈ (refIndex root).map Prod.fst := by
        obtain ⟨xs, ys, heq, -⟩ := List.lookup_eq_some_iff.mp htarget
        exact List.mem_map.mpr ⟨(pointer, target), by rw [heq]; simp, rfl⟩
      have hnodup' : (inProgress ++ [pointer]).Nodup := by
        rw [List.nodup_append]
        refine ⟨hnodup, List.nodup_singleton _, ?_⟩
        rintro a ha b hb rfl
        exact hnew (List.mem_singleton.mp hb ▸ ha)
      have hkeys' : inProgress ++ [pointer] ⊆ (refIndex root).map Prod.fst :=
        List.append_subset.mpr ⟨hkeys, List.cons_subset.mpr ⟨hmem, List.nil_subset _⟩⟩
      have hle : inProgress.length + 1 ≤ (refIndex root).length := by
        have := (List.subperm_of_subset hnodup' hkeys').length_le
        rwa [List.length_append, List.length_singleton, List.length_map] at this
      have htargetSize := (points_of_lookup_refIndex htarget).sizeOf_le
      -- the pointer takes one factor off, which is more than the target can need
      have hfactor : ((refIndex root).length - inProgress.length) * (sizeOf root + 1) =
          ((refIndex root).length - (inProgress ++ [pointer]).length) * (sizeOf root + 1) +
            (sizeOf root + 1) := by
        rw [List.length_append, List.length_singleton, ← Nat.succ_mul]
        congr 1
        omega
      exact ih hnodup' hkeys' htargetSize (by omega) (by omega) path

end

/-- **The compiler returns on every reference graph.** With the fuel of `nestingBound` or more it never
comes to the end of it, so that the result does not depend on the fuel; and where a cycle of references
can be reached from the root, the result is `Err(())`. -/
theorem compile_terminates (S : Oracles) (schema : Value) :
    ∃ result, (∀ fuel, nestingBound schema ≤ fuel →
        runCompile S fuel schema = Fueled.ended result ∧ compile S fuel schema = result) ∧
      (ReachesCycle schema → result = none) := by
  by_cases hdraft : otherDraft schema = true
  · refine ⟨none, fun fuel _ => ?_, fun _ => rfl⟩
    rw [runCompile, compile, if_pos hdraft, if_pos hdraft]
    exact ⟨rfl, rfl⟩
  · have hbound : ∀ fuel, nestingBound schema ≤ fuel →
        ((refIndex schema).length - ([] : List Bytes).length) * (sizeOf schema + 1) +
          sizeOf schema < fuel := by
      intro fuel hfuel
      rw [nestingBound, Nat.succ_mul] at hfuel
      rw [List.length_nil, Nat.sub_zero]
      omega
    have hsettles : ∀ {fuel fuel'}, nestingBound schema ≤ fuel → nestingBound schema ≤ fuel' →
        Settles (CompileCtx.Resolving S schema []) (runLevels S fuel schema "")
          (compileLevels S fuel' schema "") fun _ => Settled schema schema :=
      fun h h' => runLevels_settles List.nodup_nil (List.nil_subset _) (le_refl _) (hbound _ h)
        (hbound _ h') ""
    have hctx : CompileCtx.Resolving S schema [] ⟨refIndex schema, [], []⟩ := ⟨rfl, rfl, nofun⟩
    -- with enough fuel its end is never reached, so that the amount does not matter
    have hlevels : ∀ {fuel fuel'}, nestingBound schema ≤ fuel → nestingBound schema ≤ fuel' →
        runCompile S fuel schema = Fueled.ended (compile S fuel' schema) := by
      intro fuel fuel' h h'
      rw [runCompile, compile, if_neg hdraft, if_neg hdraft, (hsettles h h' _ hctx).1]
      cases compileLevels S fuel' schema "" ⟨refIndex schema, [], []⟩ <;> rfl
    refine ⟨compile S (nestingBound schema) schema, fun fuel hfuel => ⟨hlevels hfuel (le_refl _), ?_⟩,
      fun hcycle => ?_⟩
    · have heq := (hlevels (le_refl _) hfuel).symm.trans (hlevels (le_refl _) (le_refl _))
      exact Fueled.ended_injective heq
    · rw [compile, if_neg hdraft]
      cases hrun : compileLevels S (nestingBound schema) schema "" ⟨refIndex schema, [], []⟩ with
      | none => rfl
      | some r =>
        have hsettled := ((hsettles (le_refl _) (le_refl _) _ hctx).2 r hrun).1
        exact absurd hcycle hsettled.not_reachesCycle

end Castrum
