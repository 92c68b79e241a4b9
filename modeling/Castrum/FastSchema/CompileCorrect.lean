import Castrum.FastSchema.Draft7
import Castrum.FastSchema.Pointers

/-!
# Castrum — the compiler keeps the meaning of a schema

A compiled node holds of exactly the documents that satisfy the schema it was compiled from. The
keywords of a schema object go to the constraint groups of the node, group by group; each group
holds when its keywords do.

Sub-schemas are compiled one by one and may be shared through `$ref`, so "means" is a property of
all unfoldings of the schema that are deep enough; finitely many of them are deep enough together.

* `compileRef_means`, `compileKeywords_means` — the two forms of an object schema;
* `compileLevels_means` — every result of the compiler, by induction on the levels;
* `compile_means` — a compiled schema and `Satisfies`.
-/

namespace Castrum

open Filter

/-- Strings as the walk reads them. -/
def walkReading : Reading := ⟨countChars, textOf⟩

section

variable (S : Oracles) (dom : Json → Option Value)

/-- The node holds of the documents of which `P` says the schema does. -/
def Agrees (P : Value → Json → Prop) (node : FastNode S.Regex) (s : Value) : Prop :=
  ∀ v, P s v ↔ SatNode S dom node v

variable (root : Value)

/-- The node agrees with every unfolding of the schema that is deep enough. -/
def Means (node : FastNode S.Regex) (s : Value) : Prop :=
  ∀ᶠ n in atTop, Agrees S dom (satN S dom walkReading root n) node s

/-- What the compiler keeps of its state: the pointers of the root, and cached nodes that mean what
their pointers lead to. -/
structure CompileCtx.Sound (ctx : CompileCtx S) : Prop where
  refs : ctx.refs = refIndex root
  cache : ∀ e ∈ ctx.cache, ∃ target, Points root e.1 target ∧ Means S dom root e.2 target

end

/-- Finitely many properties that each hold eventually hold together eventually. -/
theorem eventually_forall₂ {α β : Type} {R : Nat → α → β → Prop} {xs : List α} {ys : List β}
    (h : List.Forall₂ (fun x y => ∀ᶠ n in atTop, R n x y) xs ys) :
    ∀ᶠ n in atTop, List.Forall₂ (R n) xs ys := by
  induction h with
  | nil => exact Eventually.of_forall fun _ => .nil
  | cons hx _ ih => exact (hx.and ih).mono fun _ h => .cons h.1 h.2

theorem eventually_option {α : Type} {R : Nat → α → Prop} {o : Option α}
    (h : ∀ a ∈ o, ∀ᶠ n in atTop, R n a) : ∀ᶠ n in atTop, ∀ a ∈ o, R n a := by
  cases o with
  | none => simp
  | some a => simpa using h a rfl

theorem Means.of_schemaHolds {S : Oracles} {dom : Json → Option Value} {root s : Value}
    {node : FastNode S.Regex}
    (h : ∀ᶠ n in atTop, ∀ v,
      SchemaHolds S dom walkReading root (satN S dom walkReading root n) s v ↔
        SatNode S dom node v) : Means S dom root node s := by
  rw [Means, ← map_add_atTop_eq_nat 1, eventually_map]
  exact h

/-! ## Keywords and groups -/

@[simp] theorem onNum_num {S : Oracles} {tok : Bytes} {f : F64 → Prop} :
    onNum S (.num tok) f ↔ f (S.parseF64 tok) := by simp [onNum]

@[simp] theorem onStr_str {raw : Bytes} {f : Bytes → Prop} : onStr (.str raw) f ↔ f raw := by
  simp [onStr]

@[simp] theorem onArr_arr {items : List Json} {f : List Json → Prop} :
    onArr (.arr items) f ↔ f items := by simp [onArr]

@[simp] theorem onObj_obj {ms : List (Bytes × Json)} {f : List (Bytes × Json) → Prop} :
    onObj (.obj ms) f ↔ f ms := by simp [onObj]

def numberKeywords : List Keyword :=
  [.minimum, .maximum, .exclusiveMinimum, .exclusiveMaximum, .multipleOf]

def stringKeywords : List Keyword := [.minLength, .maxLength, .pattern, .format]

def arrayKeywords : List Keyword :=
  [.items, .additionalItems, .minItems, .maxItems, .uniqueItems, .contains]

def objectKeywords : List Keyword :=
  [.properties, .patternProperties, .additionalProperties, .minProperties, .maxProperties,
    .required, .dependencies]

/-- The kind of values a keyword constrains, if it is one only. -/
def Keyword.subject : Keyword → Option Kind
  | .minimum | .maximum | .exclusiveMinimum | .exclusiveMaximum | .multipleOf => some .number
  | .minLength | .maxLength | .pattern | .format => some .string
  | .items | .additionalItems | .minItems | .maxItems | .uniqueItems | .contains => some .array
  | .properties | .patternProperties | .additionalProperties | .minProperties | .maxProperties
  | .required | .dependencies => some .object
  | _ => none

def combKeywords : List Keyword := [.allOf, .anyOf, .oneOf, .not, .ifThenElse]

theorem Keyword.mem_groups (k : Keyword) :
    k ∈ [.type, .enum, .const] ∨ k ∈ numberKeywords ∨ k ∈ stringKeywords ∨ k ∈ arrayKeywords ∨
      k ∈ objectKeywords ∨ k ∈ combKeywords := by
  cases k <;> simp [numberKeywords, stringKeywords, arrayKeywords, objectKeywords, combKeywords]

section

variable (S : Oracles) (dom : Json → Option Value) (P : Value → Json → Prop) (map : SchemaMap)

/-- The keyword holds of the document if the schema object has it. -/
def Asserts (v : Json) (k : Keyword) : Prop :=
  ∀ kv, get? map k.name = some kv → KeywordHolds S dom walkReading P map k kv v

end

theorem optional_forall {α : Type} {f : Value → Option α} {o : Option Value} {x : Option α}
    (h : optional f o = some x) {Q : α → Prop} :
    (∀ b ∈ x, Q b) ↔ ∀ kv, o = some kv → ∀ b ∈ f kv, Q b := by
  cases o with
  | none =>
    obtain rfl := Option.some.inj h
    simp
  | some kv =>
    obtain ⟨a, ha, rfl⟩ := Option.map_eq_some_iff.mp h
    simp [ha]

section

variable {S : Oracles} {dom : Json → Option Value} {P : Value → Json → Prop} {map : SchemaMap}

/-- A keyword group that is not there asserts nothing. -/
theorem asserts_of_hasAny_false {names : List String} {ks : List Keyword}
    (h : hasAny map names = false) (hks : ∀ k ∈ ks, k.name ∈ names) (v : Json) :
    ∀ k ∈ ks, Asserts S dom P map v k := by
  intro k hk kv hkv
  have := List.any_eq_false.mp h _ (hks k hk)
  simp [hkv] at this

/-- A keyword of another kind of values asserts nothing. -/
theorem asserts_of_subject {ks : List Keyword} {κ : Kind} (hks : ∀ k ∈ ks, k.subject = some κ)
    {v : Json} (hv : v.kind ≠ κ) : ∀ k ∈ ks, Asserts S dom P map v k := by
  intro k hk kv _
  have hsubject := hks k hk
  cases k
  all_goals cases hsubject
  all_goals
    intro x hx
    subst hx
    exact absurd rfl hv

theorem numberHolds_iff {num : FastNumber} (h : compileNumberConstraints map = some num)
    (tok : Bytes) :
    NumberHolds S num (S.parseF64 tok) ↔ ∀ k ∈ numberKeywords, Asserts S dom P map (.num tok) k := by
  unfold compileNumberConstraints at h
  obtain ⟨mn, hmn, h⟩ := Option.bind_eq_some_iff.mp h
  obtain ⟨mx, hmx, h⟩ := Option.bind_eq_some_iff.mp h
  obtain ⟨emn, hemn, h⟩ := Option.bind_eq_some_iff.mp h
  obtain ⟨emx, hemx, h⟩ := Option.bind_eq_some_iff.mp h
  obtain ⟨mul, hmul, h⟩ := Option.bind_eq_some_iff.mp h
  obtain rfl := Option.some.inj h
  simp only [numberKeywords, List.forall_mem_cons, List.not_mem_nil, false_implies, implies_true,
    and_true, NumberHolds, Asserts, KeywordHolds, onNum_num, Keyword.name]
  rw [optional_forall hmn, optional_forall hmx, optional_forall hemn, optional_forall hemx,
    optional_forall hmul]

theorem compilePattern_forall {o : Option Value} {x : Option S.Regex}
    (h : compilePattern S o = some x) {Q : S.Regex → Prop} :
    (∀ rx ∈ x, Q rx) ↔
      ∀ kv, o = some kv → ∀ re rx, kv = .string re → S.regexNew re = some rx → Q rx := by
  unfold compilePattern at h
  split at h
  · next re =>
    obtain ⟨rx, hrx, rfl⟩ := Option.map_eq_some_iff.mp h
    refine ⟨fun hQ kv ho re' rx' hkv hrx' => hQ rx' ?_, fun hQ rx' hrx' => ?_⟩
    · obtain rfl := Value.string.inj (Option.some.inj ho ▸ hkv)
      rw [hrx'] at hrx
      exact hrx.symm
    · obtain rfl := Option.some.inj hrx'
      exact hQ _ rfl re rx rfl hrx
  · next hne =>
    obtain rfl := Option.some.inj h
    refine iff_of_true (by simp) ?_
    intro kv ho re rx hkv
    exact absurd (hkv ▸ ho) (hne re)

theorem isEmailFormat_iff {o : Option Value} :
    isEmailFormat o = true ↔ o = some (.string (utf8 "email")) := by
  unfold isEmailFormat
  split <;> simp_all

theorem stringHolds_iff {str : FastString S.Regex} (h : compileStringConstraints S map = some str)
    (raw : Bytes) :
    StringHolds S str raw ↔ ∀ k ∈ stringKeywords, Asserts S dom P map (.str raw) k := by
  unfold compileStringConstraints at h
  obtain ⟨mn, hmn, h⟩ := Option.bind_eq_some_iff.mp h
  obtain ⟨mx, hmx, h⟩ := Option.bind_eq_some_iff.mp h
  obtain ⟨re, hre, h⟩ := Option.bind_eq_some_iff.mp h
  obtain rfl := Option.some.inj h
  simp only [stringKeywords, List.forall_mem_cons, StringHolds, Asserts, KeywordHolds, onStr_str,
    Keyword.name, walkReading, isEmailFormat_iff]
  rw [optional_forall hmn, optional_forall hmx, compilePattern_forall hre]
  refine and_congr_right fun _ => and_congr_right fun _ => and_congr_right fun _ => ?_
  refine ⟨fun h => ⟨?_, List.forall_mem_nil _⟩, fun h he => h.1 _ he rfl⟩
  intro kv hkv heq
  exact h (heq ▸ hkv)

/-! ### `type`, `enum` and `const` -/

/-- The bit of a type name is in the mask of a kind when the name is one of the kind's. -/
theorem typeBit_mask {t : Bytes} {bit : UInt8} (h : typeBit t = some bit) (k : Kind) :
    bit &&& k.mask ≠ 0 ↔ t = utf8 k.name ∨ (t = utf8 "integer" ∧ k = .number) := by
  unfold typeBit at h
  split_ifs at h <;> (subst_vars; obtain rfl := Option.some.inj h; cases k <;> decide +kernel)

theorem typeBit_ne_zero {t : Bytes} {bit : UInt8} (h : typeBit t = some bit) : bit ≠ 0 := by
  unfold typeBit at h
  split_ifs at h <;> (obtain rfl := Option.some.inj h; decide)

theorem or_and_ne_zero (a b m : UInt8) : (a ||| b) &&& m ≠ 0 ↔ a &&& m ≠ 0 ∨ b &&& m ≠ 0 := by
  have hdistrib : (a ||| b) &&& m = a &&& m ||| b &&& m := by
    apply UInt8.toBitVec_inj.1
    ext i
    simp [Bool.and_or_distrib_right]
  rw [hdistrib, Ne, UInt8.or_eq_zero_iff, not_and_or]

/-- The mask of a list of type names has the bits of all of them. -/
theorem addTypes_spec {items : List Value} {mask₀ mask : UInt8}
    (h : addTypes items mask₀ = some mask) :
    ∃ ts, items.mapM Value.asStr = some ts ∧ (∀ t ∈ ts, ∃ bit, typeBit t = some bit) ∧
      ∀ m, mask &&& m ≠ 0 ↔
        mask₀ &&& m ≠ 0 ∨ ∃ t ∈ ts, ∃ bit, typeBit t = some bit ∧ bit &&& m ≠ 0 := by
  induction items generalizing mask₀ with
  | nil =>
    obtain rfl := Option.some.inj h
    exact ⟨[], rfl, by simp⟩
  | cons x xs ih =>
    unfold addTypes at h
    obtain ⟨t, ht, h⟩ := Option.bind_eq_some_iff.mp h
    obtain ⟨bit, hbit, h⟩ := Option.bind_eq_some_iff.mp h
    obtain ⟨ts, hts, hbits, hmask⟩ := ih h
    refine ⟨t :: ts, by simp [ht, hts], ?_, fun m => ?_⟩
    · simpa [hbit] using hbits
    · rw [hmask m, or_and_ne_zero, or_assoc]
      simp [hbit]

/-- The mask of a `type` keyword, by the names it lists. -/
theorem compileType_spec {kv : Value} {mask : UInt8} (h : compileType kv = some mask) :
    (∀ t ∈ typeList kv, ∃ bit, typeBit t = some bit) ∧
      ∀ m, mask &&& m ≠ 0 ↔ ∃ t ∈ typeList kv, ∃ bit, typeBit t = some bit ∧ bit &&& m ≠ 0 := by
  have key : ∀ {items ts}, items.mapM Value.asStr = some ts → typeList kv = ts →
      addTypes items 0 = some mask → (∀ t ∈ typeList kv, ∃ bit, typeBit t = some bit) ∧
      ∀ m, mask &&& m ≠ 0 ↔ ∃ t ∈ typeList kv, ∃ bit, typeBit t = some bit ∧ bit &&& m ≠ 0 := by
    intro items ts hts htl hadd
    obtain ⟨ts', hts', hbits, hmask⟩ := addTypes_spec hadd
    obtain rfl := Option.some.inj (hts.symm.trans hts')
    rw [htl]
    exact ⟨hbits, fun m => by simpa using hmask m⟩
  cases kv with
  | string t => exact key (show [Value.string t].mapM Value.asStr = some [t] from rfl) rfl h
  | array items =>
    obtain ⟨ts, hts, -⟩ := addTypes_spec h
    exact key hts (by simp [typeList, stringsOf, stringItems, Value.asArray, hts]) h
  | _ => cases h

section

variable {node : FastNode S.Regex} {kv : Value} (h : compileType kv = some node.types)
include h

theorem types_mask_iff (k : Kind) : node.types &&& k.mask ≠ 0 ↔
    ∃ t ∈ typeList kv, t = utf8 k.name ∨ (t = utf8 "integer" ∧ k = .number) := by
  obtain ⟨hbits, hmask⟩ := compileType_spec h
  rw [hmask]
  refine exists_congr fun t => and_congr_right fun ht => ?_
  obtain ⟨bit, hbit⟩ := hbits t ht
  simp only [hbit, Option.some.injEq, exists_eq_left', typeBit_mask hbit]

theorem types_eq_zero_iff : node.types = 0 ↔ typeList kv = [] := by
  obtain ⟨hbits, hmask⟩ := compileType_spec h
  have hall : ∀ a : UInt8, a &&& 255 = a := fun a => UInt8.and_neg_one
  have h255 := hmask 255
  simp only [hall] at h255
  rw [← not_iff_not, ← Ne, h255]
  refine ⟨fun ⟨t, ht, _⟩ hnil => by simp [hnil] at ht, fun hne => ?_⟩
  obtain ⟨t, ht⟩ := List.exists_mem_of_ne_nil _ hne
  obtain ⟨bit, hbit⟩ := hbits t ht
  exact ⟨t, ht, bit, hbit, typeBit_ne_zero hbit⟩

theorem integerOnly_iff : node.integerOnly = true ↔
    utf8 "integer" ∈ typeList kv ∧ utf8 "number" ∉ typeList kv := by
  obtain ⟨hbits, hmask⟩ := compileType_spec h
  have hbit : ∀ (m : UInt8) (s : String),
      (∀ t bit, typeBit t = some bit → (bit &&& m ≠ 0 ↔ t = utf8 s)) →
      (node.types &&& m ≠ 0 ↔ utf8 s ∈ typeList kv) := by
    intro m s hs
    rw [hmask]
    refine ⟨fun ⟨t, ht, bit, hb, hm⟩ => (hs t bit hb).mp hm ▸ ht, fun hmem => ?_⟩
    obtain ⟨bit, hb⟩ := hbits _ hmem
    exact ⟨_, hmem, bit, hb, (hs _ bit hb).mpr rfl⟩
  have hint := hbit tInt "integer" fun t bit hb => by
    unfold typeBit at hb
    split_ifs at hb <;> (subst_vars; obtain rfl := Option.some.inj hb; decide +kernel)
  have hnum := hbit tNum "number" fun t bit hb => by
    unfold typeBit at hb
    split_ifs at hb <;> (subst_vars; obtain rfl := Option.some.inj hb; decide +kernel)
  rw [FastNode.integerOnly, Bool.and_eq_true, decide_eq_true_eq, decide_eq_true_eq, hint, ← hnum,
    not_not]

/-- The type mask, and the integer check on a number, are the `type` keyword. -/
theorem typeHolds_iff (v : Json) :
    TypeHolds S node v ↔ typeList kv = [] ∨ ∃ t ∈ typeList kv, HasType S t v := by
  rw [TypeHolds, types_eq_zero_iff h, types_mask_iff h, integerOnly_iff h]
  cases v with
  | num tok =>
    have hex : ∀ Q : Prop, (∃ t ∈ typeList kv, t = utf8 "number" ∨ (t = utf8 "integer" ∧ Q)) ↔
        utf8 "number" ∈ typeList kv ∨ (utf8 "integer" ∈ typeList kv ∧ Q) := by
      intro Q
      simp only [and_or_left, exists_or, exists_eq_right, ← and_assoc, exists_and_right]
    simp only [HasType, Json.kind, Kind.name, Json.num.injEq, forall_eq', exists_eq_left', hex]
    by_cases hnil : typeList kv = []
    · simp [hnil]
    · simp only [hnil, false_or, and_true]
      tauto
  | _ => simp [HasType, Json.kind]

end

theorem valueHolds_iff {node : FastNode S.Regex} (h : compileValue map = some node.value)
    (hboth : unsupported map = false) (v : Json) :
    ValueHolds S dom node v ↔ Asserts S dom P map v .enum ∧ Asserts S dom P map v .const := by
  have hex : ((get? map "enum").isSome && (get? map "const").isSome) = false := by
    simp only [unsupported, Bool.or_eq_false_iff] at hboth
    exact hboth.2
  simp only [ValueHolds, Asserts, Keyword.name, KeywordHolds, Equals]
  unfold compileValue at h
  split at h
  · next kv hkv =>
    obtain ⟨c, hc, hv⟩ := Option.map_eq_some_iff.mp h
    obtain ⟨members, hmem, rfl⟩ := Option.map_eq_some_iff.mp hc
    have hconst : get? map "const" = none := by simpa [hkv] using hex
    have harr : kv = .array members := by
      cases kv <;> simp_all [Value.asArray]
    subst harr
    have haccepts : ∀ x, (ValueConstraint.enum members).accepts x = true ↔
        ∃ m ∈ members, sonicValuesEqual m x = true := fun x => List.any_eq_true
    simp only [← hv, hkv, hconst, haccepts, Option.mem_def, Option.some.injEq, forall_eq',
      reduceCtorEq, false_implies, implies_true, and_true, Value.array.injEq]
    exact ⟨fun ⟨x, hx, m, hm, heq⟩ => ⟨m, hm, x, hx, heq⟩,
      fun ⟨m, hm, x, hx, heq⟩ => ⟨x, hx, m, hm, heq⟩⟩
  · next hnone =>
    have hv := Option.some.inj h
    simp only [← hv, hnone, Option.mem_def, reduceCtorEq, false_implies, implies_true, true_and,
      Option.map_eq_some_iff, forall_exists_index, and_imp]
    refine ⟨fun h kv hkv => h _ kv hkv rfl, ?_⟩
    rintro h _ kv hkv rfl
    exact h kv hkv

end

/-! ### Objects -/

/-- The members of an object keyword. -/
def membersOf : Option Value → SchemaMap
  | some (.object ms) => ms
  | _ => []

theorem namesOf_eq (o : Option Value) : namesOf o = (membersOf o).map Prod.fst := by
  rcases o with _ | kv
  · rfl
  · cases kv <;> rfl

theorem membersOf_eq_nil {o : Option Value} (h : ∀ ms, o = some (.object ms) → False) :
    membersOf o = [] := by
  unfold membersOf
  split
  · next ms => exact absurd rfl (h ms)
  · rfl

theorem forall_membersOf {o : Option Value} {Q : Bytes × Value → Prop} :
    (∀ p ∈ membersOf o, Q p) ↔ ∀ kv, o = some kv → ∀ ms, kv = .object ms → ∀ p ∈ ms, Q p := by
  unfold membersOf
  split
  · simp
  · next hne =>
    refine iff_of_true (by simp) ?_
    intro kv ho ms hkv
    exact absurd (hkv ▸ ho) (hne ms)

theorem mem_foldl_insertKey {keys ks : List Bytes} {key : Bytes} :
    key ∈ ks.foldl insertKey keys ↔ key ∈ keys ∨ key ∈ ks := by
  induction ks generalizing keys with
  | nil => simp
  | cons k ks ih =>
    rw [List.foldl_cons, ih, insertKey]
    split
    · next hk =>
      rw [List.mem_cons, ← or_assoc]
      refine or_congr_left ⟨.inl, fun h => h.elim id fun h => h ▸ hk⟩
    · rw [List.mem_append, List.mem_singleton, List.mem_cons, or_assoc]

theorem compileRequired_forall {o : Option Value} {rk : RequiredKeys}
    (h : compileRequired o = some rk) {Q : Bytes → Prop} :
    (∀ key ∈ rk.keys, Q key) ↔ ∀ kv, o = some kv → ∀ key ∈ stringsOf kv, Q key := by
  have hkeys : ∀ {ks}, requiredKeys ks = some rk → ∀ key, key ∈ rk.keys ↔ key ∈ ks := by
    intro ks hks key
    unfold requiredKeys at hks
    split at hks
    · obtain rfl := Option.some.inj hks
      simp [mem_foldl_insertKey]
    · cases hks
  cases o with
  | none => simp [hkeys h]
  | some kv =>
    obtain ⟨ks, hks, h⟩ := Option.bind_eq_some_iff.mp h
    simp [hkeys h, stringsOf, hks]

theorem compileDependencies_forall {map : SchemaMap} {deps : List (Bytes × List Bytes)}
    (h : compileDependencies map = some deps) {Q : Bytes → List Bytes → Prop} :
    (∀ d ∈ deps, Q d.1 d.2) ↔
      ∀ d ∈ membersOf (get? map "dependencies"), Q d.1 (stringsOf d.2) := by
  unfold compileDependencies at h
  split at h
  · next ds hds =>
    rw [hds]
    refine (Forall₂.forall_iff (forall₂_of_mapM h) fun d d' hd => ?_).symm
    obtain ⟨ks, hks, rfl⟩ := Option.map_eq_some_iff.mp hd
    rw [stringsOf, hks, Option.getD_some]
  · next hne =>
    obtain rfl := Option.some.inj h
    simp [membersOf_eq_nil hne]

/-- Looking a key up among related members. -/
theorem lookup_forall₂ {N : Type} {R : Value → N → Prop} {ps : SchemaMap} {qs : List (Bytes × N)}
    (h : List.Forall₂ (fun p q => q.1 = p.1 ∧ R p.2 q.2) ps qs) (hnd : (ps.map Prod.fst).Nodup)
    (key : Bytes) :
    (key ∉ ps.map Prod.fst ∧ qs.lookup key = none) ∨
      ∃ s n, qs.lookup key = some n ∧ R s n ∧ ∀ p, p ∈ ps ∧ key = p.1 ↔ p = (key, s) := by
  induction h with
  | nil => exact .inl (by simp)
  | @cons p q ps qs hpq _ ih =>
    rw [List.map_cons, List.nodup_cons] at hnd
    by_cases hkey : key = p.1
    · refine .inr ⟨p.2, q.2, ?_, hpq.2, fun p' => ⟨fun ⟨hp', hk⟩ => ?_, ?_⟩⟩
      · rw [List.lookup_cons, hpq.1, hkey, beq_self_eq_true]
      · rcases List.mem_cons.mp hp' with hp' | hp'
        · rw [hp', hkey]
        · refine absurd (List.mem_map.mpr ⟨p', hp', ?_⟩) hnd.1
          rw [← hk, hkey]
      · intro hp'
        rw [hp', hkey]
        exact ⟨List.mem_cons_self, rfl⟩
    · have hlookup : ((q :: qs).lookup key) = qs.lookup key := by
        rw [List.lookup_cons, hpq.1, beq_false_of_ne hkey]
      rw [hlookup]
      rcases ih hnd.2 with ⟨hk, hn⟩ | ⟨s, n, hsome, hR, hmem⟩
      · exact .inl ⟨by simpa [hkey] using hk, hn⟩
      · refine .inr ⟨s, n, hsome, hR, fun p' => ?_⟩
        rw [← hmem p', List.mem_cons]
        refine and_congr_left fun hk => or_iff_right fun heq => hkey ?_
        rw [hk, heq]

section

variable {S : Oracles} {dom : Json → Option Value} {P : Value → Json → Prop}

/-- The object keywords of a schema, compiled. -/
structure ObjectAgrees (S : Oracles) (dom : Json → Option Value) (P : Value → Json → Prop)
    (map : SchemaMap) (o : FastObject S.Regex (FastNode S.Regex)) : Prop where
  props : List.Forall₂ (fun p q => q.1 = p.1 ∧ Agrees S dom P q.2 p.2)
    (membersOf (get? map "properties")) o.props
  patterns : List.Forall₂ (fun p q => S.regexNew p.1 = some q.1 ∧ Agrees S dom P q.2 p.2)
    (membersOf (get? map "patternProperties")) o.patterns
  additional : ∀ v, AdditionalHolds S (SatNode S dom) o.additional v ↔
    ∀ kv, get? map "additionalProperties" = some kv → P kv v
  keys : ∀ ks : List Bytes, KeysHold S o ks ↔
    (∀ kv, get? map "minProperties" = some kv → ∀ n ∈ nonnegUsize kv, n ≤ ks.dedup.length) ∧
    (∀ kv, get? map "maxProperties" = some kv → ∀ n ∈ nonnegUsize kv, ks.dedup.length ≤ n) ∧
    (∀ kv, get? map "required" = some kv → ∀ key ∈ stringsOf kv, key ∈ ks) ∧
    ∀ d ∈ membersOf (get? map "dependencies"), d.1 ∈ ks → ∀ key ∈ stringsOf d.2, key ∈ ks

variable {map : SchemaMap} {o : FastObject S.Regex (FastNode S.Regex)}

theorem matchesKey_iff {re : Bytes} {rx : S.Regex} (h : S.regexNew re = some rx) (key : Bytes) :
    MatchesKey S re key ↔ covers S key rx = true := by
  simp [MatchesKey, h]

theorem ObjectAgrees.memberHolds_iff (h : ObjectAgrees S dom P map o)
    (hnd : (namesOf (get? map "properties")).Nodup) (key : Bytes) (v : Json) :
    MemberHolds S (SatNode S dom) o key v ↔
      (∀ p ∈ membersOf (get? map "properties"), key = p.1 → P p.2 v) ∧
      (∀ p ∈ membersOf (get? map "patternProperties"), MatchesKey S p.1 key → P p.2 v) ∧
      (key ∉ namesOf (get? map "properties") →
        (∀ re ∈ namesOf (get? map "patternProperties"), ¬ MatchesKey S re key) →
        ∀ kv, get? map "additionalProperties" = some kv → P kv v) := by
  have hpats : (∀ p ∈ o.patterns, covers S key p.1 = true → SatNode S dom p.2 v) ↔
      ∀ p ∈ membersOf (get? map "patternProperties"), MatchesKey S p.1 key → P p.2 v := by
    refine (Forall₂.forall_iff h.patterns fun p q hpq => ?_).symm
    rw [matchesKey_iff hpq.1, hpq.2 v]
  have huncov : (∀ p ∈ o.patterns, covers S key p.1 = false) ↔
      ∀ re ∈ namesOf (get? map "patternProperties"), ¬ MatchesKey S re key := by
    rw [namesOf_eq, List.forall_mem_map]
    refine (Forall₂.forall_iff h.patterns fun p q hpq => ?_).symm
    rw [matchesKey_iff hpq.1, Bool.not_eq_true]
  rw [MemberHolds, hpats, huncov, h.additional, FastObject.prop?, namesOf_eq (get? map "properties")]
  rw [namesOf_eq] at hnd
  -- Unique names make the lookup total on the pairs: it finds the one schema of a declared key or
  -- tells that there is none.
  rcases lookup_forall₂ (R := fun s n => Agrees S dom P n s) h.props hnd key with
    ⟨hkey, hnone⟩ | ⟨s, n, hsome, hR, hmem⟩
  · have hprops : ∀ p ∈ membersOf (get? map "properties"), key = p.1 → P p.2 v := by
      intro p hp hk
      exact absurd (List.mem_map.mpr ⟨p, hp, hk.symm⟩) hkey
    rw [hnone]
    simp only [reduceCtorEq, false_implies, implies_true, true_and, hkey, not_false_eq_true,
      and_iff_right hprops]
  · have hkey : key ∈ (membersOf (get? map "properties")).map Prod.fst :=
      List.mem_map.mpr ⟨(key, s), ((hmem _).mpr rfl).1, rfl⟩
    have hprops : (∀ p ∈ membersOf (get? map "properties"), key = p.1 → P p.2 v) ↔ P s v := by
      refine ⟨fun hall => hall _ ((hmem _).mpr rfl).1 rfl, fun hs p hp hk => ?_⟩
      rw [(hmem p).mp ⟨hp, hk⟩]
      exact hs
    rw [hprops, hR v, hsome]
    simp only [Option.some.injEq, forall_eq', reduceCtorEq, false_implies, hkey,
      not_true_eq_false]

theorem ObjectAgrees.objectHolds_iff (h : ObjectAgrees S dom P map o)
    (hnd : (namesOf (get? map "properties")).Nodup) (ms : List (Bytes × Json)) :
    ObjectHolds S (SatNode S dom) o ms ↔
      ∀ k ∈ objectKeywords, Asserts S dom P map (.obj ms) k := by
  simp only [ObjectHolds, h.memberHolds_iff hnd, h.keys, objectKeywords, List.forall_mem_cons,
    Asserts, Keyword.name, KeywordHolds, onObj_obj, forall_membersOf, keysOf, walkReading,
    memberKeys]
  constructor
  · rintro ⟨hm, hmin, hmax, hreq, hdep⟩
    refine ⟨?_, ?_, ?_, hmin, hmax, hreq, hdep, List.forall_mem_nil _⟩
    · exact fun kv hkv props hprops p hp m hmem => (hm m hmem).1 kv hkv props hprops p hp
    · exact fun kv hkv pats hpats p hp m hmem => (hm m hmem).2.1 kv hkv pats hpats p hp
    · exact fun kv hkv m hmem hprops hpats => (hm m hmem).2.2 hprops hpats kv hkv
  · rintro ⟨hprops, hpats, hadd, hmin, hmax, hreq, hdep, -⟩
    refine ⟨fun m hmem => ⟨?_, ?_, ?_⟩, hmin, hmax, hreq, hdep⟩
    · exact fun kv hkv props hp p hmem' => hprops kv hkv props hp p hmem' m hmem
    · exact fun kv hkv pats hp p hmem' => hpats kv hkv pats hp p hmem' m hmem
    · exact fun hp hq kv hkv => hadd kv hkv m hmem hp hq

/-! ### Arrays -/

/-- The two forms of `items`, compiled. -/
inductive ItemsAgree (R : Value → FastNode S.Regex → Prop) :
    Option Value → Option (FastNode S.Regex) × Option (List (FastNode S.Regex)) → Prop where
  | missing : ItemsAgree R none (none, none)
  | single {v n} : (∀ tuple, v ≠ .array tuple) → R v n → ItemsAgree R (some v) (some n, none)
  | tuple {vs ns} : List.Forall₂ R vs ns → ItemsAgree R (some (.array vs)) (none, some ns)

/-- The array keywords of a schema, compiled. -/
structure ArrayAgrees (S : Oracles) (dom : Json → Option Value) (P : Value → Json → Prop)
    (map : SchemaMap) (a : FastArray (FastNode S.Regex)) : Prop where
  items : ItemsAgree (fun s n => Agrees S dom P n s) (get? map "items") (a.items, a.tupleItems)
  additional : a.tupleItems.isSome → ∀ v,
    AdditionalHolds S (SatNode S dom) (a.additionalItems.getD .allow) v ↔
      ∀ kv, get? map "additionalItems" = some kv → P kv v
  counts : ∀ n : Nat, ((∀ m ∈ a.minItems, m ≤ n) ∧ ∀ m ∈ a.maxItems, n ≤ m) ↔
    (∀ kv, get? map "minItems" = some kv → ∀ m ∈ nonnegUsize kv, m ≤ n) ∧
    ∀ kv, get? map "maxItems" = some kv → ∀ m ∈ nonnegUsize kv, n ≤ m
  unique : a.unique = true ↔ get? map "uniqueItems" = some (.bool true)
  contains : Option.Rel (fun s n => Agrees S dom P n s) (get? map "contains") a.contains

variable {a : FastArray (FastNode S.Regex)}

/-- What element `i` has to satisfy. -/
theorem ArrayAgrees.schemaAt_iff (h : ArrayAgrees S dom P map a) (i : Nat) (v : Json) :
    AdditionalHolds S (SatNode S dom) (a.schemaAt S i) v ↔
      (∀ tuple, get? map "items" = some (.array tuple) →
        (∀ s, tuple[i]? = some s → P s v) ∧
        (tuple.length ≤ i → ∀ kv, get? map "additionalItems" = some kv → P kv v)) ∧
      ∀ kv, get? map "items" = some kv → (∀ tuple, kv ≠ .array tuple) → P kv v := by
  have hitems := h.items
  have hadd := h.additional
  unfold FastArray.schemaAt
  -- The three shapes of `items`: absent, one schema for all, a tuple.
  generalize get? map "items" = o at hitems
  generalize a.items = single at hitems
  generalize a.tupleItems = tuple at hitems hadd
  cases hitems with
  | missing => simp [AdditionalHolds]
  | @single kv n hne hR =>
    simp only [AdditionalHolds, ← hR v, Option.some.injEq, hne, false_implies, implies_true,
      true_and, forall_eq', ne_eq, not_false_eq_true, forall_const]
  | @tuple vs ns hrel =>
    have hlen := hrel.length_eq
    have hget := Forall₂.getElem? hrel i
    simp only [Option.some.injEq, Value.array.injEq, forall_eq', ne_eq, false_implies,
      and_true]
    generalize hs : vs[i]? = s at hget
    generalize hn : ns[i]? = n at hget
    cases hget with
    | some hR =>
      have hi : ¬ vs.length ≤ i := by
        have := (List.getElem?_eq_some_iff.mp hs).1
        omega
      simp [AdditionalHolds, ← hR v, hi]
    | none =>
      have hi : vs.length ≤ i := List.getElem?_eq_none_iff.mp hs
      simp only [reduceCtorEq, false_implies, implies_true, true_and, hi, forall_const]
      exact hadd rfl v

theorem ArrayAgrees.contains_iff (h : ArrayAgrees S dom P map a) (items : List Json) :
    (∀ con ∈ a.contains, ∃ v ∈ items, SatNode S dom con v) ↔
      ∀ kv, get? map "contains" = some kv → ∃ w ∈ items, P kv w := by
  have hrel := h.contains
  generalize get? map "contains" = o at hrel
  generalize a.contains = con at hrel
  cases hrel with
  | none => simp
  | some hR =>
    simp only [Option.mem_def, Option.some.injEq, forall_eq']
    exact exists_congr fun w => and_congr_right fun _ => (hR w).symm

theorem ArrayAgrees.arrayHolds_iff (h : ArrayAgrees S dom P map a) (items : List Json) :
    ArrayHolds S dom (SatNode S dom) a items ↔
      ∀ k ∈ arrayKeywords, Asserts S dom P map (.arr items) k := by
  have hunique : (a.unique = true →
      (items.filterMap dom).Pairwise fun x y => sonicValuesEqual x y = false) ↔
      ∀ kv, get? map "uniqueItems" = some kv → kv = .bool true →
        (items.filterMap dom).Pairwise fun x y => sonicValuesEqual x y = false := by
    rw [h.unique]
    exact ⟨fun h kv hkv hb => h (hb ▸ hkv), fun h hkv => h _ hkv rfl⟩
  rw [ArrayHolds, ← and_assoc (a := ∀ n ∈ a.minItems, n ≤ items.length), h.counts, hunique,
    h.contains_iff]
  simp only [h.schemaAt_iff, arrayKeywords, List.forall_mem_cons, Asserts, Keyword.name,
    KeywordHolds, onArr_arr]
  constructor
  · rintro ⟨hat, ⟨hmin, hmax⟩, huniq, hcon⟩
    refine ⟨fun kv hkv => ⟨?_, fun hne w hw => ?_⟩, ?_, hmin, hmax, huniq, hcon,
      List.forall_mem_nil _⟩
    · rintro tuple rfl i s w hs hw
      exact ((hat i w hw).1 tuple hkv).1 s hs
    · obtain ⟨i, hi⟩ := List.mem_iff_getElem?.mp hw
      exact (hat i w hi).2 kv hkv hne
    · exact fun kv hkv tuple htuple i w hi hw => ((hat i w hw).1 tuple htuple).2 hi kv hkv
  · rintro ⟨hitems, hadd, hmin, hmax, huniq, hcon, -⟩
    refine ⟨fun i w hw => ⟨fun tuple htuple => ⟨fun s hs => ?_, fun hi kv hkv => ?_⟩,
      fun kv hkv hne => ?_⟩, ⟨hmin, hmax⟩, huniq, hcon⟩
    · exact (hitems _ htuple).1 tuple rfl i s w hs hw
    · exact hadd kv hkv tuple htuple i w hi hw
    · exact (hitems kv hkv).2 hne w (List.mem_of_getElem? hw)

/-! ### Combinators -/

/-- The branches of a combinator keyword. -/
def branchesOf : Option Value → List Value
  | some (.array subs) => subs
  | _ => []

theorem branchesOf_eq_nil {o : Option Value} (h : ∀ subs, o = some (.array subs) → False) :
    branchesOf o = [] := by
  unfold branchesOf
  split
  · next subs => exact absurd rfl (h subs)
  · rfl

theorem branchesOf_forall {o : Option Value} {Q : List Value → Prop} (hnil : Q []) :
    Q (branchesOf o) ↔ ∀ kv, o = some kv → ∀ subs, kv = .array subs → Q subs := by
  unfold branchesOf
  split
  · simp
  · next hne =>
    refine iff_of_true hnil ?_
    intro kv ho subs hkv
    exact absurd (hkv ▸ ho) (hne subs)

theorem exactlyOne_forall₂ {α β : Type} {R : α → β → Prop} {xs : List α} {ys : List β}
    {A : α → Prop} {B : β → Prop} (h : List.Forall₂ R xs ys) (hR : ∀ x y, R x y → (A x ↔ B y)) :
    ExactlyOne A xs ↔ ExactlyOne B ys := by
  induction h with
  | nil => rfl
  | cons hxy hrest ih =>
    have hnone := Forall₂.forall_iff hrest fun x y h => not_congr (hR x y h)
    rw [ExactlyOne, ExactlyOne, hR _ _ hxy, hnone, ih]

/-- The combinators of a schema, compiled. -/
structure CombAgrees (S : Oracles) (dom : Json → Option Value) (P : Value → Json → Prop)
    (map : SchemaMap) (c : FastComb (FastNode S.Regex)) : Prop where
  allOf : List.Forall₂ (fun s n => Agrees S dom P n s) (branchesOf (get? map "allOf")) c.allOf
  anyOf : List.Forall₂ (fun s n => Agrees S dom P n s) (branchesOf (get? map "anyOf")) c.anyOf
  oneOf : List.Forall₂ (fun s n => Agrees S dom P n s) (branchesOf (get? map "oneOf")) c.oneOf
  not : Option.Rel (fun s n => Agrees S dom P n s) (get? map "not") c.not
  ifThenElse : Option.Rel (fun s ite => Agrees S dom P ite.1 s ∧
    Option.Rel (fun s n => Agrees S dom P n s) (get? map "then") ite.2.1 ∧
    Option.Rel (fun s n => Agrees S dom P n s) (get? map "else") ite.2.2)
    (get? map "if") c.ifThenElse

theorem Agrees.option_forall {o : Option Value} {n : Option (FastNode S.Regex)}
    (h : Option.Rel (fun s n => Agrees S dom P n s) o n) (v : Json) :
    (∀ sub ∈ n, SatNode S dom sub v) ↔ ∀ s ∈ o, P s v := by
  cases h with
  | none => simp
  | some hR => simpa using (hR v).symm

theorem CombAgrees.combHolds_iff {c : FastComb (FastNode S.Regex)} (h : CombAgrees S dom P map c)
    (v : Json) : CombHolds S (SatNode S dom) c v ↔ ∀ k ∈ combKeywords, Asserts S dom P map v k := by
  have hall := Forall₂.forall_iff h.allOf fun s n hR => hR v
  have hany := Forall₂.exists_iff h.anyOf fun s n hR => hR v
  have hone := exactlyOne_forall₂ (A := (P · v)) h.oneOf fun s n hR => hR v
  -- Related lists are empty together: an empty branch list asserts nothing.
  have hnil : ∀ {xs : List Value} {ns : List (FastNode S.Regex)},
      List.Forall₂ (fun s n => Agrees S dom P n s) xs ns → (ns = [] ↔ xs = []) := by
    intro xs ns hrel
    cases hrel <;> simp
  rw [CombHolds, ← hall, ← hany, ← hone, Ne, hnil h.anyOf, Ne, hnil h.oneOf]
  simp only [combKeywords, List.forall_mem_cons, List.not_mem_nil, false_implies, implies_true,
    and_true, Asserts, Keyword.name, KeywordHolds]
  refine and_congr ?_ (and_congr ?_ (and_congr ?_ (and_congr ?_ ?_)))
  · exact branchesOf_forall (Q := fun subs => ∀ s ∈ subs, P s v) (by simp)
  · exact branchesOf_forall (Q := fun subs => subs ≠ [] → ∃ s ∈ subs, P s v) (by simp)
  · exact branchesOf_forall (Q := fun subs => subs ≠ [] → ExactlyOne (P · v) subs) (by simp)
  · have hrel := h.not
    generalize get? map "not" = o at hrel
    generalize c.not = n at hrel
    cases hrel with
    | none => simp
    | some hR => simpa using not_congr (hR v).symm
  · have hrel := h.ifThenElse
    generalize get? map "if" = o at hrel
    generalize c.ifThenElse = n at hrel
    cases hrel with
    | none => simp
    | @some s ite hR =>
      obtain ⟨i, t, e⟩ := ite
      obtain ⟨hif, hthen, helse⟩ := hR
      simp only [Option.some.injEq, Prod.mk.injEq, and_imp, forall_eq', forall_apply_eq_imp_iff,
        forall_apply_eq_imp_iff₂]
      rw [← Agrees.option_forall hthen v, ← Agrees.option_forall helse v, hif v]

/-! ### Nodes -/

/-- A keyword group of a schema object and its constraints in the node. -/
structure GroupAgrees {α : Type} (map : SchemaMap) (names : List String) (o : Option α)
    (Q : α → Prop) : Prop where
  missing : o = none → hasAny map names = false
  holds : ∀ a ∈ o, Q a

theorem GroupAgrees.forall_iff {α : Type} {names : List String} {o : Option α} {Q H : α → Prop}
    {v : Json} (h : GroupAgrees map names o Q) (ks : List Keyword)
    (hks : ∀ k ∈ ks, k.name ∈ names)
    (hiff : ∀ a, Q a → (H a ↔ ∀ k ∈ ks, Asserts S dom P map v k)) :
    (∀ a ∈ o, H a) ↔ ∀ k ∈ ks, Asserts S dom P map v k := by
  cases ho : o with
  | none =>
    exact iff_of_true (by simp) (asserts_of_hasAny_false (h.missing ho) hks v)
  | some a => simpa using hiff a (h.holds a ho)

/-- The keywords of a schema object, compiled. -/
structure NodeAgrees (S : Oracles) (dom : Json → Option Value) (P : Value → Json → Prop)
    (map : SchemaMap) (node : FastNode S.Regex) : Prop where
  never : node.never = false
  types : (optional compileType (get? map "type")).map (·.getD 0) = some node.types
  obj : GroupAgrees map objectNames node.obj (ObjectAgrees S dom P map)
  arr : GroupAgrees map arrayNames node.arr (ArrayAgrees S dom P map)
  str : GroupAgrees map stringNames node.str fun str => compileStringConstraints S map = some str
  num : GroupAgrees map numberNames node.num fun num => compileNumberConstraints map = some num
  comb : GroupAgrees map combNames node.comb (CombAgrees S dom P map)
  value : compileValue map = some node.value

theorem NodeAgrees.typeHolds {node : FastNode S.Regex} (h : NodeAgrees S dom P map node)
    (v : Json) : TypeHolds S node v ↔ Asserts S dom P map v .type := by
  have htypes := h.types
  simp only [Asserts, Keyword.name, KeywordHolds]
  cases hty : get? map "type" with
  | none =>
    rw [hty] at htypes
    have hzero : node.types = 0 := (Option.some.inj htypes).symm
    simp [TypeHolds, FastNode.integerOnly, hzero]
  | some kv =>
    have hmask : compileType kv = some node.types := by
      simpa [hty, optional] using htypes
    simpa using typeHolds_iff hmask v

theorem NodeAgrees.kindHolds {node : FastNode S.Regex} (h : NodeAgrees S dom P map node)
    (hnd : (namesOf (get? map "properties")).Nodup) (v : Json) :
    KindHolds S dom (SatNode S dom) node v ↔
      (∀ k ∈ numberKeywords, Asserts S dom P map v k) ∧
      (∀ k ∈ stringKeywords, Asserts S dom P map v k) ∧
      (∀ k ∈ arrayKeywords, Asserts S dom P map v k) ∧
      ∀ k ∈ objectKeywords, Asserts S dom P map v k := by
  have hnum : v.kind ≠ .number → ∀ k ∈ numberKeywords, Asserts S dom P map v k :=
    asserts_of_subject (by decide)
  have hstr : v.kind ≠ .string → ∀ k ∈ stringKeywords, Asserts S dom P map v k :=
    asserts_of_subject (by decide)
  have harr : v.kind ≠ .array → ∀ k ∈ arrayKeywords, Asserts S dom P map v k :=
    asserts_of_subject (by decide)
  have hobj : v.kind ≠ .object → ∀ k ∈ objectKeywords, Asserts S dom P map v k :=
    asserts_of_subject (by decide)
  -- the keywords for another kind of value assert nothing about this one
  cases v with
  | num tok =>
    have hiff := h.num.forall_iff (v := .num tok) numberKeywords (by decide) fun num hn =>
      @numberHolds_iff S dom P map num hn tok
    rw [KindHolds, hiff]
    exact (and_iff_left ⟨hstr nofun, harr nofun, hobj nofun⟩).symm
  | str raw =>
    have hiff := h.str.forall_iff (v := .str raw) stringKeywords (by decide) fun str hs =>
      @stringHolds_iff S dom P map str hs raw
    rw [KindHolds, hiff, and_iff_right (hnum nofun)]
    exact (and_iff_left ⟨harr nofun, hobj nofun⟩).symm
  | arr items =>
    have hiff := h.arr.forall_iff (v := .arr items) arrayKeywords (by decide) fun a ha =>
      ha.arrayHolds_iff items
    rw [KindHolds, hiff, and_iff_right (hnum nofun), and_iff_right (hstr nofun)]
    exact (and_iff_left (hobj nofun)).symm
  | obj ms =>
    have hiff := h.obj.forall_iff (v := .obj ms) objectKeywords (by decide) fun o ho =>
      ho.objectHolds_iff hnd ms
    rw [KindHolds, hiff, and_iff_right (hnum nofun), and_iff_right (hstr nofun),
      and_iff_right (harr nofun)]
  | _ => exact iff_of_true trivial ⟨hnum nofun, hstr nofun, harr nofun, hobj nofun⟩

/-- **The node holds when every keyword of the schema does.** -/
theorem NodeAgrees.satNode_iff {node : FastNode S.Regex} (h : NodeAgrees S dom P map node)
    (hnd : (namesOf (get? map "properties")).Nodup) (hmap : unsupported map = false) (v : Json) :
    SatNode S dom node v ↔ ∀ k, Asserts S dom P map v k := by
  have hcomb := h.comb.forall_iff (v := v) combKeywords (by decide) fun c hc => hc.combHolds_iff v
  rw [Castrum.satNode_iff, NodeHolds, h.typeHolds, valueHolds_iff (P := P) h.value hmap,
    h.kindHolds hnd, hcomb]
  refine ⟨fun ⟨_, hty, ⟨hen, hco⟩, ⟨hn, hs, ha, ho⟩, hc⟩ k => ?_, fun hall => ?_⟩
  · rcases k.mem_groups with hk | hk | hk | hk | hk | hk
    · simp only [List.mem_cons, List.not_mem_nil, or_false] at hk
      rcases hk with rfl | rfl | rfl
      · exact hty
      · exact hen
      · exact hco
    · exact hn k hk
    · exact hs k hk
    · exact ha k hk
    · exact ho k hk
    · exact hc k hk
  · exact ⟨h.never, hall _, ⟨hall _, hall _⟩, ⟨fun k _ => hall k, fun k _ => hall k,
      fun k _ => hall k, fun k _ => hall k⟩, fun k _ => hall k⟩

end

/-! ## The compiler

Assembled bottom up: leaves, the groups of keywords, nodes, and references through the cache. -/

theorem satNode_any {S : Oracles} {dom : Json → Option Value} (v : Json) :
    SatNode S dom .any v := by
  rw [satNode_iff]
  refine ⟨rfl, ⟨.inl rfl, ?_⟩, nofun, ?_, nofun⟩
  · intro tok _ h
    simp [FastNode.integerOnly, FastNode.any] at h
  · cases v <;> simp [KindHolds, FastNode.any]

theorem not_satNode_neverNode {S : Oracles} {dom : Json → Option Value} (v : Json) :
    ¬ SatNode S dom .neverNode v := by
  rw [satNode_iff]
  intro h
  cases h.1

section

variable (S : Oracles) (dom : Json → Option Value) (root : Value) in
theorem eventually_bool (b : Bool) :
    ∀ᶠ n in atTop, ∀ v, satN S dom walkReading root n (.bool b) v ↔ b = true := by
  refine (eventually_ge_atTop 1).mono fun n hn v => ?_
  obtain ⟨m, rfl⟩ := Nat.exists_eq_add_of_le' hn
  exact Iff.rfl

variable {S : Oracles} {dom : Json → Option Value} {root : Value}

theorem uniqueKeys_get? {map : SchemaMap} (h : uniqueKeysMembers map) {name : String} {kv : Value}
    (hkv : get? map name = some kv) : kv.UniqueKeys := by
  obtain ⟨xs, ys, heq, -⟩ := List.lookup_eq_some_iff.mp hkv
  exact uniqueKeys_of_mem_members h (m := (utf8 name, kv)) (by rw [heq]; simp)

theorem ItemsAgree.eventually {o : Option Value}
    {r : Option (FastNode S.Regex) × Option (List (FastNode S.Regex))}
    (h : ItemsAgree (fun s n => Means S dom root n s) o r) :
    ∀ᶠ n in atTop, ItemsAgree (fun s node =>
      Agrees S dom (satN S dom walkReading root n) node s) o r := by
  cases h with
  | missing => exact Eventually.of_forall fun _ => .missing
  | single hne hR => exact hR.mono fun _ h => .single hne h
  | tuple hrel => exact (eventually_forall₂ hrel).mono fun _ h => .tuple h

theorem Means.eventually_rel {o : Option Value} {r : Option (FastNode S.Regex)}
    (h : Option.Rel (fun s n => Means S dom root n s) o r) :
    ∀ᶠ n in atTop, Option.Rel (fun s node =>
      Agrees S dom (satN S dom walkReading root n) node s) o r := by
  cases h with
  | none => exact Eventually.of_forall fun _ => .none
  | some hR => exact hR.mono fun _ h => .some h

/-- A constraint group that is compiled when one of its keywords is there. -/
theorem whenAny_ensures {α : Type} {map : SchemaMap} {names : List String} {m : CompileM S α}
    {Q : α → Prop} (h : Ensures (CompileCtx.Sound S dom root) m Q) :
    Ensures (CompileCtx.Sound S dom root) (whenAny S map names m) fun o =>
      GroupAgrees map names o Q := by
  unfold whenAny
  split
  · exact h.bind fun a ha => .pure ⟨by simp, by simpa using ha⟩
  · next hno => exact .pure ⟨fun _ => by simpa using hno, by simp⟩

variable {sub : Value → String → CompileM S (FastNode S.Regex)}
  (hsub : ∀ s path, s.UniqueKeys →
    Ensures (CompileCtx.Sound S dom root) (sub s path) fun node => Means S dom root node s)
include hsub

theorem compileAdditional_means {v : Value} (hv : v.UniqueKeys) (path : String) :
    Ensures (CompileCtx.Sound S dom root) (compileAdditional S sub v path) fun add =>
      ∀ᶠ n in atTop, ∀ w, AdditionalHolds S (SatNode S dom) add w ↔
        satN S dom walkReading root n v w := by
  unfold compileAdditional
  split
  · refine .pure ((eventually_bool S dom root true).mono fun n h w => ?_)
    simp [h w, AdditionalHolds]
  · refine .pure ((eventually_bool S dom root false).mono fun n h w => ?_)
    simp [h w, AdditionalHolds]
  · refine (hsub _ _ hv).bind fun node hnode => .pure ?_
    exact hnode.mono fun n h w => (h w).symm
  · exact .failure

theorem compileAdditionalProps_means {o : Option Value} (ho : ∀ kv ∈ o, kv.UniqueKeys)
    (path : String) :
    Ensures (CompileCtx.Sound S dom root) (compileAdditionalProps S sub o path) fun add =>
      ∀ᶠ n in atTop, ∀ w, AdditionalHolds S (SatNode S dom) add w ↔
        ∀ kv, o = some kv → satN S dom walkReading root n kv w := by
  cases o with
  | none => exact .pure (Eventually.of_forall fun n w => by simp [AdditionalHolds])
  | some kv =>
    refine (compileAdditional_means hsub (ho kv rfl) path).imp fun add h => ?_
    exact h.mono fun n h w => by simpa using h w

theorem compileProps_means {map : SchemaMap} (hmap : uniqueKeysMembers map) (path : String) :
    Ensures (CompileCtx.Sound S dom root) (compileProps S sub map path) fun props =>
      List.Forall₂ (fun p q => q.1 = p.1 ∧ Means S dom root q.2 p.2)
        (membersOf (get? map "properties")) props := by
  unfold compileProps
  split
  · next props hprops =>
    rw [hprops]
    refine .mapM fun p hp => ?_
    have hu := uniqueKeys_of_mem_members (uniqueKeys_get? hmap hprops).2 hp
    exact (hsub _ _ hu).bind fun node hnode => .pure ⟨rfl, hnode⟩
  · next hne =>
    rw [membersOf_eq_nil hne]
    exact .pure .nil

theorem compilePatterns_means {map : SchemaMap} (hmap : uniqueKeysMembers map) (path : String) :
    Ensures (CompileCtx.Sound S dom root) (compilePatterns S sub map path) fun pats =>
      List.Forall₂ (fun p q => S.regexNew p.1 = some q.1 ∧ Means S dom root q.2 p.2)
        (membersOf (get? map "patternProperties")) pats := by
  unfold compilePatterns
  split
  · next pats hpats =>
    rw [hpats]
    refine .mapM fun p hp => ?_
    have hu := uniqueKeys_of_mem_members (uniqueKeys_get? hmap hpats).2 hp
    refine (Ensures.liftOption (Q := fun rx => S.regexNew p.1 = some rx) fun _ h => h).bind
      fun rx hrx => ?_
    exact (hsub _ _ hu).bind fun node hnode => .pure ⟨hrx, hnode⟩
  · next hne =>
    rw [membersOf_eq_nil hne]
    exact .pure .nil

theorem compileObjectConstraints_means {map : SchemaMap} (hmap : uniqueKeysMembers map)
    (path : String) :
    Ensures (CompileCtx.Sound S dom root) (compileObjectConstraints S sub map path) fun o =>
      ∀ᶠ n in atTop, ObjectAgrees S dom (satN S dom walkReading root n) map o := by
  unfold compileObjectConstraints
  refine (compileProps_means hsub hmap path).bind fun props hprops => ?_
  refine (compilePatterns_means hsub hmap path).bind fun pats hpats => ?_
  refine (Ensures.liftOption fun _ h => h).bind fun req hreq => ?_
  refine (compileAdditionalProps_means hsub (fun kv h => uniqueKeys_get? hmap h) _).bind
    fun add hadd => ?_
  refine (Ensures.liftOption fun _ h => h).bind fun mn hmn => ?_
  refine (Ensures.liftOption fun _ h => h).bind fun mx hmx => ?_
  refine (Ensures.liftOption fun _ h => h).bind fun deps hdeps => ?_
  refine .pure ?_
  have hprops := eventually_forall₂ (hprops.imp fun p q h =>
    (h.2.mono fun n hn => (⟨h.1, hn⟩ : q.1 = p.1 ∧ Agrees S dom _ q.2 p.2)))
  have hpats := eventually_forall₂ (hpats.imp fun p q h =>
    (h.2.mono fun n hn => (⟨h.1, hn⟩ : S.regexNew p.1 = some q.1 ∧ Agrees S dom _ q.2 p.2)))
  filter_upwards [hprops, hpats, hadd] with n hprops hpats hadd
  refine ⟨hprops, hpats, hadd, fun ks => ?_⟩
  have hdep := compileDependencies_forall hdeps (Q := fun k rs => k ∈ ks → ∀ r ∈ rs, r ∈ ks)
  rw [KeysHold, optional_forall hmn, optional_forall hmx, compileRequired_forall hreq]
  exact and_congr_right fun _ => and_congr_right fun _ => and_congr_right fun _ => hdep

theorem compileSubs_means {items : List Value} (h : uniqueKeysItems items) (path : String) :
    Ensures (CompileCtx.Sound S dom root) (compileSubs S sub items path) fun nodes =>
      List.Forall₂ (fun s n => Means S dom root n s) items nodes := by
  have hrun : Ensures (CompileCtx.Sound S dom root) (compileSubs S sub items path) fun nodes =>
      List.Forall₂ (fun p n => Means S dom root n p.1) items.zipIdx nodes := by
    refine .mapM fun p hp => hsub _ _ ?_
    exact uniqueKeys_of_mem_items h (List.fst_mem_of_mem_zipIdx hp)
  refine hrun.imp fun nodes hnodes => ?_
  have := (List.forall₂_map_left_iff (f := Prod.fst) (R := fun s n => Means S dom root n s)).mpr
    hnodes
  rwa [List.zipIdx_map_fst] at this

theorem compileSub?_means {o : Option Value} (h : ∀ kv ∈ o, kv.UniqueKeys) (path : String) :
    Ensures (CompileCtx.Sound S dom root) (compileSub? S sub o path) fun n =>
      Option.Rel (fun s n => Means S dom root n s) o n := by
  cases o with
  | none => exact .pure .none
  | some kv => exact (hsub _ _ (h kv rfl)).bind fun node hnode => .pure (.some hnode)

theorem compileItems_means {map : SchemaMap} (hmap : uniqueKeysMembers map) (path : String) :
    Ensures (CompileCtx.Sound S dom root) (compileItems S sub map path) fun r =>
      ItemsAgree (fun s n => Means S dom root n s) (get? map "items") r := by
  unfold compileItems
  split
  · next tuple htuple =>
    rw [htuple]
    refine (compileSubs_means hsub (uniqueKeys_get? hmap htuple) _).bind fun nodes hnodes => ?_
    exact .pure (.tuple hnodes)
  · next hne =>
    refine (compileSub?_means hsub (fun kv h => uniqueKeys_get? hmap h) _).bind fun n hn => .pure ?_
    generalize get? map "items" = o at hn hne
    cases hn with
    | none => exact .missing
    | some hR => exact .single (fun tuple h => hne tuple (h ▸ rfl)) hR

theorem compileAdditionalItems_means {o : Option Value} (ho : ∀ kv ∈ o, kv.UniqueKeys)
    (tuple : Option (List (FastNode S.Regex))) (path : String) :
    Ensures (CompileCtx.Sound S dom root) (compileAdditionalItems S sub o tuple path) fun add =>
      tuple.isSome → ∀ᶠ n in atTop, ∀ w,
        AdditionalHolds S (SatNode S dom) (add.getD .allow) w ↔
          ∀ kv, o = some kv → satN S dom walkReading root n kv w := by
  unfold compileAdditionalItems
  split
  · next kv nodes =>
    refine (compileAdditional_means hsub (ho kv rfl) path).bind fun add hadd => .pure fun _ => ?_
    exact hadd.mono fun n h w => by simpa using h w
  · next hne =>
    refine .pure fun htuple => Eventually.of_forall fun n w => ?_
    refine iff_of_true trivial ?_
    intro kv ho
    obtain ⟨nodes, htuple⟩ := Option.isSome_iff_exists.mp htuple
    exact absurd htuple (hne kv nodes ho)

theorem compileArrayConstraints_means {map : SchemaMap} (hmap : uniqueKeysMembers map)
    (path : String) :
    Ensures (CompileCtx.Sound S dom root) (compileArrayConstraints S sub map path) fun a =>
      ∀ᶠ n in atTop, ArrayAgrees S dom (satN S dom walkReading root n) map a := by
  unfold compileArrayConstraints
  refine (compileItems_means hsub hmap path).bind fun items hitems => ?_
  refine (compileAdditionalItems_means hsub (fun kv h => uniqueKeys_get? hmap h) _ _).bind
    fun add hadd => ?_
  refine (Ensures.liftOption fun _ h => h).bind fun mn hmn => ?_
  refine (Ensures.liftOption fun _ h => h).bind fun mx hmx => ?_
  refine (Ensures.liftOption fun _ h => h).bind fun unique hunique => ?_
  refine (compileSub?_means hsub (fun kv h => uniqueKeys_get? hmap h) _).bind fun con hcon => .pure ?_
  have hadd := eventually_imp_distrib_left.mpr hadd
  filter_upwards [hitems.eventually, hadd, Means.eventually_rel hcon] with n hitems hadd hcon
  refine ⟨hitems, hadd, fun k => ?_, ?_, hcon⟩
  · rw [optional_forall hmn, optional_forall hmx]
  · show unique = true ↔ _
    generalize get? map "uniqueItems" = o at hunique
    unfold compileUnique at hunique
    split at hunique
    · obtain rfl := Option.some.inj hunique
      simp
    · obtain rfl := Option.some.inj hunique
      simp
    · cases hunique

theorem compileBranches_means {map : SchemaMap} (hmap : uniqueKeysMembers map) (name path : String) :
    Ensures (CompileCtx.Sound S dom root) (compileBranches S sub map name path) fun nodes =>
      List.Forall₂ (fun s n => Means S dom root n s) (branchesOf (get? map name)) nodes := by
  unfold compileBranches
  split
  · next subs hsubs =>
    rw [hsubs]
    exact compileSubs_means hsub (uniqueKeys_get? hmap hsubs) _
  · next hne =>
    rw [branchesOf_eq_nil hne]
    exact .pure .nil

theorem compileIf_means {map : SchemaMap} (hmap : uniqueKeysMembers map) (path : String) :
    Ensures (CompileCtx.Sound S dom root) (compileIf S sub map path) fun r =>
      ∀ᶠ n in atTop, Option.Rel (fun s ite =>
        Agrees S dom (satN S dom walkReading root n) ite.1 s ∧
        Option.Rel (fun s node => Agrees S dom (satN S dom walkReading root n) node s)
          (get? map "then") ite.2.1 ∧
        Option.Rel (fun s node => Agrees S dom (satN S dom walkReading root n) node s)
          (get? map "else") ite.2.2) (get? map "if") r := by
  unfold compileIf
  split
  · next hnone =>
    rw [hnone]
    exact .pure (Eventually.of_forall fun _ => .none)
  · next kv hkv =>
    rw [hkv]
    refine (hsub _ _ (uniqueKeys_get? hmap hkv)).bind fun i hi => ?_
    refine (compileSub?_means hsub (fun kv h => uniqueKeys_get? hmap h) _).bind fun t ht => ?_
    refine (compileSub?_means hsub (fun kv h => uniqueKeys_get? hmap h) _).bind fun e he => .pure ?_
    filter_upwards [hi, Means.eventually_rel ht, Means.eventually_rel he] with n hi ht he
    exact .some ⟨hi, ht, he⟩

theorem compileCombinators_means {map : SchemaMap} (hmap : uniqueKeysMembers map) (path : String) :
    Ensures (CompileCtx.Sound S dom root) (compileCombinators S sub map path) fun c =>
      ∀ᶠ n in atTop, CombAgrees S dom (satN S dom walkReading root n) map c := by
  unfold compileCombinators
  refine (compileBranches_means hsub hmap "allOf" path).bind fun all hall => ?_
  refine (compileBranches_means hsub hmap "anyOf" path).bind fun any hany => ?_
  refine (compileBranches_means hsub hmap "oneOf" path).bind fun one hone => ?_
  refine (compileSub?_means hsub (fun kv h => uniqueKeys_get? hmap h) _).bind fun no hno => ?_
  refine (compileIf_means hsub hmap path).bind fun ite hite => .pure ?_
  filter_upwards [eventually_forall₂ hall, eventually_forall₂ hany, eventually_forall₂ hone,
    Means.eventually_rel hno, hite] with n hall hany hone hno hite
  exact ⟨hall, hany, hone, hno, hite⟩

/-- **A reference means the schema its pointer leads to.** -/
theorem compileRef_means (hroot : root.UniqueKeys) (r : Bytes) :
    Ensures (CompileCtx.Sound S dom root) (compileRef S sub r) fun node =>
      ∃ pointer target, r = 35 :: pointer ∧ Points root pointer target ∧
        Means S dom root node target := by
  intro ctx res hctx hres
  unfold compileRef at hres
  split at hres
  · next pointer =>
    split at hres
    · cases hres
    · split at hres
      -- A cached node means its target by the invariant of the cache.
      · next node hcached =>
        obtain rfl := Option.some.inj hres
        obtain ⟨xs, ys, heq, -⟩ := List.lookup_eq_some_iff.mp hcached
        obtain ⟨target, hp, hm⟩ := hctx.cache (pointer, node) (by rw [heq]; simp)
        exact ⟨⟨pointer, target, rfl, hp, hm⟩, hctx⟩
      · split at hres
        · cases hres
        · split at hres
          · cases hres
          -- A fresh pointer is compiled, and its node enters the cache with what it means.
          · next target htarget =>
            rw [hctx.refs] at htarget
            have hp := points_of_lookup_refIndex htarget
            obtain ⟨⟨node, ctx'⟩, hrun, hres⟩ := Option.bind_eq_some_iff.mp hres
            obtain rfl := Option.some.inj hres
            have hctx₁ : CompileCtx.Sound S dom root
                { ctx with inProgress := ctx.inProgress ++ [pointer] } :=
              ⟨hctx.refs, hctx.cache⟩
            obtain ⟨hm, hctx'⟩ := hsub target _ (hp.uniqueKeys hroot) _ _ hctx₁ hrun
            refine ⟨⟨pointer, target, rfl, hp, hm⟩, hctx'.refs, fun e he => ?_⟩
            rcases List.mem_cons.mp he with rfl | he
            · exact ⟨target, hp, hm⟩
            · exact hctx'.cache e he
  · cases hres

/-- **The keywords of an object schema without `$ref`.** -/
theorem compileKeywords_means {map : SchemaMap} (hmap : (Value.object map).UniqueKeys)
    (path : String) :
    Ensures (CompileCtx.Sound S dom root) (compileKeywords S sub map path) fun node =>
      ∀ᶠ n in atTop, ∀ v, (∀ k, Asserts S dom (satN S dom walkReading root n) map v k) ↔
        SatNode S dom node v := by
  unfold compileKeywords
  split
  · exact .failure
  · next hsupp =>
    have hnd : (namesOf (get? map "properties")).Nodup := by
      cases hprops : get? map "properties" with
      | none => exact List.nodup_nil
      | some kv =>
        have hkv := uniqueKeys_get? hmap.2 hprops
        cases kv with
        | object props => exact hkv.1
        | _ => exact List.nodup_nil
    refine (Ensures.liftOption fun _ h => h).bind fun types htypes => ?_
    refine (whenAny_ensures (compileObjectConstraints_means hsub hmap.2 path)).bind
      fun obj hobj => ?_
    refine (whenAny_ensures (compileArrayConstraints_means hsub hmap.2 path)).bind
      fun arr harr => ?_
    refine (whenAny_ensures (.liftOption fun _ h => h)).bind fun str hstr => ?_
    refine (whenAny_ensures (.liftOption fun _ h => h)).bind fun num hnum => ?_
    refine (whenAny_ensures (compileCombinators_means hsub hmap.2 path)).bind
      fun comb hcomb => ?_
    refine (Ensures.liftOption fun _ h => h).bind fun value hvalue => .pure ?_
    -- Each part means its keywords from some depth of the references on; from the largest of these
    -- depths all of them do.
    filter_upwards [eventually_option hobj.holds, eventually_option harr.holds,
      eventually_option hcomb.holds] with n hobj' harr' hcomb' v
    refine (NodeAgrees.satNode_iff ?_ hnd (by simpa using hsupp) v).symm
    exact ⟨rfl, htypes, ⟨hobj.missing, hobj'⟩, ⟨harr.missing, harr'⟩, hstr, hnum,
      ⟨hcomb.missing, hcomb'⟩, hvalue⟩

theorem compileNode_means (hroot : root.UniqueKeys) {s : Value} (hs : s.UniqueKeys)
    (path : String) :
    Ensures (CompileCtx.Sound S dom root) (compileNode S sub s path) fun node =>
      Means S dom root node s := by
  unfold compileNode
  split
  · refine .pure (.of_schemaHolds (Eventually.of_forall fun n v => ?_))
    exact iff_of_true rfl (satNode_any v)
  · refine .pure (.of_schemaHolds (Eventually.of_forall fun n v => ?_))
    exact iff_of_false Bool.false_ne_true (not_satNode_neverNode v)
  · next map =>
    split
    · next r hr =>
      refine (compileRef_means hsub hroot r).imp fun node h => .of_schemaHolds ?_
      obtain ⟨pointer, target, rfl, hp, hm⟩ := h
      refine hm.mono fun n h v => ?_
      rw [SchemaHolds, hr, ← h v]
      -- the pointer leads to one value only
      refine ⟨?_, fun ht => ⟨pointer, target, rfl, hp, ht⟩⟩
      rintro ⟨pointer', target', hptr, hp', ht⟩
      rwa [hp.eq hroot hp' (List.cons.inj hptr).2]
    · next hr =>
      refine (compileKeywords_means hsub hs path).imp fun node h => .of_schemaHolds ?_
      refine h.mono fun n h v => ?_
      rw [← h v, SchemaHolds]
      split
      · next r hr' => exact absurd hr' (hr r)
      · rfl
  · exact .failure

end

section

variable (S : Oracles) {dom : Json → Option Value} {root : Value}

theorem compileLevels_means (hroot : root.UniqueKeys) (fuel : Nat) (s : Value) (path : String)
    (hs : s.UniqueKeys) :
    Ensures (CompileCtx.Sound S dom root) (compileLevels S fuel s path) fun node =>
      Means S dom root node s := by
  induction fuel generalizing s path with
  | zero => exact .failure
  | succ fuel ih => exact compileNode_means ih hroot hs path

/-- **A compiled schema holds of exactly the documents that satisfy it.** -/
theorem compile_means {fuel : Nat} {node : FastNode S.Regex} (hroot : root.UniqueKeys)
    (h : compile S fuel root = some node) (v : Json) :
    Satisfies S dom walkReading root root v ↔ SatNode S dom node v := by
  unfold compile at h
  split at h
  · cases h
  · obtain ⟨r, hr, rfl⟩ := Option.map_eq_some_iff.mp h
    have hctx : CompileCtx.Sound S dom root ⟨refIndex root, [], []⟩ := ⟨rfl, nofun⟩
    obtain ⟨hm, -⟩ := compileLevels_means S hroot fuel root "" hroot _ r hctx hr
    have hm : ∀ᶠ n in atTop, (satN S dom walkReading root n root v ↔ SatNode S dom r.1 v) :=
      hm.mono fun n h => h v
    rw [Satisfies, eventually_congr hm, eventually_const]

end

end Castrum
