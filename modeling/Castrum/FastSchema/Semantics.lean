import Castrum.FastSchema.Validate

/-!
# Castrum — what a compiled node means

The declarative meaning of a `FastNode` over a `Json` tree, keyword group by keyword group, with
nothing of the walk in it: no cursor, no context, no depth. `NodeHolds` is one level of it over a
meaning `Sat` of the sub-schemas, and `SatNode` is its fixed point; sub-schemas are smaller than
the node, so there is exactly one.

The bookkeeping of the walk (faults, bit masks, distinct keys) is shown to decide the same
predicates at the end of the module.

* `satNode_iff` — the meaning of a node in terms of its sub-schemas;
* `FastNumber.fault_eq_none`, `FastString.fault_eq_none`, `FastObject.fault_eq_none`,
  `FastArray.fault_eq_none` — no fault exactly when the keyword group holds.
-/

namespace Castrum

def Json.kind : Json → Kind
  | .null => .null
  | .bool _ => .boolean
  | .num _ => .number
  | .str _ => .string
  | .arr _ => .array
  | .obj _ => .object

/-- The member keys, as the walk reads them. -/
def memberKeys (ms : List (Bytes × Json)) : List Bytes := ms.map fun m => textOf m.1

/-- Exactly one element satisfies `P`. -/
def ExactlyOne {α : Type} (P : α → Prop) : List α → Prop
  | [] => False
  | x :: xs => (P x ∧ ∀ y ∈ xs, ¬ P y) ∨ (¬ P x ∧ ExactlyOne P xs)

theorem exactlyOne_congr {α : Type} {P Q : α → Prop} {xs : List α}
    (h : ∀ x ∈ xs, (P x ↔ Q x)) : ExactlyOne P xs ↔ ExactlyOne Q xs := by
  induction xs with
  | nil => rfl
  | cons x xs ih =>
    have htail : (∀ y ∈ xs, ¬ P y) ↔ ∀ y ∈ xs, ¬ Q y :=
      forall₂_congr fun y hy => not_congr (h y (List.mem_cons_of_mem _ hy))
    simp only [ExactlyOne, h x (by simp), htail, ih fun y hy => h y (List.mem_cons_of_mem _ hy)]

section

variable (S : Oracles)

/-! ## Scalars -/

/-- `n` is a multiple of `m`, both read as decimals. An infinity is no multiple, and a zero
divisor, which `multipleOf` may not have, asks nothing. -/
def MultipleOf : F64 → F64 → Prop
  | .fin n, .fin m => S.bigFraction m = 0 ∨ ∃ k : ℤ, S.bigFraction n = k * S.bigFraction m
  | _, _ => False

def NumberHolds (num : FastNumber) (n : F64) : Prop :=
  (∀ b ∈ num.minimum, n.lt b = false) ∧ (∀ b ∈ num.maximum, b.lt n = false) ∧
  (∀ b ∈ num.exclusiveMin, b.lt n = true) ∧ (∀ b ∈ num.exclusiveMax, n.lt b = true) ∧
  ∀ m ∈ num.multipleOf, MultipleOf S n m

/-- A pattern is asked about the decoded text, which has to be UTF-8. -/
def PatternHolds (re : S.Regex) (text : Bytes) : Prop :=
  validUtf8 text = true ∧ S.isMatch re text = true

def StringHolds (str : FastString S.Regex) (raw : Bytes) : Prop :=
  (∀ n ∈ str.minLen, n ≤ countChars raw) ∧ (∀ n ∈ str.maxLen, countChars raw ≤ n) ∧
  (∀ re ∈ str.pattern, PatternHolds S re (textOf raw)) ∧
  (str.formatEmail = true → S.isValidEmailFormat (textOf raw) = true)

/-- `type`; a number that must be an integer has no fraction. -/
def TypeHolds (node : FastNode S.Regex) (v : Json) : Prop :=
  (node.types = 0 ∨ node.types &&& v.kind.mask ≠ 0) ∧
  ∀ tok, v = .num tok → node.integerOnly = true → (S.parseF64 tok).hasFract = false

/-! ## Containers and combinators, over a meaning of the sub-schemas -/

variable (dom : Json → Option Value) (Sat : FastNode S.Regex → Json → Prop)

def AdditionalHolds (additional : Additional (FastNode S.Regex)) (v : Json) : Prop :=
  match additional with
  | .allow => True
  | .deny => False
  | .schema sub => Sat sub v

/-- The schemas that apply to one member: `properties`, every matching pattern, and
`additionalProperties` when neither covers the key. -/
def MemberHolds (o : FastObject S.Regex (FastNode S.Regex)) (key : Bytes) (v : Json) : Prop :=
  (∀ sub, o.prop? key = some sub → Sat sub v) ∧
  (∀ p ∈ o.patterns, covers S key p.1 = true → Sat p.2 v) ∧
  (o.prop? key = none → (∀ p ∈ o.patterns, covers S key p.1 = false) →
    AdditionalHolds S Sat o.additional v)

/-- The keywords on the set of keys. -/
def KeysHold (o : FastObject S.Regex (FastNode S.Regex)) (keys : List Bytes) : Prop :=
  (∀ n ∈ o.minProps, n ≤ keys.dedup.length) ∧ (∀ n ∈ o.maxProps, keys.dedup.length ≤ n) ∧
  (∀ k ∈ o.required.keys, k ∈ keys) ∧
  ∀ d ∈ o.dependentRequired, d.1 ∈ keys → ∀ r ∈ d.2, r ∈ keys

def ObjectHolds (o : FastObject S.Regex (FastNode S.Regex)) (ms : List (Bytes × Json)) : Prop :=
  (∀ m ∈ ms, MemberHolds S Sat o (textOf m.1) m.2) ∧ KeysHold S o (memberKeys ms)

def ArrayHolds (a : FastArray (FastNode S.Regex)) (items : List Json) : Prop :=
  (∀ i v, items[i]? = some v → AdditionalHolds S Sat (a.schemaAt S i) v) ∧
  (∀ n ∈ a.minItems, n ≤ items.length) ∧ (∀ n ∈ a.maxItems, items.length ≤ n) ∧
  (a.unique = true →
    (items.filterMap dom).Pairwise fun x y => sonicValuesEqual x y = false) ∧
  ∀ con ∈ a.contains, ∃ v ∈ items, Sat con v

def CombHolds (comb : FastComb (FastNode S.Regex)) (v : Json) : Prop :=
  (∀ sub ∈ comb.allOf, Sat sub v) ∧ (comb.anyOf ≠ [] → ∃ sub ∈ comb.anyOf, Sat sub v) ∧
  (comb.oneOf ≠ [] → ExactlyOne (Sat · v) comb.oneOf) ∧ (∀ sub ∈ comb.not, ¬ Sat sub v) ∧
  ∀ i t e, comb.ifThenElse = some (i, t, e) →
    (Sat i v → ∀ sub ∈ t, Sat sub v) ∧ (¬ Sat i v → ∀ sub ∈ e, Sat sub v)

/-- The structural keywords of the value's kind. -/
def KindHolds (node : FastNode S.Regex) : Json → Prop
  | .num tok => ∀ num ∈ node.num, NumberHolds S num (S.parseF64 tok)
  | .str raw => ∀ str ∈ node.str, StringHolds S str raw
  | .arr items => ∀ a ∈ node.arr, ArrayHolds S dom Sat a items
  | .obj ms => ∀ o ∈ node.obj, ObjectHolds S Sat o ms
  | _ => True

/-- `enum` / `const`: the value parses, and the constraint accepts what it parses to. -/
def ValueHolds (node : FastNode S.Regex) (v : Json) : Prop :=
  ∀ c ∈ node.value, ∃ x, dom v = some x ∧ c.accepts x = true

/-- One level of the meaning of a node. -/
def NodeHolds (node : FastNode S.Regex) (v : Json) : Prop :=
  node.never = false ∧ TypeHolds S node v ∧ ValueHolds S dom node v ∧
  KindHolds S dom Sat node v ∧ ∀ comb ∈ node.comb, CombHolds S Sat comb v

end

/-! ## The fixed point

The meaning of a node by recursion on its sub-schemas, which are smaller. -/

section

variable {S : Oracles}

/-- `sub` is an immediate sub-schema of the node. -/
inductive FastNode.Sub : FastNode S.Regex → FastNode S.Regex → Prop where
  | prop {node sub o k} : node.obj = some o → (k, sub) ∈ o.props → Sub node sub
  | pattern {node sub o re} : node.obj = some o → (re, sub) ∈ o.patterns → Sub node sub
  | additional {node sub o} : node.obj = some o → o.additional = .schema sub → Sub node sub
  | items {node sub a} : node.arr = some a → a.items = some sub → Sub node sub
  | tuple {node sub a t} : node.arr = some a → a.tupleItems = some t → sub ∈ t → Sub node sub
  | additionalItems {node sub a} : node.arr = some a → a.additionalItems = some (.schema sub) →
      Sub node sub
  | contains {node sub a} : node.arr = some a → a.contains = some sub → Sub node sub
  | allOf {node sub c} : node.comb = some c → sub ∈ c.allOf → Sub node sub
  | anyOf {node sub c} : node.comb = some c → sub ∈ c.anyOf → Sub node sub
  | oneOf {node sub c} : node.comb = some c → sub ∈ c.oneOf → Sub node sub
  | not {node sub c} : node.comb = some c → c.not = some sub → Sub node sub
  | ifNode {node sub c t e} : node.comb = some c → c.ifThenElse = some (sub, t, e) → Sub node sub
  | thenNode {node sub c i e} : node.comb = some c → c.ifThenElse = some (i, some sub, e) →
      Sub node sub
  | elseNode {node sub c i t} : node.comb = some c → c.ifThenElse = some (i, t, some sub) →
      Sub node sub

theorem FastNode.Sub.of_prop? {node sub : FastNode S.Regex}
    {o : FastObject S.Regex (FastNode S.Regex)} {key : Bytes} (ho : node.obj = some o)
    (h : o.prop? key = some sub) : node.Sub sub := by
  obtain ⟨k, hmem⟩ : ∃ k, (k, sub) ∈ o.props := by
    obtain ⟨xs, ys, hprops, -⟩ := List.lookup_eq_some_iff.mp h
    exact ⟨key, by rw [hprops]; simp⟩
  exact .prop ho hmem

theorem FastNode.Sub.of_schemaAt {node sub : FastNode S.Regex}
    {a : FastArray (FastNode S.Regex)} {i : Nat} (ha : node.arr = some a)
    (h : a.schemaAt S i = .schema sub) : node.Sub sub := by
  unfold FastArray.schemaAt at h
  split at h
  · next t ht =>
    split at h
    · next s hs =>
      cases h
      exact .tuple ha ht (List.mem_of_getElem? hs)
    · next hnone =>
      cases hadd : a.additionalItems with
      | none => rw [hadd] at h; cases h
      | some add =>
        rw [hadd] at h
        obtain rfl : add = .schema sub := h
        exact .additionalItems ha hadd
  · split at h
    · next s hs =>
      cases h
      exact .items ha hs
    · cases h

theorem sizeOf_obj_lt {node : FastNode S.Regex} {o : FastObject S.Regex (FastNode S.Regex)}
    (h : node.obj = some o) : sizeOf o < sizeOf node := by
  cases node
  subst h
  simp only [FastNode.mk.sizeOf_spec, Option.some.sizeOf_spec]
  omega

theorem sizeOf_arr_lt {node : FastNode S.Regex} {a : FastArray (FastNode S.Regex)}
    (h : node.arr = some a) : sizeOf a < sizeOf node := by
  cases node
  subst h
  simp only [FastNode.mk.sizeOf_spec, Option.some.sizeOf_spec]
  omega

theorem sizeOf_comb_lt {node : FastNode S.Regex} {c : FastComb (FastNode S.Regex)}
    (h : node.comb = some c) : sizeOf c < sizeOf node := by
  cases node
  subst h
  simp only [FastNode.mk.sizeOf_spec, Option.some.sizeOf_spec]
  omega

/-- Sub-schemas are smaller. -/
theorem FastNode.Sub.sizeOf_lt {node sub : FastNode S.Regex} (h : node.Sub sub) :
    sizeOf sub < sizeOf node := by
  -- In each case the sub-schema is a field, or an entry of a field, of a part of the node.
  cases h with
  | @prop o k ho hmem | @pattern o k ho hmem =>
    have h1 := sizeOf_obj_lt ho
    have h2 := List.sizeOf_lt_of_mem hmem
    cases o
    simp only [FastObject.mk.sizeOf_spec, Prod.mk.sizeOf_spec] at h1 h2
    omega
  | @additional o ho hadd =>
    have h1 := sizeOf_obj_lt ho
    cases o
    subst hadd
    simp only [FastObject.mk.sizeOf_spec, Additional.schema.sizeOf_spec] at h1
    omega
  | @items a ha hi | @contains a ha hi =>
    have h1 := sizeOf_arr_lt ha
    cases a
    subst hi
    simp only [FastArray.mk.sizeOf_spec, Option.some.sizeOf_spec] at h1
    omega
  | @tuple a t ha ht hmem =>
    have h1 := sizeOf_arr_lt ha
    have h2 := List.sizeOf_lt_of_mem hmem
    cases a
    subst ht
    simp only [FastArray.mk.sizeOf_spec, Option.some.sizeOf_spec] at h1
    omega
  | @additionalItems a ha hi =>
    have h1 := sizeOf_arr_lt ha
    cases a
    subst hi
    simp only [FastArray.mk.sizeOf_spec, Option.some.sizeOf_spec,
      Additional.schema.sizeOf_spec] at h1
    omega
  | @allOf c hc hmem | @anyOf c hc hmem | @oneOf c hc hmem =>
    have h1 := sizeOf_comb_lt hc
    have h2 := List.sizeOf_lt_of_mem hmem
    cases c
    simp only [FastComb.mk.sizeOf_spec] at h1 h2
    omega
  | @not c hc hn =>
    have h1 := sizeOf_comb_lt hc
    cases c
    subst hn
    simp only [FastComb.mk.sizeOf_spec, Option.some.sizeOf_spec] at h1
    omega
  | @ifNode c t e hc hi | @thenNode c t e hc hi | @elseNode c t e hc hi =>
    have h1 := sizeOf_comb_lt hc
    cases c
    subst hi
    simp only [FastComb.mk.sizeOf_spec, Option.some.sizeOf_spec, Prod.mk.sizeOf_spec] at h1
    omega

variable {dom : Json → Option Value} {P Q : FastNode S.Regex → Json → Prop}

theorem additionalHolds_congr {add : Additional (FastNode S.Regex)} {v : Json}
    (h : ∀ sub, add = .schema sub → (P sub v ↔ Q sub v)) :
    AdditionalHolds S P add v ↔ AdditionalHolds S Q add v := by
  cases add with
  | schema sub => exact h sub rfl
  | _ => rfl

theorem memberHolds_congr {o : FastObject S.Regex (FastNode S.Regex)} {key : Bytes} {v : Json}
    (hprop : ∀ sub, o.prop? key = some sub → (P sub v ↔ Q sub v))
    (hpat : ∀ p ∈ o.patterns, (P p.2 v ↔ Q p.2 v))
    (hadd : ∀ sub, o.additional = .schema sub → (P sub v ↔ Q sub v)) :
    MemberHolds S P o key v ↔ MemberHolds S Q o key v := by
  refine and_congr (forall₂_congr hprop) (and_congr ?_ ?_)
  · exact forall₂_congr fun p hp => imp_congr_right fun _ => hpat p hp
  · exact imp_congr_right fun _ => imp_congr_right fun _ => additionalHolds_congr hadd

theorem combHolds_congr {comb : FastComb (FastNode S.Regex)} {v : Json} {node : FastNode S.Regex}
    (hc : node.comb = some comb) (h : ∀ sub, node.Sub sub → (P sub v ↔ Q sub v)) :
    CombHolds S P comb v ↔ CombHolds S Q comb v := by
  refine and_congr ?_ (and_congr ?_ (and_congr ?_ (and_congr ?_ ?_)))
  · exact forall₂_congr fun sub hs => h sub (.allOf hc hs)
  · refine imp_congr_right fun _ => exists_congr fun sub => and_congr_right fun hs => ?_
    exact h sub (.anyOf hc hs)
  · exact imp_congr_right fun _ => exactlyOne_congr fun sub hs => h sub (.oneOf hc hs)
  · exact forall₂_congr fun sub hs => not_congr (h sub (.not hc hs))
  · refine forall₃_congr fun i t e => imp_congr_right fun hite => ?_
    have hi := h i (.ifNode hc hite)
    refine and_congr (imp_congr hi ?_) (imp_congr (not_congr hi) ?_)
    · refine forall₂_congr fun sub hs => ?_
      obtain rfl := Option.mem_def.mp hs
      exact h sub (.thenNode hc hite)
    · refine forall₂_congr fun sub hs => ?_
      obtain rfl := Option.mem_def.mp hs
      exact h sub (.elseNode hc hite)

theorem kindHolds_congr {node : FastNode S.Regex} (h : ∀ sub, node.Sub sub → ∀ v, (P sub v ↔ Q sub v))
    (v : Json) : KindHolds S dom P node v ↔ KindHolds S dom Q node v := by
  cases v with
  | arr items =>
    refine forall₂_congr fun a ha => and_congr ?_ (and_congr_right fun _ => and_congr_right fun _ =>
      and_congr_right fun _ => ?_)
    · refine forall₃_congr fun i v _ => additionalHolds_congr fun sub hsub => ?_
      exact h sub (.of_schemaAt ha hsub) v
    · refine forall₂_congr fun con hcon => exists_congr fun v => and_congr_right fun _ => ?_
      exact h con (.contains ha hcon) v
  | obj ms =>
    refine forall₂_congr fun o ho => and_congr_left fun _ => forall₂_congr fun m _ => ?_
    refine memberHolds_congr (fun sub hs => h sub (.of_prop? ho hs) _) ?_ ?_
    · exact fun p hp => h p.2 (.pattern ho hp) _
    · exact fun sub hs => h sub (.additional ho hs) _
  | _ => rfl

/-- The meaning of a node depends on its immediate sub-schemas only. -/
theorem nodeHolds_congr {node : FastNode S.Regex}
    (h : ∀ sub, node.Sub sub → ∀ v, (P sub v ↔ Q sub v)) (v : Json) :
    NodeHolds S dom P node v ↔ NodeHolds S dom Q node v := by
  refine and_congr_right fun _ => and_congr_right fun _ => and_congr_right fun _ =>
    and_congr (kindHolds_congr h v) ?_
  exact forall₂_congr fun comb hc => combHolds_congr hc fun sub hs => h sub hs v

/-- The meaning of a node, unfolded `n` levels. -/
def SatAt (S : Oracles) (dom : Json → Option Value) : Nat → FastNode S.Regex → Json → Prop
  | 0 => fun _ _ => False
  | n + 1 => NodeHolds S dom (SatAt S dom n)

/-- The meaning of a node. -/
def SatNode (S : Oracles) (dom : Json → Option Value) (node : FastNode S.Regex) (v : Json) : Prop :=
  SatAt S dom (sizeOf node) node v

theorem satAt_eq {n m : Nat} {node : FastNode S.Regex} (hn : sizeOf node ≤ n)
    (hm : sizeOf node ≤ m) (v : Json) : SatAt S dom n node v ↔ SatAt S dom m node v := by
  induction n generalizing m node v with
  | zero =>
    cases node
    simp only [FastNode.mk.sizeOf_spec] at hn
    omega
  | succ n ih =>
    cases m with
    | zero =>
      cases node
      simp only [FastNode.mk.sizeOf_spec] at hm
      omega
    | succ m =>
      refine nodeHolds_congr (fun sub hsub v => ?_) v
      have := hsub.sizeOf_lt
      exact ih (by omega) (by omega) v

/-- **A node holds when its own keywords hold over the meaning of its sub-schemas.** -/
theorem satNode_iff (node : FastNode S.Regex) (v : Json) :
    SatNode S dom node v ↔ NodeHolds S dom (SatNode S dom) node v := by
  have hstep : SatNode S dom node v ↔ SatAt S dom (sizeOf node + 1) node v :=
    satAt_eq le_rfl (Nat.le_succ _) v
  refine hstep.trans (nodeHolds_congr (fun sub hsub v => ?_) v)
  exact satAt_eq hsub.sizeOf_lt.le le_rfl v

end

/-! ## Faults decide the keyword groups -/

theorem failWhen_eq_none {α : Type} {bound : Option α} {bad : α → Bool} {keyword : String}
    {message : α → String} :
    failWhen bound bad keyword message = none ↔ ∀ b ∈ bound, bad b = false := by
  cases bound with
  | none => simp [failWhen]
  | some b =>
    simp only [failWhen, Option.mem_def, Option.some.injEq, forall_eq']
    split
    · next h => simp [h]
    · next h => simpa using h

theorem fault_orElse {f g : Option Fault} : (f <|> g) = none ↔ f = none ∧ g = none := by
  cases f <;> simp

theorem F64.le_eq_false {a b : F64} : F64.le a b = false ↔ F64.lt b a = true := by
  simp [F64.le]

/-- What `fraction::BigFraction::from` does on finite `f64`s: it keeps their order and sign. -/
structure Oracles.Lawful (S : Oracles) : Prop where
  mono : StrictMono S.bigFraction
  neg : ∀ q, S.bigFraction (-q) = -S.bigFraction q

section

variable {S : Oracles}

theorem Oracles.Lawful.zero (hS : S.Lawful) : S.bigFraction 0 = 0 := by
  have := hS.neg 0
  rw [neg_zero] at this
  linarith

theorem Oracles.Lawful.abs (hS : S.Lawful) (q : ℚ) : |S.bigFraction q| = S.bigFraction |q| := by
  rcases le_total 0 q with hq | hq
  · have h0 := hS.mono.monotone hq
    rw [hS.zero] at h0
    rw [abs_of_nonneg hq, abs_of_nonneg h0]
  · have h0 := hS.mono.monotone hq
    rw [hS.zero] at h0
    rw [abs_of_nonpos hq, abs_of_nonpos h0, hS.neg]

/-- **`is_multiple_of` decides divisibility**; its two early exits change nothing. -/
theorem isMultipleOf_iff (hS : S.Lawful) (n m : F64) :
    isMultipleOf S n m = true ↔ MultipleOf S n m := by
  cases n with
  | fin n =>
    cases m with
    | fin m =>
      simp only [isMultipleOf, MultipleOf]
      split
      · next hn =>
        simp only [true_iff]
        exact .inr ⟨0, by rw [hn, hS.zero]; simp⟩
      · next hn =>
        split
        · next hlt =>
          -- `0 < |n| < m`: no multiple of `m` is there but `0`
          simp only [Bool.false_eq_true, false_iff, not_or, not_exists]
          have hmF := hS.mono hlt
          rw [← hS.abs] at hmF
          have hm0 : 0 < S.bigFraction m := lt_of_le_of_lt (abs_nonneg _) hmF
          refine ⟨hm0.ne', fun k hk => ?_⟩
          rw [hk, abs_mul, abs_of_pos hm0] at hmF
          have hk1 : |(k : ℚ)| < 1 := by
            by_contra hge
            have := mul_le_mul_of_nonneg_right (not_lt.mp hge) hm0.le
            linarith
          have hk0 : k = 0 := by
            rw [← Int.cast_abs] at hk1
            exact Int.abs_lt_one_iff.mp (by exact_mod_cast hk1)
          rw [hk0, Int.cast_zero, zero_mul, ← hS.zero] at hk
          exact hn (hS.mono.injective hk)
        · simp only [decide_eq_true_eq]
          by_cases hm : S.bigFraction m = 0
          · simp [hm]
          · simp only [hm, false_or]
            constructor
            · intro hden
              refine ⟨(S.bigFraction n / S.bigFraction m).num, ?_⟩
              rw [Rat.coe_int_num_of_den_eq_one hden, div_mul_cancel₀ _ hm]
            · rintro ⟨k, hk⟩
              rw [hk, mul_div_cancel_right₀ _ hm, Rat.den_intCast]
    | _ => simp [isMultipleOf, MultipleOf]
  | _ => cases m <;> simp [isMultipleOf, MultipleOf]

theorem FastNumber.fault_eq_none (hS : S.Lawful) {num : FastNumber} {n : F64} :
    num.fault S n = none ↔ NumberHolds S num n := by
  simp only [FastNumber.fault, fault_orElse, failWhen_eq_none,
    NumberHolds, F64.le_eq_false, Bool.not_eq_eq_eq_not, Bool.not_false, isMultipleOf_iff hS]

theorem FastNode.numberFault_eq_none (hS : S.Lawful) {node : FastNode S.Regex} {tok : Bytes} :
    node.numberFault S tok = none ↔
      (node.integerOnly = true → (S.parseF64 tok).hasFract = false) ∧
        ∀ num ∈ node.num, NumberHolds S num (S.parseF64 tok) := by
  simp only [FastNode.numberFault]
  split
  · next h =>
    obtain ⟨h1, h2⟩ := Bool.and_eq_true_iff.mp h
    simp [h1, h2]
  · next h =>
    have hint : node.integerOnly = true → (S.parseF64 tok).hasFract = false := by
      intro hi
      simpa [hi] using h
    cases hnum : node.num with
    | none => simpa using hint
    | some num =>
      simp only [FastNumber.fault_eq_none hS, Option.mem_def, Option.some.injEq, forall_eq']
      exact (and_iff_right hint).symm

theorem patternFault_eq_none {re : S.Regex} {text : Bytes} :
    patternFault S re text = none ↔ PatternHolds S re text := by
  unfold patternFault PatternHolds
  cases validUtf8 text <;> cases S.isMatch re text <;> simp

theorem FastString.fault_eq_none {str : FastString S.Regex} {raw : Bytes} :
    str.fault S raw = none ↔ StringHolds S str raw := by
  have hpat : (str.pattern.bind fun re => patternFault S re (textOf raw)) = none ↔
      ∀ re ∈ str.pattern, PatternHolds S re (textOf raw) := by
    cases str.pattern with
    | none => simp
    | some re => simp [patternFault_eq_none]
  have hemail : (if str.formatEmail && !S.isValidEmailFormat (textOf raw) then
        some ("format", "string is not a valid email address") else none) = none ↔
      (str.formatEmail = true → S.isValidEmailFormat (textOf raw) = true) := by
    cases str.formatEmail <;> cases S.isValidEmailFormat (textOf raw) <;> simp
  simp only [FastString.fault, fault_orElse, failWhen_eq_none,
    hpat, hemail, StringHolds, decide_eq_false_iff_not, not_lt]

theorem FastNode.stringFault_eq_none {node : FastNode S.Regex} {raw : Bytes} :
    node.stringFault S raw = none ↔ ∀ str ∈ node.str, StringHolds S str raw := by
  unfold FastNode.stringFault
  cases node.str with
  | none => simp
  | some str => simp [FastString.fault_eq_none]

end

/-! ### Keys -/

def DistinctKeys.keys : DistinctKeys → List Bytes
  | .inline keys => keys
  | .heap keys => keys

theorem DistinctKeys.keys_insert (d : DistinctKeys) (key : Bytes) :
    (d.insert key).keys = if key ∈ d.keys then d.keys else d.keys ++ [key] := by
  cases d with
  | inline keys =>
    show (DistinctKeys.insert (.inline keys) key).keys = if key ∈ keys then keys else keys ++ [key]
    rw [DistinctKeys.insert]
    by_cases hmem : key ∈ keys
    · rw [if_pos hmem, if_pos hmem]
      rfl
    · rw [if_neg hmem, if_neg hmem]
      split <;> rfl
  | heap keys =>
    show (DistinctKeys.insert (.heap keys) key).keys = if key ∈ keys then keys else keys ++ [key]
    rw [DistinctKeys.insert]
    by_cases hmem : key ∈ keys
    · rw [if_pos hmem, if_pos hmem]
      rfl
    · rw [if_neg hmem, if_neg hmem]
      rfl

theorem DistinctKeys.len_eq (d : DistinctKeys) : d.len = d.keys.length := by cases d <;> rfl

/-- **The distinct-key tracker is exact**, inline and on the heap: it holds every key once. -/
theorem DistinctKeys.foldl_insert (keys : List Bytes) :
    (keys.foldl DistinctKeys.insert .new).len = keys.dedup.length := by
  -- The tracked keys stay distinct, and are the ones seen so far.
  have inv : ∀ (keys : List Bytes) (d : DistinctKeys), d.keys.Nodup →
      (keys.foldl DistinctKeys.insert d).keys.Nodup ∧
        ∀ k, k ∈ (keys.foldl DistinctKeys.insert d).keys ↔ k ∈ d.keys ∨ k ∈ keys := by
    intro keys
    induction keys with
    | nil => intro d hd; simpa using hd
    | cons key keys ih =>
      intro d hd
      have hstep : (d.insert key).keys.Nodup ∧ ∀ k, k ∈ (d.insert key).keys ↔ k ∈ d.keys ∨ k = key := by
        rw [DistinctKeys.keys_insert]
        split
        · next hmem =>
          refine ⟨hd, fun k => ⟨.inl, ?_⟩⟩
          rintro (hk | rfl)
          · exact hk
          · exact hmem
        · next hmem =>
          refine ⟨List.nodup_append.mpr ⟨hd, by simp, ?_⟩, by simp⟩
          intro a ha b hb heq
          rw [List.mem_singleton.mp hb] at heq
          exact hmem (heq ▸ ha)
      obtain ⟨hnd, hmem⟩ := ih (d.insert key) hstep.1
      refine ⟨hnd, fun k => ?_⟩
      rw [List.foldl_cons, hmem, hstep.2, List.mem_cons]
      tauto
  obtain ⟨hnd, hmem⟩ := inv keys .new List.nodup_nil
  rw [DistinctKeys.len_eq]
  refine List.Perm.length_eq ((List.perm_ext_iff_of_nodup hnd (List.nodup_dedup keys)).mpr ?_)
  intro k
  rw [hmem, List.mem_dedup]
  simp [DistinctKeys.new, DistinctKeys.keys]

section

variable {S : Oracles} {Re N : Type}

/-- The state after noting `keys`. -/
def FastObject.notes (o : FastObject Re N) (st : ObjState) (keys : List Bytes) : ObjState :=
  keys.foldl o.note st

theorem FastObject.notes_distinct (o : FastObject Re N) (st : ObjState) (keys : List Bytes) :
    (o.notes st keys).distinct = st.distinct.map (fun d => keys.foldl DistinctKeys.insert d) := by
  induction keys generalizing st with
  | nil => simp [FastObject.notes]
  | cons key keys ih =>
    rw [FastObject.notes, List.foldl_cons, ← FastObject.notes, ih]
    simp only [FastObject.note, Option.map_map]
    rfl

theorem FastObject.notes_present (o : FastObject Re N) (st : ObjState) (keys : List Bytes) :
    (o.notes st keys).present = st.present.map (· ++ keys) := by
  induction keys generalizing st with
  | nil => simp [FastObject.notes]
  | cons key keys ih =>
    rw [FastObject.notes, List.foldl_cons, ← FastObject.notes, ih]
    simp only [FastObject.note, Option.map_map]
    congr 1
    funext ks
    simp

theorem FastObject.notes_setOk (o : FastObject Re N) (st : ObjState) (b : Bool)
    (keys : List Bytes) :
    o.notes { st with objOk := b } keys = { o.notes st keys with objOk := b } := by
  induction keys generalizing st with
  | nil => rfl
  | cons key keys ih =>
    simp only [FastObject.notes, List.foldl_cons] at ih ⊢
    exact ih (o.note st key)

/-- Bit `i` of the mask says that required key `i` was noted. -/
theorem FastObject.notes_seenRequired (o : FastObject Re N) (st : ObjState) (keys : List Bytes)
    (i : Nat) : (o.notes st keys).seenRequired.testBit i = true ↔
      st.seenRequired.testBit i = true ∨ ∃ k ∈ keys, o.required.keys.idxOf? k = some i := by
  induction keys generalizing st with
  | nil => simp [FastObject.notes]
  | cons key keys ih =>
    rw [FastObject.notes, List.foldl_cons, ← FastObject.notes, ih]
    have hnote : (o.note st key).seenRequired.testBit i = true ↔
        st.seenRequired.testBit i = true ∨ o.required.keys.idxOf? key = some i := by
      simp only [FastObject.note]
      cases hidx : o.required.keys.idxOf? key with
      | none => simp
      | some bit =>
        simp only [Nat.testBit_or, Nat.one_shiftLeft, Nat.testBit_two_pow, Bool.or_eq_true,
          decide_eq_true_eq, Option.some.injEq]
    rw [hnote]
    simp only [List.mem_cons, exists_eq_or_imp, or_assoc]

/-- **The required mask is full exactly when every required key was noted.** -/
theorem FastObject.requiredFault_eq_none (o : FastObject Re N) (lossy : Bytes → String)
    (keys : List Bytes) :
    o.requiredFault lossy (o.notes o.init keys).seenRequired = none ↔
      ∀ k ∈ o.required.keys, k ∈ keys := by
  have hbit : ∀ i, (o.notes o.init keys).seenRequired.testBit i = true ↔
      ∃ k ∈ keys, o.required.keys.idxOf? k = some i := by
    intro i
    rw [o.notes_seenRequired]
    simp [FastObject.init]
  have hfull : (o.notes o.init keys).seenRequired = 2 ^ o.required.keys.length - 1 ↔
      ∀ k ∈ o.required.keys, k ∈ keys := by
    constructor
    · intro heq k hk
      obtain ⟨i, hi, rfl⟩ := List.getElem_of_mem hk
      have := (hbit i).mp (by rw [heq, Nat.testBit_two_pow_sub_one]; simpa using hi)
      obtain ⟨k, hk, hidx⟩ := this
      obtain ⟨hlt, hki, -⟩ := List.idxOf?_eq_some_iff.mp hidx
      have hki : o.required.keys[i] = k := by simpa using hki
      rw [hki]
      exact hk
    · -- bit by bit: the key at its index is the one that sets it, since no key is required twice
      intro hall
      refine Nat.eq_of_testBit_eq fun i => Bool.eq_iff_iff.mpr ?_
      rw [hbit, Nat.testBit_two_pow_sub_one, decide_eq_true_eq]
      constructor
      · rintro ⟨k, -, hidx⟩
        exact (List.idxOf?_eq_some_iff.mp hidx).1
      · intro hi
        refine ⟨o.required.keys[i], hall _ (List.getElem_mem hi), ?_⟩
        refine List.idxOf?_eq_some_iff.mpr ⟨hi, by simp, ?_⟩
        intro j hj heq
        have := (List.Nodup.getElem_inj_iff o.required.nodup).mp (by simpa using heq)
        omega
  simp only [FastObject.requiredFault]
  split
  · next h => simpa [hfull] using h.2
  · next h =>
    simp only [true_iff]
    intro k hk
    have hpos := List.length_pos_of_mem hk
    exact hfull.mp (by simpa [hpos] using h) k hk

theorem dependencyFault_eq_none {lossy : Bytes → String} {keys : List Bytes}
    {d : Bytes × List Bytes} :
    dependencyFault lossy keys d = none ↔ (d.1 ∈ keys → ∀ r ∈ d.2, r ∈ keys) := by
  unfold dependencyFault
  split
  · next h => simp [h]
  · next h => simp [h]

/-- **`finish_object` decides the keywords on the keys.** -/
theorem FastObject.fault_eq_none (o : FastObject S.Regex (FastNode S.Regex))
    (lossy : Bytes → String) (keys : List Bytes) :
    o.fault lossy (o.notes o.init keys) = none ↔ KeysHold S o keys := by
  have hpresent : ((o.notes o.init keys).present.bind fun present =>
      o.dependentRequired.findSome? (dependencyFault lossy present)) = none ↔
        ∀ d ∈ o.dependentRequired, d.1 ∈ keys → ∀ r ∈ d.2, r ∈ keys := by
    rw [o.notes_present]
    simp only [FastObject.init]
    cases hdeps : o.dependentRequired with
    | nil => simp
    | cons d ds =>
      simp only [List.isEmpty_cons, Bool.false_eq_true, if_false, Option.map_some, List.nil_append,
        Option.bind_some, List.findSome?_eq_none_iff, dependencyFault_eq_none]
  -- the number of properties is only asked for when it is tracked
  have htotal : (o.minProps.isSome || o.maxProps.isSome) = true →
      (((o.notes o.init keys).distinct.map DistinctKeys.len).getD (o.notes o.init keys).count) =
        keys.dedup.length := by
    intro h
    rw [o.notes_distinct]
    simp only [FastObject.init, h, if_true, Option.map_some, Option.getD_some]
    exact DistinctKeys.foldl_insert keys
  simp only [FastObject.fault, fault_orElse, failWhen_eq_none,
    o.requiredFault_eq_none, hpresent, decide_eq_false_iff_not, not_lt, KeysHold]
  refine and_congr (forall₂_congr fun n hn => ?_) (and_congr (forall₂_congr fun n hn => ?_) Iff.rfl)
  · rw [htotal (by rw [Option.mem_def.mp hn]; simp)]
  · rw [htotal (by rw [Option.mem_def.mp hn]; simp)]

theorem FastArray.countFault_eq_none (a : FastArray N) (count : Nat) :
    a.countFault count = none ↔ (∀ n ∈ a.minItems, n ≤ count) ∧ ∀ n ∈ a.maxItems, count ≤ n := by
  simp only [FastArray.countFault, fault_orElse, failWhen_eq_none,
    decide_eq_false_iff_not, not_lt]

theorem FastArray.overflow_eq_none (a : FastArray N) (count : Nat) :
    a.overflow count = none ↔ ∀ n ∈ a.maxItems, count ≤ n := by
  simp only [FastArray.overflow, failWhen_eq_none, decide_eq_false_iff_not, not_lt]

theorem FastArray.fault_eq_none (a : FastArray N) (st : ArrState) :
    a.fault st = none ↔ ((∀ n ∈ a.minItems, n ≤ st.count) ∧ ∀ n ∈ a.maxItems, st.count ≤ n) ∧
      (a.contains.isSome = true → st.containsFound = true) := by
  simp only [FastArray.fault, fault_orElse,
    FastArray.countFault_eq_none]
  refine and_congr_right fun _ => ?_
  cases a.contains <;> cases st.containsFound <;> simp

end

end Castrum
