import Castrum.FastSchema.Loops
import Castrum.FastSchema.Twin

/-!
# Castrum — the walk decides the meaning of a node

One level of the walk from its sub-walks, and the walk itself by induction on the levels left
below the cap.

* `validateKind_judges`, `validateInner_judges` — one level;
* `validateLevels_spec` — within `n` levels of the cap, a walk that fits passes exactly when
  `SatNode` holds; one whose negated sub-walks are guarded passes only then.
-/

namespace Castrum

open Ascii

open Cursor (Eats Ends)

/-! ## First bytes -/

/-- The first byte of a text announces its kind. -/
theorem kindOf_of_text {v : Json} {s r : Bytes} {b : UInt8} (hs : IsText v s) (hb : s = b :: r) :
    kindOf b = some v.kind := by
  have hv := (isText_iff v s).mp hs
  have hhead := Cursor.byHead_of_text hv hb (some Kind.object) (some .array) (some .string)
    (some .boolean) (some .boolean) (some .null)
    (if b = minus ∨ isDigit b = true then some .number else none)
  rw [kindOf, ite_or (b = 116) (b = 102), hhead]
  cases v with
  | num tok => exact if_pos (Cursor.number_head hv hb)
  | bool x => cases x <;> rfl
  | _ => rfl

theorem peek_of_text {c : Cursor} {v : Json} {s t : Bytes} (hs : IsText v s)
    (hc : c.rest = s ++ t) : ∃ b r, s = b :: r ∧ c.peek = some b := by
  obtain ⟨b, r, rfl, -⟩ := hs.starts
  exact ⟨b, r, rfl, by rw [Cursor.peek, hc]; rfl⟩

theorem typeFault_eq_none {Re : Type} (node : FastNode Re) {b : UInt8} {k : Kind}
    (hb : kindOf b = some k) :
    node.typeFault b = none ↔ node.types = 0 ∨ node.types &&& k.mask ≠ 0 := by
  unfold FastNode.typeFault
  split
  · next h => simp [h]
  · next h =>
    rw [hb]
    simp only [h, false_or]
    split
    · next hk => simp [hk]
    · next hk => simpa using hk

section

variable {S : Oracles} {walk : FastNode S.Regex → Cursor → Ctx → Walk} {F : Prop} {d : Nat}
variable {Sat C : FastNode S.Regex → Json → Prop} {node : FastNode S.Regex}
variable {dom : Json → Option Value}

/-! ## One level -/

/-- The integer part of `type`, which the number branch checks. -/
def IntegerHolds (S : Oracles) (node : FastNode S.Regex) (v : Json) : Prop :=
  ∀ tok, v = .num tok → node.integerOnly = true → (S.parseF64 tok).hasFract = false

theorem validateLiteral_judges (base : String) (v : Json) (tok : Bytes)
    (htok : ∀ s, IsText v s → s = tok) : Judges F d (validateLiteral base tok) v True := by
  intro c ctx s t hs ht hc hd hm
  obtain rfl := htok s hs
  simp only [validateLiteral, Cursor.eatToken_complete hc]
  exact ⟨fun _ => Eats.of_rest hc, .pass trivial⟩

/-- The branch that the first byte of a text selects. -/
theorem validateKind_eq {v : Json} {c : Cursor} {s t : Bytes} (hs : IsText v s) (hc : c.rest = s ++ t)
    (ctx : Ctx) : validateKind S walk node c ctx = v.byHead
      (match node.obj with
        | some o => validateObject S walk o node.base c ctx
        | none => skipWalk c ctx)
      (match node.arr with
        | some a => validateArray S walk a node.base c ctx
        | none => skipWalk c ctx)
      (match c.rawString with
        | (none, c) => ⟨false, c, ctx.record node.base "parse" "malformed string"⟩
        | (some inner, c) =>
          let r := ctx.report node.base (node.stringFault S inner)
          ⟨r.1, c, r.2⟩)
      (validateLiteral node.base trueTok c ctx) (validateLiteral node.base falseTok c ctx)
      (validateLiteral node.base nullTok c ctx)
      (match c.number with
        | (none, c) => ⟨false, c, ctx.record node.base "parse" "malformed number"⟩
        | (some (tok, _), c) =>
          let r := ctx.report node.base (node.numberFault S tok)
          ⟨r.1, c, r.2⟩) := by
  obtain ⟨b, r, hsb, hpeek⟩ := peek_of_text hs hc
  simp only [validateKind, hpeek]
  exact Cursor.byHead_of_text ((isText_iff v s).mp hs) hsb ..

/-- **The structural keywords**, one case for each kind of value. -/
theorem validateKind_judges (hS : S.Lawful) (hdom : ∀ v s, IsText v s → S.fromSlice s = dom v)
    {v : Json} (hch : Children Sat C walk F d node v) :
    Judges F d (validateKind S walk node) v
      (IntegerHolds S node v ∧ KindHolds S dom Sat node v) := by
  intro c ctx s t hs ht hc hd hm
  rw [validateKind_eq hs hc]
  -- only a number is asked to be an integer
  have hint : (∀ tok, v ≠ .num tok) → ∀ A, (A ↔ IntegerHolds S node v ∧ A) := by
    intro hne A
    exact (and_iff_right fun tok heq => absurd heq (hne tok)).symm
  cases v with
  | null =>
    exact (validateLiteral_judges node.base .null nullTok fun s hs => (isText_iff _ s).mp hs).congr
      (hint (by simp) _) c ctx s t hs ht hc hd hm
  | bool x =>
    cases x with
    | true =>
      exact (validateLiteral_judges node.base (.bool true) trueTok fun s hs =>
        (isText_iff _ s).mp hs).congr (hint (by simp) _) c ctx s t hs ht hc hd hm
    | false =>
      exact (validateLiteral_judges node.base (.bool false) falseTok fun s hs =>
        (isText_iff _ s).mp hs).congr (hint (by simp) _) c ctx s t hs ht hc hd hm
  | num tok =>
    obtain ⟨rfl, htok⟩ := (isText_iff _ _).mp hs
    obtain ⟨i, hnum⟩ := Cursor.number_complete hc htok ht
    rw [Json.byHead, hnum]
    refine ⟨fun _ => Eats.of_rest hc, (Verdict.of_report node.base (node.numberFault S s)).congr ?_⟩
    rw [FastNode.numberFault_eq_none hS]
    simp [IntegerHolds, KindHolds]
  | str raw =>
    obtain ⟨rfl, hraw⟩ := (isText_iff _ _).mp hs
    have hrun := Cursor.rawString_complete (c := c) (t := t) (by rw [hc]; simp) hraw
    rw [Json.byHead, hrun]
    refine ⟨fun _ => (Cursor.rawString_sound hrun).2,
      (Verdict.of_report node.base (node.stringFault S raw)).congr ?_⟩
    rw [FastNode.stringFault_eq_none]
    exact hint (by simp) _
  | arr items =>
    cases ha : node.arr with
    | none =>
      exact (skipWalk_judges hch.fits).congr
        ((by simp [KindHolds, ha] : True ↔ KindHolds S dom Sat node (.arr items)).trans
          (hint (by simp) _)) c ctx s t hs ht hc hd hm
    | some a =>
      exact (validateArray_judges node.base hdom hch ha).congr
        ((by simp [KindHolds, ha] : ArrayHolds S dom Sat a items ↔
          KindHolds S dom Sat node (.arr items)).trans (hint (by simp) _)) c ctx s t hs ht hc hd hm
  | obj ms =>
    cases ho : node.obj with
    | none =>
      exact (skipWalk_judges hch.fits).congr
        ((by simp [KindHolds, ho] : True ↔ KindHolds S dom Sat node (.obj ms)).trans
          (hint (by simp) _)) c ctx s t hs ht hc hd hm
    | some o =>
      exact (validateObject_judges node.base hch ho).congr
        ((by simp [KindHolds, ho] : ObjectHolds S Sat o ms ↔
          KindHolds S dom Sat node (.obj ms)).trans (hint (by simp) _)) c ctx s t hs ht hc hd hm

/-- What is left of a node when its kind of value is allowed and its value constraint passed. -/
def StructureHolds (S : Oracles) (dom : Json → Option Value)
    (Sat : FastNode S.Regex → Json → Prop) (node : FastNode S.Regex) (v : Json) : Prop :=
  (IntegerHolds S node v ∧ KindHolds S dom Sat node v) ∧
    ∀ comb ∈ node.comb, CombHolds S Sat comb v

theorem validateStructure_judges (hS : S.Lawful)
    (hdom : ∀ v s, IsText v s → S.fromSlice s = dom v) {v : Json}
    (hch : Children Sat C walk F d node v) :
    Judges F d (validateStructure S walk node) v (StructureHolds S dom Sat node v) := by
  intro c ctx s t hs ht hc hd hm
  obtain ⟨heats, hv⟩ := validateKind_judges hS hdom hch c ctx s t hs ht hc hd hm
  unfold validateStructure
  generalize validateKind S walk node c ctx = k at heats hv
  simp only
  cases hok : k.ok with
  | false =>
    rw [hok] at hv
    exact ⟨by simp, by simp, fun hF hall => hv.complete hF hall.1, hv.same, hv.quiet, hv.keep,
      hv.loud, hv.boolMode⟩
  | true =>
    rw [hok] at hv
    have hkEats := heats hok
    refine ⟨fun _ => hkEats, ?_⟩
    simp only [if_true, hkEats.slice_eq]
    have hcomb := validateCombRaw_verdict hch hs (c.ptr + c.pos)
      ((hv.same (.inl rfl)).depth.trans hd) (mode_of_errors hm (hv.quiet (.inl rfl)))
    exact hv.trans (hcomb.congr (and_iff_right (hv.sound rfl)).symm) (by simp)

theorem validateValue_judges (hS : S.Lawful)
    (hdom : ∀ v s, IsText v s → S.fromSlice s = dom v) {v : Json} (value : ValueConstraint)
    (hch : Children Sat C walk F d node v) :
    Judges F d (validateValue S walk value node) v
      ((∃ x, dom v = some x ∧ value.accepts x = true) ∧ StructureHolds S dom Sat node v) := by
  intro c ctx s t hs ht hc hd hm
  unfold validateValue
  rcases hrun : c.skipValue ctx.depth with ⟨_ | _, c'⟩
  · refine ⟨by simp, .of_record (fun hF _ => ?_) ..⟩
    obtain ⟨c₂, hrun', -⟩ := Cursor.skipValue_at (c := c) (hch.fits hF) hs ht hc
    rw [hd, hrun'] at hrun
    cases hrun
  · have heats : Eats c s c' := Cursor.skipValue_of_text hrun hs ht hc
    simp only [heats.slice_eq]
    have hparse : S.fromSlice (Cursor.new s (c.ptr + c.pos)).data = dom v := hdom v s hs
    rw [hparse]
    cases hx : dom v with
    | none => exact ⟨by simp, .of_record (by simp) ..⟩
    | some x =>
      simp only [Option.some.injEq, exists_eq_left']
      cases hacc : value.accepts x with
      | false => exact ⟨by simp, .of_record (by simp) ..⟩
      | true =>
        refine ⟨fun _ => heats, ?_⟩
        -- the value is re-walked from its own slice
        obtain ⟨-, hkind⟩ := validateKind_judges hS hdom hch (Cursor.new s (c.ptr + c.pos)) ctx s []
          hs (.inl Stops.nil) (by simp) hd hm
        have hboth := Verdict.andThen
          (f := fun ctx => ((validateKind S walk node (Cursor.new s (c.ptr + c.pos)) ctx).ok,
            (validateKind S walk node (Cursor.new s (c.ptr + c.pos)) ctx).ctx))
          (g := validateCombRaw S walk node (Cursor.new s (c.ptr + c.pos))) hkind
          fun ctx' _ hsame herr => validateCombRaw_verdict hch hs (c.ptr + c.pos)
            (hsame.depth.trans hd) (mode_of_errors hm herr)
        exact hboth.congr (by simp [StructureHolds])

/-- **One level of the walk**, with the whitespace in front of the value. -/
theorem validateInner_judges (hS : S.Lawful)
    (hdom : ∀ v s, IsText v s → S.fromSlice s = dom v) {v : Json}
    (hch : Children Sat C walk F d node v) {c : Cursor} (ctx : Ctx) {ws s t : Bytes} (hws : IsWs ws)
    (hs : IsText v s) (ht : Ends v s t) (hc : c.rest = ws ++ (s ++ t)) (hd : ctx.depth = d)
    (hm : F ∨ ctx.errors = none) :
    let r := validateInner S walk node c ctx
    (r.ok = true → Eats c (ws ++ s) r.c) ∧
      Verdict F (NodeHolds S dom Sat node v) ctx (r.ok, r.ctx) := by
  have hwsEats := Cursor.skipWs_complete hc hws (hs.starts.append _).head
  have hrest := hwsEats.rest_eq hc
  obtain ⟨b, r, hsb, hpeek⟩ := peek_of_text hs hrest
  have htype := typeFault_eq_none node (kindOf_of_text hs hsb)
  unfold validateInner
  cases hnever : node.never with
  | true => exact ⟨by simp, .of_record (by simp [NodeHolds, hnever]) ..⟩
  | false =>
    simp only [Bool.false_eq_true, if_false, hpeek]
    cases hfault : node.typeFault b with
    | some fault =>
      refine ⟨by simp, .of_record (fun _ hall => ?_) ..⟩
      have := htype.mpr hall.2.1.1
      rw [hfault] at this
      cases this
    | none =>
      have hallowed := htype.mp hfault
      have hnode : NodeHolds S dom Sat node v ↔
          ValueHolds S dom node v ∧ StructureHolds S dom Sat node v := by
        simp only [NodeHolds, TypeHolds, StructureHolds, hnever, hallowed, true_and, IntegerHolds]
        tauto
      -- Only the value keyword skips the structure: it is compared with the whole text.
      cases hval : node.value with
      | none =>
        obtain ⟨heats, hv⟩ := validateStructure_judges hS hdom hch c.skipWs ctx s t hs ht hrest hd hm
        refine ⟨fun hok => hwsEats.trans (heats hok), hv.congr ?_⟩
        rw [hnode]
        simp [ValueHolds, hval]
      | some value =>
        obtain ⟨heats, hv⟩ := validateValue_judges hS hdom value hch c.skipWs ctx s t hs ht
          hrest hd hm
        refine ⟨fun hok => hwsEats.trans (heats hok), hv.congr ?_⟩
        rw [hnode]
        simp [ValueHolds, hval]

end

/-! ## The walk

The children of a node by induction on the levels left, and with them the node. -/

section

variable {S : Oracles} {dom : Json → Option Value}

theorem Applies.sub {Sat : FastNode S.Regex → Json → Prop} {node sub : FastNode S.Regex} {v w : Json}
    (h : Applies Sat node v sub w) : node.Sub sub := by
  cases h with
  | prop ho _ h => exact .of_prop? ho h
  | pattern ho _ h => exact .pattern ho h
  | additional ho _ _ _ h => exact .additional ho h
  | element ha _ h => exact .of_schemaAt ha h
  | allOf hc h => exact .allOf hc h
  | thenNode hc h => exact .thenNode hc h
  | elseNode hc h => exact .elseNode hc h

theorem Probes.sub {Sat : FastNode S.Regex → Json → Prop} {node sub : FastNode S.Regex} {v w : Json}
    (h : Probes Sat node v sub w) : node.Sub sub := by
  cases h with
  | contains ha h => exact .contains ha h
  | anyOf hc h => exact .anyOf hc (by rw [h]; simp)
  | oneOf hc h => exact .oneOf hc h
  | not hc h => exact .not hc h
  | ifNode hc h => exact .ifNode hc h

/-- In bool mode a suppressed walk of a schema that nests within the levels left has no side effects,
whether it passes or not. -/
theorem probing_of_nests {F C A : Prop} {n d : Nat} {sub : FastNode S.Regex} {w : Json}
    (hnests : Nests n sub) (hd : d + n = maxDepth) (h : Judges False d (validateLevels S n sub) w A)
    (hF : ¬ F) (hC : ¬ C) : Probing (validateLevels S n) F C d sub w A := by
  intro s ptr ctx hs hdepth hm
  have hn : ctx.errors = none := hm.resolve_left hF
  have hverdict : Verdict False A _ (onRaw S (validateLevels S n) sub _ _) := onRaw_verdict ptr h hs
    (show ({ ctx with suppress := true } : Ctx).depth = d from hdepth) (.inr hn)
  obtain ⟨d', hdeep⟩ := (validateLevels_walks S n sub trivial (Cursor.new s ptr)
    { ctx with suppress := true } _ (Ctx.pair_plain hn)).twin.deep (.inl rfl)
  have hback := validateLevels_depth S hnests (Cursor.new s ptr)
    (show ({ ctx with suppress := true } : Ctx).depth + n = maxDepth by
      rw [← hd]
      exact congrArg (· + n) hdepth)
  dsimp only at hdeep hback
  rw [hdeep] at hback
  obtain rfl : d' = ctx.depth := hback
  have hctx : (probe S (validateLevels S n) (Cursor.new s ptr) sub ctx).2 = ctx := by
    show ({ (validateLevels S n sub (Cursor.new s ptr) { ctx with suppress := true }).ctx with
      suppress := ctx.suppress } : Ctx) = ctx
    rw [hdeep]
  exact ⟨hverdict.sound, fun hc => absurd hc hC, by rw [hctx]; exact .refl ctx, by rw [hctx]⟩

/-- **The walk within `n` levels of the cap.** Where the whole walk fits (`F`), it passes exactly when
the node holds. In bool mode it passes only then, provided that the schema nests no deeper and the
negated sub-walks are guarded. -/
theorem validateLevels_spec (hS : S.Lawful) (hdom : ∀ v s, IsText v s → S.fromSlice s = dom v)
    {F : Prop} {n : Nat} {node : FastNode S.Regex} {v : Json}
    (hF : (F ∧ FitsIn (SatNode S dom) n node v) ∨
      (¬ F ∧ Nests n node ∧ Guarded (SatNode S dom) n node v))
    {c : Cursor} {ctx : Ctx} {ws s t : Bytes} (hws : IsWs ws) (hs : IsText v s) (ht : Ends v s t)
    (hc : c.rest = ws ++ (s ++ t)) (hd : ctx.depth + n = maxDepth) (hm : F ∨ ctx.errors = none) :
    let r := validateLevels S n node c ctx
    (r.ok = true → Eats c (ws ++ s) r.c) ∧
      Verdict F (SatNode S dom node v) ctx (r.ok, r.ctx) := by
  induction n generalizing F node v c ctx ws s t with
  | zero => exact hF.elim (fun h => h.2.elim) fun h => h.2.1.elim
  | succ n ih =>
    have judges : ∀ {F : Prop} {sub : FastNode S.Regex} {w : Json},
        ((F ∧ FitsIn (SatNode S dom) n sub w) ∨
          (¬ F ∧ Nests n sub ∧ Guarded (SatNode S dom) n sub w)) →
        Judges F (ctx.depth + 1) (validateLevels S n sub) w (SatNode S dom sub w) := by
      intro F sub w h c' ctx' s' t' hs' ht' hc' hd' hm'
      exact ih h IsWs.nil hs' ht' hc' (by omega) hm'
    have hch : ∃ C, Children (SatNode S dom) C (validateLevels S n) F (ctx.depth + 1) node v := by
      rcases hF with ⟨hf, hheight, hloud, hprobed⟩ | ⟨hf, hnests, hloud, hprobed, hnegated⟩
      · refine ⟨SatNode S dom, fun _ => by omega, fun _ _ _ h => h, fun sub w h => ?_, fun sub w h => ?_,
          fun sub h => ?_⟩
        · exact judges (.inl ⟨hf, hloud sub w h⟩)
        · exact (judges (.inl ⟨trivial, hprobed sub w h⟩)).probing id
        · exact (judges (.inl ⟨trivial, hprobed sub v (h.probes _ v)⟩)).probing id
      · -- a probe that does not fit may be cut off, and is not relied on
        have probing : ∀ {C : Prop} {sub : FastNode S.Regex} {w : Json}, Nests n sub →
            Guarded (SatNode S dom) n sub w → (C → Surely (SatNode S dom) n sub w) →
            Probing (validateLevels S n) F C (ctx.depth + 1) sub w (SatNode S dom sub w) := by
          intro C sub w hn hg hC
          by_cases hfits : FitsIn (SatNode S dom) n sub w
          · exact (judges (.inl ⟨trivial, hfits⟩)).probing fun hc => (hC hc).2
          · exact probing_of_nests hn (by omega) (judges (.inr ⟨id, hn, hg⟩)) hf
              fun hc => hfits (hC hc).1
        refine ⟨Surely (SatNode S dom) n, fun h => absurd h hf, fun h => absurd h hf, fun sub w h => ?_,
          fun sub w h => ?_, fun sub h => ?_⟩
        · exact judges (.inr ⟨hf, hnests sub h.sub, hloud sub w h⟩)
        · exact probing (hnests sub h.sub) (hprobed sub w h) id
        · have hp := h.probes (Surely (SatNode S dom) n) v
          exact probing (hnests sub hp.sub) (hprobed sub v hp) fun hsat => ⟨hnegated sub h hsat, hsat⟩
    obtain ⟨C, hch⟩ := hch
    have hle : ctx.depth + 1 ≤ maxDepth := by omega
    obtain ⟨heats, hv⟩ := validateInner_judges hS hdom hch { ctx with depth := ctx.depth + 1 } hws hs
      ht hc rfl hm
    simp only [validateLevels, if_pos hle]
    refine ⟨heats, (hv.congr (satNode_iff node v).symm).bracket rfl rfl rfl rfl fun hsame => ?_⟩
    refine ⟨hsame.suppress, hsame.path, ?_, hsame.maxErrors, hsame.inputPtr, hsame.detailed⟩
    show (validateInner S (validateLevels S n) node c _).ctx.depth - 1 = ctx.depth
    rw [hsame.depth]
    rfl

end

end Castrum
