import Castrum.FastSchema.Verdict

/-!
# Castrum — judging a text: sub-walks and combinators

Over a text of `v`, a walk decides a predicate and stops right behind the text (`Judges`). The
depth cap is the one thing in the way: `FitsIn n node v` says that the walk of `node` over `v`
needs at most `n` levels, and `Guarded n node v` asks this only where a failure can turn into a
pass: of the negated sub-walks whose schema is met.

* `Applies`, `Probes` — the sub-schemas walked over the parts of `v`, loudly and suppressed;
* `Children` — what the walk of one node assumes of its sub-walks;
* `validateCombRaw_verdict` — the combinators, from their branches.
-/

namespace Castrum

open Ascii

open Cursor (Eats Ends)

/-! ## What is walked over what

The sub-walks of a node, by what their failure does: it fails the node, it is probed, or it is
negated. -/

section

variable {S : Oracles} (Sat : FastNode S.Regex → Json → Prop)

/-- `sub` is walked over the part `w` of `v`, and its failure is a failure of the node. -/
inductive Applies : FastNode S.Regex → Json → FastNode S.Regex → Json → Prop where
  | prop {node sub o ms m} : node.obj = some o → m ∈ ms → o.prop? (textOf m.1) = some sub →
      Applies node (.obj ms) sub m.2
  | pattern {node o ms m p} : node.obj = some o → m ∈ ms → p ∈ o.patterns →
      covers S (textOf m.1) p.1 = true → Applies node (.obj ms) p.2 m.2
  | additional {node sub o ms m} : node.obj = some o → m ∈ ms → o.prop? (textOf m.1) = none →
      (∀ p ∈ o.patterns, covers S (textOf m.1) p.1 = false) → o.additional = .schema sub →
      Applies node (.obj ms) sub m.2
  | element {node sub a items i w} : node.arr = some a → items[i]? = some w →
      a.schemaAt S i = .schema sub → Applies node (.arr items) sub w
  | allOf {node sub c v} : node.comb = some c → sub ∈ c.allOf → Applies node v sub v
  | thenNode {node sub c i e v} : node.comb = some c → c.ifThenElse = some (i, some sub, e) →
      Sat i v → Applies node v sub v
  | elseNode {node sub c i t v} : node.comb = some c → c.ifThenElse = some (i, t, some sub) →
      ¬ Sat i v → Applies node v sub v

/-- `sub` is walked over the part `w` of `v` with recording suppressed. `anyOf` stops at the first
branch that passes and `contains` at the first element. -/
inductive Probes : FastNode S.Regex → Json → FastNode S.Regex → Json → Prop where
  | contains {node sub a pre w post} : node.arr = some a → a.contains = some sub →
      (∀ x ∈ pre, ¬ Sat sub x) → Probes node (.arr (pre ++ w :: post)) sub w
  | anyOf {node sub c pre post v} : node.comb = some c → c.anyOf = pre ++ sub :: post →
      (∀ p ∈ pre, ¬ Sat p v) → Probes node v sub v
  | oneOf {node sub c v} : node.comb = some c → sub ∈ c.oneOf → Probes node v sub v
  | not {node sub c v} : node.comb = some c → c.not = some sub → Probes node v sub v
  | ifNode {node sub c t e v} : node.comb = some c → c.ifThenElse = some (sub, t, e) →
      Probes node v sub v

/-- `sub` is walked suppressed over the value of `node` itself, and its failure can make the node
pass. -/
inductive Negates (node sub : FastNode S.Regex) : Prop where
  | oneOf {c} : node.comb = some c → sub ∈ c.oneOf → Negates node sub
  | not {c} : node.comb = some c → c.not = some sub → Negates node sub
  | ifNode {c t e} : node.comb = some c → c.ifThenElse = some (sub, t, e) → Negates node sub

theorem Negates.probes {node sub : FastNode S.Regex} (h : Negates node sub) (v : Json) :
    Probes Sat node v sub v := by
  cases h with
  | oneOf hc h => exact .oneOf hc h
  | not hc h => exact .not hc h
  | ifNode hc h => exact .ifNode hc h

/-- The walk of `node` over `v` stays within `n` levels. -/
def FitsIn : Nat → FastNode S.Regex → Json → Prop
  | 0 => fun _ _ => False
  | n + 1 => fun node v => v.height ≤ n ∧
      (∀ sub w, Applies Sat node v sub w → FitsIn n sub w) ∧
      ∀ sub w, Probes Sat node v sub w → FitsIn n sub w

/-- A walk with `n` levels surely passes: it stays within them, and the node holds. -/
def Surely (n : Nat) (node : FastNode S.Regex) (v : Json) : Prop := FitsIn Sat n node v ∧ Sat node v

/-- Wherever the walk of `node` over `v` negates a sub-walk of a schema that is met, this one stays
within the levels that are left of `n`. -/
def Guarded : Nat → FastNode S.Regex → Json → Prop
  | 0 => fun _ _ => True
  | n + 1 => fun node v => (∀ sub w, Applies Sat node v sub w → Guarded n sub w) ∧
      (∀ sub w, Probes (Surely Sat n) node v sub w → Guarded n sub w) ∧
      ∀ sub, Negates node sub → Sat sub v → FitsIn Sat n sub v

end

/-! ## Judging a text -/

/-- Started on a text of `v` at depth `d`, `f` decides `A` and consumes the text. -/
def Judges (F : Prop) (d : Nat) (f : Cursor → Ctx → Walk) (v : Json) (A : Prop) : Prop :=
  ∀ c ctx s t, IsText v s → Ends v s t → c.rest = s ++ t → ctx.depth = d →
    (F ∨ ctx.errors = none) →
    ((f c ctx).ok = true → Eats c s (f c ctx).c) ∧ Verdict F A ctx ((f c ctx).ok, (f c ctx).ctx)

theorem Judges.congr {F A B : Prop} {d : Nat} {f : Cursor → Ctx → Walk} {v : Json}
    (h : Judges F d f v A) (hAB : A ↔ B) : Judges F d f v B := by
  intro c ctx s t hs ht hc hd hm
  obtain ⟨he, hv⟩ := h c ctx s t hs ht hc hd hm
  exact ⟨he, hv.congr hAB⟩

/-- The mode of a walk is the same after a part of it has passed. -/
theorem mode_of_errors {F : Prop} {ctx ctx' : Ctx} (h : F ∨ ctx.errors = none)
    (he : ctx'.errors = ctx.errors) : F ∨ ctx'.errors = none :=
  h.imp_right fun hn => he.trans hn

theorem skipWalk_judges {F : Prop} {d : Nat} {v : Json} (hfits : F → d + v.height ≤ maxDepth) :
    Judges F d skipWalk v True := by
  intro c ctx s t hs ht hc hd _
  refine ⟨fun hok => ?_, ?_⟩
  · exact Cursor.skipValue_of_text (Prod.ext hok rfl) hs ht hc
  · refine Verdict.of_iff (fun _ => trivial) (fun hF _ => ?_) fun hF hfalse => ?_
    all_goals
      obtain ⟨c', hrun, -⟩ := Cursor.skipValue_at (c := c) (hfits hF) hs ht hc
      rw [← hd] at hrun
    · show (c.skipValue ctx.depth).1 = true
      rw [hrun]
    · change (c.skipValue ctx.depth).1 = false at hfalse
      rw [hrun] at hfalse
      exact absurd hfalse (by simp)

section

variable {S : Oracles} {walk : FastNode S.Regex → Cursor → Ctx → Walk} {F : Prop} {d : Nat}
variable {Sat C : FastNode S.Regex → Json → Prop}

/-- A sub-schema over the slice of a value. -/
theorem onRaw_verdict {sub : FastNode S.Regex} {v : Json} {A : Prop} {s : Bytes} (ptr : Nat)
    {ctx : Ctx} (h : Judges F d (walk sub) v A) (hs : IsText v s) (hd : ctx.depth = d)
    (hm : F ∨ ctx.errors = none) :
    Verdict F A ctx (onRaw S walk sub (Cursor.new s ptr) ctx) :=
  (h (Cursor.new s ptr) ctx s [] hs (.inl Stops.nil) (by simp) hd hm).2

/-- Over a text of `v` at depth `d`, the suppressed walk of `sub` decides `A`, surely under `C`. -/
def Probing (walk : FastNode S.Regex → Cursor → Ctx → Walk) (F C : Prop) (d : Nat)
    (sub : FastNode S.Regex) (v : Json) (A : Prop) : Prop :=
  ∀ s ptr (ctx : Ctx), IsText v s → ctx.depth = d → (F ∨ ctx.errors = none) →
    Decision C A ctx (probe S walk (Cursor.new s ptr) sub ctx)

theorem Judges.probing {sub : FastNode S.Regex} {v : Json} {A C : Prop}
    (h : Judges True d (walk sub) v A) (hC : C → A) : Probing walk F C d sub v A := by
  intro s ptr ctx hs hd _
  have hdec := Verdict.withSuppressed (onRaw_verdict ptr h hs
    (show ({ ctx with suppress := true } : Ctx).depth = d from hd) (.inl trivial))
  exact ⟨hdec.sound, fun hc => hdec.complete (hC hc), hdec.same, hdec.errors⟩

/-! ## Combinators -/

variable {v : Json} {s : Bytes} (hs : IsText v s) (ptr : Nat)

include hs

theorem walkAll_verdict {subs : List (FastNode S.Regex)} {ctx : Ctx}
    (h : ∀ sub ∈ subs, Judges F d (walk sub) v (Sat sub v)) (hd : ctx.depth = d)
    (hm : F ∨ ctx.errors = none) :
    Verdict F (∀ sub ∈ subs, Sat sub v) ctx (walkAll S walk (Cursor.new s ptr) subs ctx) := by
  induction subs generalizing ctx with
  | nil => exact .pass (by simp)
  | cons sub subs ih =>
    have hsub := onRaw_verdict ptr (h sub (by simp)) hs hd hm
    have hall := Verdict.andThen (f := onRaw S walk sub (Cursor.new s ptr))
      (g := walkAll S walk (Cursor.new s ptr) subs) hsub fun ctx' _ hsame herr =>
        ih (fun x hx => h x (List.mem_cons_of_mem _ hx)) (hsame.depth.trans hd)
          (mode_of_errors hm herr)
    exact hall.congr (by simp only [List.mem_cons, forall_eq_or_imp])

/-- `anyOf` decides whether a branch passes. The branches tried are those behind failing ones. -/
theorem probeAny_decision {subs : List (FastNode S.Regex)} {ctx : Ctx}
    (h : ∀ pre sub post, subs = pre ++ sub :: post → (∀ p ∈ pre, ¬ C p v) →
      Probing walk F (C sub v) d sub v (Sat sub v)) (hd : ctx.depth = d)
    (hm : F ∨ ctx.errors = none) :
    Decision (∃ sub ∈ subs, C sub v) (∃ sub ∈ subs, Sat sub v) ctx
      (probeAny S walk (Cursor.new s ptr) subs ctx) := by
  induction subs generalizing ctx with
  | nil => exact ⟨by simp [probeAny], by simp, .refl ctx, rfl⟩
  | cons sub subs ih =>
    have hsub := h [] sub subs rfl (by simp) s ptr ctx hs hd hm
    rw [probeAny]
    rcases hp : probe S walk (Cursor.new s ptr) sub ctx with ⟨_ | _, ctx'⟩
    · rw [hp] at hsub
      have hno : ¬ C sub v := fun hsure => absurd (hsub.complete hsure) (by simp)
      have hrest := ih (fun pre x post heq hpre => h (sub :: pre) x post (by rw [heq]; rfl) (by
        intro p hp
        rcases List.mem_cons.mp hp with rfl | hp
        · exact hno
        · exact hpre p hp)) (hsub.same.depth.trans hd) (mode_of_errors hm hsub.errors)
      obtain ⟨hsound, hcomplete, hsame, herr⟩ := hrest.trans hsub.same hsub.errors
      refine ⟨fun hok => ?_, fun hsure => hcomplete (by simpa [hno] using hsure), hsame, herr⟩
      obtain ⟨x, hx, hsat⟩ := hsound hok
      exact ⟨x, List.mem_cons_of_mem _ hx, hsat⟩
    · rw [hp] at hsub
      exact ⟨fun _ => ⟨sub, by simp, hsub.sound rfl⟩, fun _ => rfl, hsub.same, hsub.errors⟩

/-- `oneOf` counts the branches that pass. -/
theorem probeCount_spec {subs : List (FastNode S.Regex)} {ctx : Ctx}
    (h : ∀ sub ∈ subs, Probing walk F (Sat sub v) d sub v (Sat sub v)) (hd : ctx.depth = d)
    (hm : F ∨ ctx.errors = none) :
    let r := probeCount S walk (Cursor.new s ptr) subs ctx
    (r.1 = 0 ↔ ∀ sub ∈ subs, ¬ Sat sub v) ∧ (r.1 = 1 ↔ ExactlyOne (Sat · v) subs) ∧
      ctx.Same r.2 ∧ r.2.errors = ctx.errors := by
  induction subs generalizing ctx with
  | nil => exact ⟨by simp [probeCount], by simp [probeCount, ExactlyOne], .refl ctx, rfl⟩
  | cons sub subs ih =>
    have hsub := h sub (by simp) s ptr ctx hs hd hm
    obtain ⟨h0, h1, hsame, herr⟩ := ih (fun x hx => h x (List.mem_cons_of_mem _ hx))
      (hsub.same.depth.trans hd) (mode_of_errors hm hsub.errors)
    simp only [probeCount, List.mem_cons, forall_eq_or_imp, ExactlyOne]
    refine ⟨?_, ?_, hsub.same.trans hsame, herr.trans hsub.errors⟩
    · rw [← h0]
      rcases hb : (probe S walk (Cursor.new s ptr) sub ctx).1 with _ | _
      · have hno : ¬ Sat sub v := fun hsat => absurd (hsub.iff.mpr hsat) (by rw [hb]; simp)
        simp [hno]
      · simp [hsub.iff.mp hb]
    · rw [← h0, ← h1]
      rcases hb : (probe S walk (Cursor.new s ptr) sub ctx).1 with _ | _
      · have hno : ¬ Sat sub v := fun hsat => absurd (hsub.iff.mpr hsat) (by rw [hb]; simp)
        simp [hno]
      · simp [hsub.iff.mp hb]

theorem combAnyOf_verdict {comb : FastComb (FastNode S.Regex)} {base : String} {ctx : Ctx}
    (hC : F → ∀ sub, Sat sub v → C sub v)
    (h : ∀ pre sub post, comb.anyOf = pre ++ sub :: post → (∀ p ∈ pre, ¬ C p v) →
      Probing walk F (C sub v) d sub v (Sat sub v)) (hd : ctx.depth = d)
    (hm : F ∨ ctx.errors = none) :
    Verdict F (comb.anyOf ≠ [] → ∃ sub ∈ comb.anyOf, Sat sub v) ctx
      (combAnyOf S walk comb base (Cursor.new s ptr) ctx) := by
  unfold combAnyOf
  split
  · next hempty => exact .pass fun hne => absurd (List.isEmpty_iff.mp hempty) hne
  · next hne =>
    have hdec := probeAny_decision hs ptr h hd hm
    have hne' : comb.anyOf ≠ [] := fun h => hne (List.isEmpty_iff.mpr h)
    refine hdec.report base _ (fun hfault _ => hdec.sound ?_) fun hF hany => ?_
    · by_contra hno
      rw [if_neg hno] at hfault
      cases hfault
    · obtain ⟨sub, hsub, hsat⟩ := hany hne'
      rw [if_pos (hdec.complete ⟨sub, hsub, hC hF sub hsat⟩)]

theorem combOneOf_verdict {comb : FastComb (FastNode S.Regex)} {base : String} {ctx : Ctx}
    (h : ∀ sub ∈ comb.oneOf, Probing walk F (Sat sub v) d sub v (Sat sub v)) (hd : ctx.depth = d)
    (hm : F ∨ ctx.errors = none) :
    Verdict F (comb.oneOf ≠ [] → ExactlyOne (Sat · v) comb.oneOf) ctx
      (combOneOf S walk comb base (Cursor.new s ptr) ctx) := by
  unfold combOneOf
  split
  · next hempty => exact .pass fun hne => absurd (List.isEmpty_iff.mp hempty) hne
  · next hne =>
    obtain ⟨-, h1, hsame, herr⟩ := probeCount_spec hs ptr h hd hm
    have hne' : comb.oneOf ≠ [] := fun h => hne (List.isEmpty_iff.mpr h)
    have hdec : Decision True True ctx (true, (probeCount S walk (Cursor.new s ptr) comb.oneOf ctx).2) :=
      ⟨by simp, by simp, hsame, herr⟩
    have hiff : ∀ {fault : Fault}, (if (probeCount S walk (Cursor.new s ptr) comb.oneOf ctx).1 = 1
        then none else some fault) = none ↔ (comb.oneOf ≠ [] → ExactlyOne (Sat · v) comb.oneOf) := by
      intro fault
      simp only [hne', ne_eq, not_false_eq_true, forall_const, ← h1]
      split
      · next hok => simp [hok]
      · next hok => simp [hok]
    exact hdec.report base _ hiff.mp fun _ => hiff.mpr

theorem combNot_verdict {comb : FastComb (FastNode S.Regex)} {base : String} {ctx : Ctx}
    (h : ∀ sub ∈ comb.not, Probing walk F (Sat sub v) d sub v (Sat sub v)) (hd : ctx.depth = d)
    (hm : F ∨ ctx.errors = none) :
    Verdict F (∀ sub ∈ comb.not, ¬ Sat sub v) ctx
      (combNot S walk comb base (Cursor.new s ptr) ctx) := by
  unfold combNot
  split
  · next hnone => exact .pass (by simp [hnone])
  · next sub hsome =>
    have hdec := h sub hsome s ptr ctx hs hd hm
    have hiff : ∀ {fault : Fault}, (if (probe S walk (Cursor.new s ptr) sub ctx).1 then some fault
        else none) = none ↔ ∀ sub ∈ comb.not, ¬ Sat sub v := by
      intro fault
      simp only [hsome, Option.mem_def, Option.some.injEq, forall_eq', ← hdec.iff]
      split
      · next hok => simp [hok]
      · next hok => simp [hok]
    exact hdec.report base _ hiff.mp fun _ => hiff.mpr

theorem combIf_verdict {comb : FastComb (FastNode S.Regex)} {ctx : Ctx}
    (hif : ∀ i t e, comb.ifThenElse = some (i, t, e) → Probing walk F (Sat i v) d i v (Sat i v))
    (hthen : ∀ i t e, comb.ifThenElse = some (i, some t, e) → Sat i v →
      Judges F d (walk t) v (Sat t v))
    (helse : ∀ i t e, comb.ifThenElse = some (i, t, some e) → ¬ Sat i v →
      Judges F d (walk e) v (Sat e v)) (hd : ctx.depth = d) (hm : F ∨ ctx.errors = none) :
    Verdict F (∀ i t e, comb.ifThenElse = some (i, t, e) →
        (Sat i v → ∀ sub ∈ t, Sat sub v) ∧ (¬ Sat i v → ∀ sub ∈ e, Sat sub v)) ctx
      (combIf S walk comb (Cursor.new s ptr) ctx) := by
  unfold combIf
  split
  · next hnone => exact .pass (by simp [hnone])
  · next i t e hsome =>
    have hdec := hif i t e hsome s ptr ctx hs hd hm
    have hd' := hdec.same.depth.trans hd
    have hm' := mode_of_errors hm hdec.errors
    simp only [hsome, Option.some.injEq, Prod.mk.injEq]
    -- the guard decides which branch is walked, and a branch that is missing passes
    rcases hok : (probe S walk (Cursor.new s ptr) i ctx).1 with _ | _
    · have hno : ¬ Sat i v := fun hsat => absurd (hdec.iff.mpr hsat) (by rw [hok]; simp)
      cases e with
      | none => exact hdec.before (.pass (by rintro i t e ⟨rfl, rfl, rfl⟩; simp [hno]))
      | some e =>
        refine hdec.before ((onRaw_verdict ptr (helse i t e hsome hno) hs hd' hm').congr ?_)
        constructor
        · rintro hsat i' t' e' ⟨rfl, rfl, rfl⟩
          simpa [hno] using hsat
        · intro hall
          exact (hall i t (some e) ⟨rfl, rfl, rfl⟩).2 hno e rfl
    · have hyes : Sat i v := hdec.iff.mp hok
      cases t with
      | none => exact hdec.before (.pass (by rintro i t e ⟨rfl, rfl, rfl⟩; simp [hyes]))
      | some t =>
        refine hdec.before ((onRaw_verdict ptr (hthen i t e hsome hyes) hs hd' hm').congr ?_)
        constructor
        · rintro hsat i' t' e' ⟨rfl, rfl, rfl⟩
          simpa [hyes] using hsat
        · intro hall
          exact (hall i (some t) e ⟨rfl, rfl, rfl⟩).1 hyes t rfl

end

/-! ## One level -/

/-- What the walk of a node over `v` may assume of its sub-walks, at depth `d`. -/
structure Children {S : Oracles} (Sat C : FastNode S.Regex → Json → Prop)
    (walk : FastNode S.Regex → Cursor → Ctx → Walk) (F : Prop) (d : Nat)
    (node : FastNode S.Regex) (v : Json) : Prop where
  fits : F → d + v.height ≤ maxDepth
  surely : F → ∀ sub w, Sat sub w → C sub w
  loud : ∀ sub w, Applies Sat node v sub w → Judges F d (walk sub) w (Sat sub w)
  probed : ∀ sub w, Probes C node v sub w → Probing walk F (C sub w) d sub w (Sat sub w)
  negated : ∀ sub, Negates node sub → Probing walk F (Sat sub v) d sub v (Sat sub v)

section

variable {S : Oracles} {walk : FastNode S.Regex → Cursor → Ctx → Walk} {F : Prop} {d : Nat}
variable {Sat C : FastNode S.Regex → Json → Prop} {node : FastNode S.Regex}

theorem validateCombRaw_verdict {v : Json} (hch : Children Sat C walk F d node v) {s : Bytes}
    (hs : IsText v s) (ptr : Nat) {ctx : Ctx} (hd : ctx.depth = d) (hm : F ∨ ctx.errors = none) :
    Verdict F (∀ comb ∈ node.comb, CombHolds S Sat comb v) ctx
      (validateCombRaw S walk node (Cursor.new s ptr) ctx) := by
  unfold validateCombRaw
  split
  · next hnone => exact .pass (by simp [hnone])
  · next comb hc =>
    simp only [hc, Option.mem_def, Option.some.injEq, forall_eq']
    -- The five combinators run in the order of the source; each stage starts from what the one
    -- before kept of the depth and of the mode.
    refine Verdict.andThen
      (walkAll_verdict hs ptr (fun sub hsub => hch.loud sub v (.allOf hc hsub)) hd hm) ?_
    intro ctx₁ _ hsame₁ herr₁
    have hd₁ := hsame₁.depth.trans hd
    have hm₁ := mode_of_errors hm herr₁
    refine Verdict.andThen (combAnyOf_verdict hs ptr (fun hF sub => hch.surely hF sub v)
      (fun pre sub post heq hpre => hch.probed sub v (.anyOf hc heq hpre)) hd₁ hm₁) ?_
    intro ctx₂ _ hsame₂ herr₂
    have hd₂ := hsame₂.depth.trans hd₁
    have hm₂ := mode_of_errors hm₁ herr₂
    refine Verdict.andThen (combOneOf_verdict hs ptr
      (fun sub hsub => hch.negated sub (.oneOf hc hsub)) hd₂ hm₂) ?_
    intro ctx₃ _ hsame₃ herr₃
    have hd₃ := hsame₃.depth.trans hd₂
    have hm₃ := mode_of_errors hm₂ herr₃
    refine Verdict.andThen (combNot_verdict hs ptr
      (fun sub hsub => hch.negated sub (.not hc hsub)) hd₃ hm₃) ?_
    intro ctx₄ _ hsame₄ herr₄
    exact combIf_verdict hs ptr (fun i t e heq => hch.negated i (.ifNode hc heq))
      (fun i t e heq hi => hch.loud t v (.thenNode hc heq hi))
      (fun i t e heq hi => hch.loud e v (.elseNode hc heq hi)) (hsame₄.depth.trans hd₃)
      (mode_of_errors hm₃ herr₄)

end

/-! ## Patterns -/

/-- Whether a pattern has matched is known without the walks, if they pass. -/
theorem walkPatterns_matched {S : Oracles} (walk : FastNode S.Regex → Cursor → Ctx → Walk)
    (key : Bytes) (raw : Cursor) (patterns : List (S.Regex × FastNode S.Regex)) (ctx : Ctx)
    (hok : (walkPatterns S walk key raw patterns ctx).2.1 = true) :
    (walkPatterns S walk key raw patterns ctx).1 = false ↔
      ∀ p ∈ patterns, covers S key p.1 = false := by
  induction patterns generalizing ctx with
  | nil => simp [walkPatterns]
  | cons p patterns ih =>
    obtain ⟨re, sub⟩ := p
    rw [walkPatterns] at hok ⊢
    by_cases hcov : covers S key re = true
    · rw [if_pos hcov] at hok ⊢
      rcases hrun : onRaw S walk sub raw ctx with ⟨_ | _, ctx'⟩
      · rw [hrun] at hok
        cases hok
      · simp [hcov]
    · rw [if_neg hcov] at hok ⊢
      rw [ih ctx hok]
      simp [hcov]

end Castrum
