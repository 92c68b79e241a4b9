import Castrum.FastSchema.Judges

/-!
# Castrum — the member and element loops

The two loops of the walk over a text of an object or array. A loop carries a flag that a failed
member or element clears; in detailed mode it realigns behind the failed value and goes on.

* `member_judges` — one member: every schema that covers its key;
* `objectMembers_judges`, `arrayElements_judges` — the loops, by induction on their fuel;
* `validateObject_judges`, `validateArray_judges` — the containers.
-/

namespace Castrum

open Ascii

open Cursor (Eats Ends)

section

variable {S : Oracles} {walk : FastNode S.Regex → Cursor → Ctx → Walk} {F : Prop} {d : Nat}
variable {Sat C : FastNode S.Regex → Json → Prop} {node : FastNode S.Regex}

/-! ## Members -/

/-- The schemas of one member, as sub-walks of the object's node. -/
structure MemberChildren (Sat : FastNode S.Regex → Json → Prop)
    (walk : FastNode S.Regex → Cursor → Ctx → Walk) (F : Prop) (d : Nat)
    (o : FastObject S.Regex (FastNode S.Regex)) (key : Bytes) (w : Json) : Prop where
  fits : F → d + w.height ≤ maxDepth
  prop : ∀ sub, o.prop? key = some sub → Judges F d (walk sub) w (Sat sub w)
  pattern : ∀ p ∈ o.patterns, covers S key p.1 = true → Judges F d (walk p.2) w (Sat p.2 w)
  additional : ∀ sub, o.prop? key = none → (∀ p ∈ o.patterns, covers S key p.1 = false) →
    o.additional = .schema sub → Judges F d (walk sub) w (Sat sub w)

theorem Children.member {ms : List (Bytes × Json)} {o : FastObject S.Regex (FastNode S.Regex)}
    (hch : Children Sat C walk F d node (.obj ms)) (ho : node.obj = some o) {m : Bytes × Json}
    (hm : m ∈ ms) : MemberChildren Sat walk F d o (textOf m.1) m.2 where
  fits hF := by
    have h1 := hch.fits hF
    have h2 := height_lt_heightMembers hm
    rw [Json.height] at h1
    omega
  prop _ h := hch.loud _ _ (.prop ho hm h)
  pattern _ hp h := hch.loud _ _ (.pattern ho hm hp h)
  additional _ h1 h2 h3 := hch.loud _ _ (.additional ho hm h1 h2 h3)

variable {o : FastObject S.Regex (FastNode S.Regex)} {key : Bytes} {w : Json}

theorem walkPatterns_verdict {s : Bytes} (hs : IsText w s) (ptr : Nat)
    {patterns : List (S.Regex × FastNode S.Regex)} {ctx : Ctx}
    (h : ∀ p ∈ patterns, covers S key p.1 = true → Judges F d (walk p.2) w (Sat p.2 w))
    (hd : ctx.depth = d) (hm : F ∨ ctx.errors = none) :
    Verdict F (∀ p ∈ patterns, covers S key p.1 = true → Sat p.2 w) ctx
      (walkPatterns S walk key (Cursor.new s ptr) patterns ctx).2 := by
  induction patterns generalizing ctx with
  | nil => exact .pass (by simp)
  | cons p patterns ih =>
    obtain ⟨re, sub⟩ := p
    have htail : ∀ p ∈ patterns, covers S key p.1 = true → Judges F d (walk p.2) w (Sat p.2 w) :=
      fun p hp => h p (List.mem_cons_of_mem _ hp)
    simp only [walkPatterns, List.mem_cons, forall_eq_or_imp]
    split
    · next hcov =>
      have hsub := onRaw_verdict ptr (h (re, sub) (by simp) hcov) hs hd hm
      rcases hrun : onRaw S walk sub (Cursor.new s ptr) ctx with ⟨_ | _, ctx'⟩
      · rw [hrun] at hsub
        refine ⟨by simp, fun hF hall => ?_, hsub.same, hsub.quiet, hsub.keep, hsub.loud, hsub.boolMode⟩
        exact hsub.complete hF (hall.1 hcov)
      · rw [hrun] at hsub
        have hv := ih htail ((hsub.same (.inl rfl)).depth.trans hd)
          (mode_of_errors hm (hsub.quiet (.inl rfl)))
        refine hsub.trans (hv.congr ?_) (by simp)
        have hsat : Sat sub w := hsub.sound rfl
        simp [hsat]
    · next hcov => exact (ih htail hd hm).congr (by simp [hcov])

theorem memberRaw_verdict {base : String} {s : Bytes} (hs : IsText w s) (ptr : Nat) {ctx : Ctx}
    (hch : MemberChildren Sat walk F d o key w) (hd : ctx.depth = d)
    (hm : F ∨ ctx.errors = none) :
    Verdict F (MemberHolds S Sat o key w) ctx
      (memberRaw S walk o base key (Cursor.new s ptr) ctx) := by
  refine Verdict.andThen ?_ ?_
  · cases hp : o.prop? key with
    | none => exact .pass (by simp)
    | some sub =>
      refine (onRaw_verdict ptr (hch.prop sub hp) hs hd hm).congr ?_
      simp
  · intro ctx₁ _ hsame herr
    have hd₁ := hsame.depth.trans hd
    have hm₁ := mode_of_errors hm herr
    have hv := walkPatterns_verdict hs ptr hch.pattern hd₁ hm₁
    have hmatched := walkPatterns_matched walk key (Cursor.new s ptr) o.patterns ctx₁
    rcases hrun : walkPatterns S walk key (Cursor.new s ptr) o.patterns ctx₁ with ⟨matched, ok, ctx₂⟩
    rw [hrun] at hv hmatched
    simp only at hv hmatched
    -- A pattern failed: nothing behind it runs.
    cases ok with
    | false =>
      exact ⟨by simp, fun hF hall => hv.complete hF hall.1, hv.same, hv.quiet, hv.keep, hv.loud,
        hv.boolMode⟩
    | true =>
      have hpats := hv.sound rfl
      have hd₂ := (hv.same (.inl rfl)).depth.trans hd₁
      have hm₂ := mode_of_errors hm₁ (hv.quiet (.inl rfl))
      simp only
      -- `additionalProperties` speaks only of keys that no property and no pattern covers.
      by_cases hcov : matched || (o.prop? key).isSome
      · rw [if_pos hcov]
        refine hv.congr ⟨fun _ => ⟨hpats, fun hp hno => ?_⟩, fun _ => hpats⟩
        rw [hp] at hcov
        have : matched = false := (hmatched rfl).mpr hno
        simp [this] at hcov
      · rw [if_neg hcov]
        obtain ⟨hmat, hp⟩ : matched = false ∧ o.prop? key = none := by simpa using hcov
        have hno := (hmatched rfl).mp hmat
        refine hv.trans (Verdict.congr (A := AdditionalHolds S Sat o.additional w) ?_
          ⟨fun ha => ⟨hpats, fun _ _ => ha⟩, fun h => h.2 hp hno⟩) (by simp)
        unfold walkAdditional
        cases hadd : o.additional with
        | allow => exact .pass trivial
        | deny => exact .of_record (fun _ h => h) ..
        | schema sub => exact onRaw_verdict ptr (hch.additional sub hp hno hadd) hs hd₂ hm₂

theorem memberValue_judges (base : String) (hch : MemberChildren Sat walk F d o key w) :
    Judges F d (memberValue S walk o base key) w (MemberHolds S Sat o key w) := by
  intro c ctx s t hs ht hc hd hm
  unfold memberValue
  -- Without patterns the member is walked in place; with some it is first skipped and then read
  -- again from its own slice.
  split
  · next hempty =>
    have hnil : o.patterns = [] := List.isEmpty_iff.mp hempty
    cases hp : o.prop? key with
    | some sub =>
      exact (hch.prop sub hp).congr (by simp [MemberHolds, hnil, hp]) c ctx s t hs ht hc hd hm
    | none =>
      have hiff : AdditionalHolds S Sat o.additional w ↔ MemberHolds S Sat o key w := by
        simp [MemberHolds, hnil, hp]
      simp only [walkAdditional]
      cases hadd : o.additional with
      | allow =>
        exact (skipWalk_judges hch.fits).congr (by rw [← hiff, hadd]; rfl) c ctx s t hs ht hc hd hm
      | deny =>
        refine ⟨by simp, .of_record (fun _ hsat => ?_) ..⟩
        rw [← hiff, hadd] at hsat
        exact hsat
      | schema sub =>
        refine (hch.additional sub hp (by simp [hnil]) hadd).congr ?_ c ctx s t hs ht hc hd hm
        rw [← hiff, hadd]
        rfl
  · rcases hrun : c.skipValue ctx.depth with ⟨_ | _, c'⟩
    · obtain ⟨-, hv⟩ := skipWalk_judges hch.fits c ctx s t hs ht hc hd hm
      have hskip : skipWalk c ctx = ⟨false, c', ctx⟩ := by rw [skipWalk, hrun]
      rw [hskip] at hv
      exact ⟨by simp, by simp, fun hF _ => hv.complete hF trivial, hv.same, hv.quiet, hv.keep,
        hv.loud, hv.boolMode⟩
    · have heats : Eats c s c' := Cursor.skipValue_of_text hrun hs ht hc
      refine ⟨fun _ => heats, ?_⟩
      show Verdict F _ ctx (memberRaw S walk o base key (c'.slice c.pos) ctx)
      rw [heats.slice_eq]
      exact memberRaw_verdict hs _ hch hd hm

theorem member_judges (base : String) (hch : MemberChildren Sat walk F d o key w) :
    Judges F d (member S walk o base key) w (MemberHolds S Sat o key w) := by
  intro c ctx s t hs ht hc hd hm
  obtain ⟨heats, hv⟩ := memberValue_judges base hch c
    ((ctx.captureEnterKey c.ptr key).pushKey key) s t hs ht hc
    (by rw [Ctx.pushKey_depth, Ctx.captureEnterKey, Ctx.onCapture_depth, hd])
    (mode_of_errors hm (by rw [Ctx.pushKey_errors, Ctx.captureEnterKey, Ctx.onCapture_errors]))
  refine ⟨heats, ?_⟩
  exact (((hv.onCapture _ _).onCapture _ _).pop (.key key) rfl).of_onCapture

/-- The text of one member in front of the byte `b` that ends it: where the walk finds the key, the
colon and the value. -/
theorem member_text {T : Json → Bytes → Prop} {m : Bytes × Json} {sm t : Bytes} {b : UInt8}
    {c : Cursor} (hm : Member T m sm) (hT : ∀ v s, T v s → Starts s) (hb : isWs b = false)
    (hc : c.rest = sm ++ b :: t) :
    ∃ c₀ c₁ pre s w, c.skipWs.rawString = (some m.1, c₀) ∧ c₀.skipWs.eat colon = (true, c₁) ∧
      T m.2 s ∧ IsWs w ∧ c₁.skipWs.rest = s ++ (w ++ b :: t) ∧
      (∀ c₂, Eats c₁.skipWs s c₂ → Eats c₂ w c₂.skipWs ∧ c₂.skipWs.rest = b :: t) ∧
      Eats c pre c₁.skipWs ∧ sm = pre ++ (s ++ w) := by
  cases hm with
  | @mk w₁ w₂ w₃ s w₄ raw v h₁ hraw h₂ h₃ hv h₄ =>
    have hrest : c.rest =
        w₁ ++ quote :: (raw ++ quote :: (w₂ ++ colon :: (w₃ ++ (s ++ (w₄ ++ b :: t))))) := by
      rw [hc]
      simp [List.append_assoc]
    obtain ⟨hws₁, hkey⟩ := Cursor.skipWs_before hrest h₁ (by decide)
    have hrun := Cursor.rawString_complete hkey hraw
    have hkeyEats := (Cursor.rawString_sound hrun).2
    have hc₀ := hkeyEats.rest_eq (t := w₂ ++ colon :: (w₃ ++ (s ++ (w₄ ++ b :: t))))
      (by rw [hkey]; simp [List.append_assoc])
    obtain ⟨hws₂, hcolon⟩ := Cursor.skipWs_before hc₀ h₂ (by decide)
    have hcolonEats := Cursor.eat_eq_true (Cursor.eat_complete hcolon)
    have hc₁ := hcolonEats.rest_eq (t := w₃ ++ (s ++ (w₄ ++ b :: t))) hcolon
    have hws₃ := Cursor.skipWs_complete hc₁ h₃ ((hT v s hv).append _).head
    have hval := hws₃.rest_eq hc₁
    refine ⟨_, _, _, s, w₄, hrun, Cursor.eat_complete hcolon, hv, h₄, hval, ?_,
      (((hws₁.trans hkeyEats).trans hws₂).trans hcolonEats).trans hws₃, ?_⟩
    · intro c₂ heats
      exact Cursor.skipWs_before (heats.rest_eq hval) h₄ hb
    · simp [List.append_assoc]

/-- The text of the first member, the byte behind it, and what follows that byte. -/
theorem members_head {ms : List (Bytes × Json)} {c : Cursor} {body t : Bytes}
    (hbody : Members IsText ms body) (hc : c.rest = body ++ rbrace :: t) :
    ∃ m ms' sm b t', ms = m :: ms' ∧ Member IsText m sm ∧ c.rest = sm ++ b :: t' ∧ isWs b = false ∧
      Stops (b :: t') ∧ ((b = rbrace ∧ ms' = [] ∧ body = sm ∧ t' = t) ∨
        (b = comma ∧ ∃ rest, Members IsText ms' rest ∧ body = sm ++ comma :: rest ∧
          t' = rest ++ rbrace :: t)) := by
  cases hbody with
  | @one m s hmem =>
    exact ⟨m, [], body, rbrace, t, rfl, hmem, hc, by decide, .of_cons (.inr (.inr rfl)),
      .inl ⟨rfl, rfl, rfl, rfl⟩⟩
  | @cons m ms' s rest hmem hms =>
    exact ⟨m, ms', s, comma, rest ++ rbrace :: t, rfl, hmem, by rw [hc]; simp, by decide,
      .of_cons (.inl rfl), .inr ⟨rfl, rest, hms, rfl, rfl⟩⟩

/-- Where the member loop goes on: behind the value, if it passed or the walk stays within the
cap. -/
theorem realign_eats {c c' : Cursor} {s t : Bytes} {b : Bool} (hs : IsText w s) (ht : Ends w s t)
    (hc : c.rest = s ++ t) (hfits : F → d + w.height ≤ maxDepth) (hok : b = true → Eats c s c')
    (hF : b = false → F) : Eats c s (if b = true then c' else realign c c' d) := by
  cases b with
  | true => exact hok rfl
  | false =>
    obtain ⟨c₂, hrun, heats⟩ := Cursor.skipValue_at (hfits (hF rfl)) hs ht hc
    rw [if_neg (by simp), realign, hrun]
    exact heats

/-- A failed part of the walk goes on only in detailed mode, and then within the cap. -/
theorem Verdict.goes_on {A : Prop} {ctx ctx' : Ctx} {b : Bool} (h : Verdict F A ctx (b, ctx'))
    (hm : F ∨ ctx.errors = none) (hgo : (!b && !ctx'.isDetailed) = false) : b = false → F := by
  rintro rfl
  refine hm.resolve_right fun hn => ?_
  have : ctx'.errors = none := h.boolMode hn
  simp [Ctx.isDetailed, this] at hgo

/-- **The member loop.** Induction on the fuel; the invariant is that a failure noted in `objOk` has
been reported. -/
theorem objectMembers_judges (base : String) {n : Nat} {ms : List (Bytes × Json)} {body t : Bytes}
    (st : ObjState) {c : Cursor} {ctx : Ctx} (hbody : Members IsText ms body)
    (hc : c.rest = body ++ rbrace :: t) (hn : ms.length ≤ n)
    (hch : ∀ m ∈ ms, MemberChildren Sat walk F d o (textOf m.1) m.2) (hd : ctx.depth = d)
    (hm : F ∨ ctx.errors = none) (hst : st.objOk = false → F → ctx.Loud → ctx.Reported) :
    let r := objectMembers S walk o base n st c ctx
    (r.ok = true → Eats c (body ++ [rbrace]) r.c) ∧
      Verdict F (st.objOk = true ∧ (∀ m ∈ ms, MemberHolds S Sat o (textOf m.1) m.2) ∧
        o.fault S.fromUtf8Lossy (o.notes st (memberKeys ms)) = none) ctx (r.ok, r.ctx) := by
  induction n generalizing ms body st c ctx with
  | zero => exact absurd (List.length_eq_zero_iff.mp (Nat.le_zero.mp hn)) hbody.ne_nil
  | succ n ih =>
    obtain ⟨m, ms', sm, b, t', rfl, hmem, hcm, hb, hstop, hrest⟩ := members_head hbody hc
    obtain ⟨c₀, c₁, pre, s, w, hkey, hcolon, hs, hw, hval, hafter, hpre, rfl⟩ :=
      member_text hmem (fun v s h => h.starts) hb hcm
    have hchm := hch m (by simp)
    obtain ⟨heats, hv⟩ := member_judges base hchm c₁.skipWs ctx s _ hs
      (.inl (.ws_append hw hstop)) hval hd hm
    rw [objectMembers, hkey]
    simp only [hcolon]
    generalize hr : Castrum.member S walk o base (textOf m.1) c₁.skipWs ctx = r at heats hv
    simp only [memberKeys, List.map_cons, List.mem_cons, forall_eq_or_imp]
    by_cases hgo : (!r.ok && !r.ctx.isDetailed) = true
    · -- bool mode: the first failure is the verdict
      rw [if_pos hgo]
      have hfalse : r.ok = false := by
        have := (Bool.and_eq_true_iff.mp hgo).1
        simpa using this
      rw [hfalse] at hv
      refine ⟨by simp, by simp, fun hF hall => ?_, hv.same, hv.quiet, hv.keep, hv.loud, hv.boolMode⟩
      exact hv.complete hF hall.2.1.1
    · rw [if_neg hgo]
      have hgoF := hv.goes_on hm (by simpa using hgo)
      have hsame : ctx.Same r.ctx := hv.same (by
        cases hok : r.ok with
        | true => exact .inl rfl
        | false => exact .inr (hgoF hok))
      have hd' := hsame.depth.trans hd
      rw [hd']
      have heats' := realign_eats hs (.inl (.ws_append hw hstop)) hval hchm.fits heats hgoF
      generalize (if r.ok = true then r.c else realign c₁.skipWs r.c d) = c₂ at heats'
      obtain ⟨hwEats, hend⟩ := hafter c₂ heats'
      have hmemberEats := hpre.trans (heats'.trans hwEats)
      -- the state behind this member
      have hst' := hv.reported hst
      have hm' : F ∨ r.ctx.errors = none := hm.imp_right hv.boolMode
      have hnote : ∀ ks, o.notes (o.note { st with objOk := st.objOk && r.ok } (textOf m.1)) ks =
          { o.notes st (textOf m.1 :: ks) with objOk := st.objOk && r.ok } := by
        intro ks
        exact o.notes_setOk st (st.objOk && r.ok) (textOf m.1 :: ks)
      have hfault : ∀ ks, o.fault S.fromUtf8Lossy
          (o.notes (o.note { st with objOk := st.objOk && r.ok } (textOf m.1)) ks) =
            o.fault S.fromUtf8Lossy (o.notes st (textOf m.1 :: ks)) := by
        intro ks
        rw [hnote]
        rfl
      -- a verdict on the rest of the object, from the state behind this member
      have finish : ∀ (B : Prop) (x : Bool × Ctx),
          Verdict F ((st.objOk && r.ok) = true ∧ B) r.ctx x →
          Verdict F (st.objOk = true ∧ MemberHolds S Sat o (textOf m.1) m.2 ∧ B) ctx x := by
        intro B x hx
        refine (hv.trans hx ?_).imp ?_ ?_
        · rintro hfalse ⟨hand, -⟩
          rw [hfalse] at hand
          simp at hand
        · rintro ⟨hand, hB⟩
          obtain ⟨h1, h2⟩ := Bool.and_eq_true_iff.mp hand
          exact ⟨h1, hv.sound h2, hB⟩
        · rintro hF ⟨h1, h2, hB⟩
          have h3 : r.ok = true := hv.complete hF h2
          exact ⟨by rw [h1, h3]; rfl, hB⟩
      rcases hrest with ⟨rfl, rfl, rfl, rfl⟩ | ⟨rfl, rest, hms, rfl, rfl⟩
      · simp only [Cursor.eat_complete hend]
        refine ⟨fun _ => hmemberEats.trans (Cursor.eat_eq_true (Cursor.eat_complete hend)), ?_⟩
        have hfin := Verdict.and_left (b := st.objOk && r.ok)
          (Verdict.of_report base
            (o.fault S.fromUtf8Lossy (o.notes st [textOf m.1]))) hst'
        refine (finish _ _ hfin).congr ?_
        simp
      · simp only [Cursor.eat_of_ne hend (show comma ≠ rbrace by decide), Cursor.eat_complete hend]
        have hcommaEats := Cursor.eat_eq_true (Cursor.eat_complete hend)
        obtain ⟨hloopEats, hloop⟩ := ih
          (o.note { st with objOk := st.objOk && r.ok } (textOf m.1)) hms (hcommaEats.rest_eq hend)
          (by rw [List.length_cons] at hn; omega)
          (fun x hx => hch x (List.mem_cons_of_mem _ hx)) hd' hm' hst'
        refine ⟨fun hok => ?_, ?_⟩
        · have := (hmemberEats.trans hcommaEats).trans (hloopEats hok)
          simpa [List.append_assoc] using this
        · rw [hfault] at hloop
          refine (finish _ _ hloop).congr ?_
          simp only [memberKeys, and_assoc]

/-! ## Elements -/

variable {dom : Json → Option Value} {a : FastArray (FastNode S.Regex)}

theorem elementValue_judges (base : String) (idx : Nat) (hfits : F → d + w.height ≤ maxDepth)
    (hch : ∀ sub, a.schemaAt S idx = .schema sub → Judges F d (walk sub) w (Sat sub w)) :
    Judges F d (elementValue S walk a base idx) w
      (AdditionalHolds S Sat (a.schemaAt S idx) w) := by
  intro c ctx s t hs ht hc hd hm
  unfold elementValue
  cases hat : a.schemaAt S idx with
  | allow => exact skipWalk_judges hfits c ctx s t hs ht hc hd hm
  | deny =>
    have hrec : Verdict F False (ctx.pushIdx idx) (false, (ctx.pushIdx idx).record base
        "additionalItems" "additional array items are not allowed") := .of_record (fun _ h => h) ..
    exact ⟨by simp, hrec.pop (.index idx) rfl⟩
  | schema sub =>
    obtain ⟨heats, hv⟩ := hch sub hat c (ctx.pushIdx idx) s t hs ht hc
      (by rw [Ctx.pushIdx_depth, hd]) (mode_of_errors hm (Ctx.pushIdx_errors ..))
    exact ⟨heats, hv.pop (.index idx) rfl⟩

/-- `uniqueItems` on one element: the step of the duplicate scan, when it is tracked and the
element parses. -/
theorem uniqueItem_spec (base : String) (raw : Cursor) (st : ArrState) (ctx : Ctx)
    (hraw : S.fromSlice raw.data = dom w) :
    ∃ b, (uniqueItem S base raw st ctx).1.arrOk = (st.arrOk && b) ∧
      (uniqueItem S base raw st ctx).1.count = st.count ∧
      (uniqueItem S base raw st ctx).1.containsFound = st.containsFound ∧
      (∀ vals, (∀ seen ∈ st.uniqueSeen, uniqueScan seen ((dom w).toList ++ vals) = true) ↔
        b = true ∧ ∀ seen ∈ (uniqueItem S base raw st ctx).1.uniqueSeen,
          uniqueScan seen vals = true) ∧
      ctx.Same (uniqueItem S base raw st ctx).2 ∧
      Verdict F (b = true) ctx (b, (uniqueItem S base raw st ctx).2) := by
  unfold uniqueItem
  cases hseen : st.uniqueSeen with
  | none => exact ⟨true, by simp, rfl, rfl, by simp [hseen], .refl ctx, .pass rfl⟩
  | some seen =>
    rw [hraw]
    cases hval : dom w with
    | none => exact ⟨true, by simp, rfl, rfl, by simp [hseen], .refl ctx, .pass rfl⟩
    | some val =>
      simp only [Option.mem_def, Option.some.injEq, forall_eq', Option.toList_some,
        List.singleton_append]
      rcases hstep : uniqueStep seen val with ⟨_ | _, seen'⟩
      · exact ⟨false, by simp, rfl, rfl, by simp [uniqueScan, hstep], ctx.record_same ..,
          .of_record (by simp) ..⟩
      · exact ⟨true, by simp, rfl, rfl, by simp [uniqueScan, hstep], .refl ctx, .pass rfl⟩

/-- `contains` on one element: one more probe until one passes. -/
theorem containsItem_spec {s : Bytes} (hs : IsText w s) (ptr : Nat) (st : ArrState) {ctx : Ctx}
    (h : st.containsFound = false → ∀ con ∈ a.contains,
      Probing walk F (C con w) d con w (Sat con w))
    (hd : ctx.depth = d) (hm : F ∨ ctx.errors = none) :
    let r := containsItem S walk a (Cursor.new s ptr) st ctx
    r.1.arrOk = st.arrOk ∧ r.1.count = st.count ∧ r.1.uniqueSeen = st.uniqueSeen ∧
      Decision (st.containsFound = true ∨ ∃ con ∈ a.contains, C con w)
        (st.containsFound = true ∨ ∃ con ∈ a.contains, Sat con w) ctx (r.1.containsFound, r.2) := by
  unfold containsItem
  cases hfound : st.containsFound with
  | true => exact ⟨rfl, rfl, rfl, fun _ => .inl rfl, fun _ => hfound, .refl ctx, rfl⟩
  | false =>
    cases hcon : a.contains with
    | none => exact ⟨rfl, rfl, rfl, by simp [hfound], by simp, .refl ctx, rfl⟩
    | some con =>
      have hdec := h hfound con hcon s ptr ctx hs hd hm
      refine ⟨rfl, rfl, rfl, fun hok => .inr ⟨con, rfl, hdec.sound hok⟩, fun hsure => ?_, hdec.same,
        hdec.errors⟩
      obtain ⟨con', hcon', hsure⟩ := hsure.resolve_left (by simp)
      obtain rfl := Option.some.inj hcon'
      exact hdec.complete hsure

/-- The text of the first element and what follows it. -/
theorem elements_text {T : Json → Bytes → Prop} {items : List Json} {body t : Bytes}
    (hT : ∀ v s, T v s → Starts s) (hbody : Elements T items body) (hst : Starts body) :
    ∃ v items' s w b t', items = v :: items' ∧ T v s ∧ IsWs w ∧ isWs b = false ∧
      Stops (b :: t') ∧ body ++ rbracket :: t = s ++ (w ++ b :: t') ∧
      ((b = rbracket ∧ items' = [] ∧ body = s ++ w ∧ t' = t) ∨
        (b = comma ∧ ∃ w' rest, IsWs w' ∧ Elements T items' rest ∧ Starts rest ∧
          body = s ++ (w ++ comma :: (w' ++ rest)) ∧ t' = w' ++ (rest ++ rbracket :: t))) := by
  have hnil : ∀ w₁ r : Bytes, IsWs w₁ → Starts (w₁ ++ r) → w₁ = [] := by
    intro w₁ r hw hst
    cases w₁ with
    | nil => rfl
    | cons b w₁ =>
      obtain ⟨x, y, hxy, hx, -⟩ := hst
      have hb := hw b (by simp)
      rw [(List.cons.inj hxy).1, hx] at hb
      exact absurd hb (by simp)
  cases hbody with
  | @one w₁ s w₂ v h₁ hv h₂ =>
    obtain rfl := hnil w₁ _ h₁ hst
    exact ⟨v, [], s, w₂, rbracket, t, rfl, hv, h₂, by decide, .of_cons (.inr (.inl rfl)), by simp,
      .inl ⟨rfl, rfl, rfl, rfl⟩⟩
  | @cons w₁ s w₂ rest v vs h₁ hv h₂ hvs =>
    obtain rfl := hnil w₁ _ h₁ hst
    obtain ⟨w', rest', hw', rfl, hvs', hst'⟩ := hvs.strip hT
    exact ⟨v, vs, s, w₂, comma, _, rfl, hv, h₂, by decide, .of_cons (.inl rfl), by simp,
      .inr ⟨rfl, w', rest', hw', hvs', hst', rfl, rfl⟩⟩

/-- What the element loop decides, from state `st` on. -/
def ElementsHold (S : Oracles) (dom : Json → Option Value) (Sat : FastNode S.Regex → Json → Prop)
    (a : FastArray (FastNode S.Regex)) (st : ArrState) (items : List Json) : Prop :=
  (∀ i w, items[i]? = some w → AdditionalHolds S Sat (a.schemaAt S (st.count + i)) w) ∧
  (∀ seen ∈ st.uniqueSeen, uniqueScan seen (items.filterMap dom) = true) ∧
  ((∀ n ∈ a.minItems, n ≤ st.count + items.length) ∧
    ∀ n ∈ a.maxItems, st.count + items.length ≤ n) ∧
  (a.contains.isSome = true →
    st.containsFound = true ∨ ∃ con ∈ a.contains, ∃ w ∈ items, Sat con w)

/-- The state `st'` behind the element `v`: whether it passed, whether it was new, and whether
`contains` has found one by now. -/
structure Behind (S : Oracles) (dom : Json → Option Value) (Sat C : FastNode S.Regex → Json → Prop)
    (a : FastArray (FastNode S.Regex)) (st st' : ArrState) (v : Json) (ok new : Bool) : Prop where
  arrOk : st'.arrOk = (st.arrOk && ok && new)
  count : st'.count = st.count + 1
  found : st'.containsFound = true → st.containsFound = true ∨ ∃ con ∈ a.contains, Sat con v
  surely : (st.containsFound = true ∨ ∃ con ∈ a.contains, C con v) → st'.containsFound = true
  scan : ∀ vals, (∀ seen ∈ st.uniqueSeen, uniqueScan seen ((dom v).toList ++ vals) = true) ↔
    new = true ∧ ∀ seen ∈ st'.uniqueSeen, uniqueScan seen vals = true

/-- The two checks on a parsed element. -/
theorem elementChecks_spec (base : String) (hraw : ∀ s, IsText w s → S.fromSlice s = dom w)
    {s : Bytes} (hs : IsText w s) (ptr : Nat) (st : ArrState) (ok : Bool) {ctx : Ctx}
    (h : st.containsFound = false → ∀ con ∈ a.contains,
      Probing walk F (C con w) d con w (Sat con w))
    (hd : ctx.depth = d) (hm : F ∨ ctx.errors = none) :
    let u := uniqueItem S base (Cursor.new s ptr)
      { st with count := st.count + 1, arrOk := st.arrOk && ok } ctx
    let k := containsItem S walk a (Cursor.new s ptr) u.1 u.2
    ∃ new, Behind S dom Sat C a st k.1 w ok new ∧ ctx.Same k.2 ∧
      Verdict F (new = true) ctx (new, k.2) := by
  obtain ⟨new, huOk, huCount, huFound, huScan, husame, hu⟩ := uniqueItem_spec (F := F) base
    (Cursor.new s ptr) { st with count := st.count + 1, arrOk := st.arrOk && ok } ctx (hraw s hs)
  dsimp only
  generalize uniqueItem S base (Cursor.new s ptr)
    { st with count := st.count + 1, arrOk := st.arrOk && ok } ctx = u
    at huOk huCount huFound huScan husame hu ⊢
  obtain ⟨hkOk, hkCount, hkSeen, hk⟩ := containsItem_spec (a := a) hs ptr u.1
    (fun hf con hcon => h (huFound ▸ hf) con hcon) (husame.depth.trans hd)
    (hm.imp_right hu.boolMode)
  generalize containsItem S walk a (Cursor.new s ptr) u.1 u.2 = k at hkOk hkCount hkSeen hk ⊢
  refine ⟨new, ⟨hkOk.trans huOk, hkCount.trans huCount, ?_, ?_, fun vals => ?_⟩,
    husame.trans hk.same, hu.after hk.same hk.errors⟩
  · rw [← huFound]
    exact hk.sound
  · rw [← huFound]
    exact hk.complete
  · rw [hkSeen]
    exact huScan vals

theorem itemsHold_cons {n : Nat} {v : Json} {items : List Json} :
    (∀ i y, (v :: items)[i]? = some y → AdditionalHolds S Sat (a.schemaAt S (n + i)) y) ↔
      AdditionalHolds S Sat (a.schemaAt S n) v ∧
        ∀ i y, items[i]? = some y → AdditionalHolds S Sat (a.schemaAt S (n + 1 + i)) y := by
  constructor
  · intro hall
    refine ⟨hall 0 v rfl, fun i y hy => ?_⟩
    rw [show n + 1 + i = n + (i + 1) by omega]
    exact hall (i + 1) y hy
  · rintro ⟨h0, hall⟩ i y hy
    cases i with
    | zero =>
      obtain rfl : v = y := by simpa using hy
      exact h0
    | succ i =>
      rw [show n + (i + 1) = n + 1 + i by omega]
      exact hall i y hy

/-- What the loop decides from before an element, told from behind it. -/
theorem Behind.verdict {st st' : ArrState} {v : Json} {ok new : Bool} {items : List Json}
    {ctx ctx₁ ctx₂ : Ctx} {x : Bool × Ctx} (h : Behind S dom Sat C a st st' v ok new)
    (hC : F → ∀ con, Sat con v → C con v)
    (hv : Verdict F (AdditionalHolds S Sat (a.schemaAt S st.count) v) ctx (ok, ctx₁))
    (hu : Verdict F (new = true) ctx₁ (new, ctx₂))
    (hx : Verdict F (st'.arrOk = true ∧ ElementsHold S dom Sat a st' items) ctx₂ x) :
    Verdict F (st.arrOk = true ∧ ElementsHold S dom Sat a st (v :: items)) ctx x := by
  have hlen : st.count + (v :: items).length = st'.count + items.length := by
    rw [h.count, List.length_cons]
    omega
  have hscan := h.scan (items.filterMap dom)
  rw [show (dom v).toList ++ items.filterMap dom = (v :: items).filterMap dom by
    cases hv : dom v <;> simp [hv]] at hscan
  -- Backwards: what the verdicts tell of this element, and what the rest of the loop tells.
  refine ((hv.trans (hu.trans hx ?_) ?_).imp ?_ ?_)
  · rintro hfalse ⟨hok, -⟩
    rw [h.arrOk, hfalse, Bool.and_false] at hok
    simp at hok
  · rintro hfalse ⟨hok, -⟩
    rw [h.arrOk, hfalse] at hok
    simp at hok
  · rintro ⟨hok, h1, h2, h3, h4⟩
    rw [h.arrOk] at hok
    obtain ⟨hok, hnew⟩ := Bool.and_eq_true_iff.mp hok
    obtain ⟨hstOk, hrOk⟩ := Bool.and_eq_true_iff.mp hok
    rw [h.count] at h1
    refine ⟨hstOk, itemsHold_cons.mpr ⟨hv.sound hrOk, h1⟩, hscan.mpr ⟨hnew, h2⟩, ?_, fun hsome => ?_⟩
    · rw [hlen]
      exact h3
    · rcases h4 hsome with hfound | ⟨con, hcon, y, hy, hsat⟩
      · exact (h.found hfound).imp_right fun ⟨con, hcon, hsat⟩ => ⟨con, hcon, v, by simp, hsat⟩
      · exact .inr ⟨con, hcon, y, List.mem_cons_of_mem _ hy, hsat⟩
  -- Forwards, in a mode in which every failure is told: each stage accepts what its part accepts.
  · rintro hF ⟨hstOk, h1, h2, h3, h4⟩
    obtain ⟨h10, h1⟩ := itemsHold_cons.mp h1
    obtain ⟨hnew, h2⟩ := hscan.mp h2
    have hrOk : ok = true := hv.complete hF h10
    rw [hlen] at h3
    rw [← h.count] at h1
    refine ⟨by rw [h.arrOk, hstOk, hrOk, hnew]; rfl, h1, h2, h3, fun hsome => ?_⟩
    rcases h4 hsome with hfound | ⟨con, hcon, y, hy, hsat⟩
    · exact .inl (h.surely (.inl hfound))
    · rcases List.mem_cons.mp hy with rfl | hy
      · exact .inl (h.surely (.inr ⟨con, hcon, hC hF con hsat⟩))
      · exact .inr ⟨con, hcon, y, hy, hsat⟩

/-- **The element loop.** Induction on the fuel, as for members; `uniqueItems` may also clear
`arrOk`, and `contains` is probed until an element passes. -/
theorem arrayElements_judges (base : String) (hdom : ∀ v s, IsText v s → S.fromSlice s = dom v)
    {n : Nat} {items : List Json} {body t : Bytes} (st : ArrState) {c : Cursor} {ctx : Ctx}
    (hbody : Elements IsText items body) (hstarts : Starts body)
    (hc : c.rest = body ++ rbracket :: t) (hn : items.length ≤ n)
    (hfits : F → ∀ w ∈ items, d + w.height ≤ maxDepth) (hC : F → ∀ con w, Sat con w → C con w)
    (hch : ∀ i w sub, items[i]? = some w → a.schemaAt S (st.count + i) = .schema sub →
      Judges F d (walk sub) w (Sat sub w))
    (hprobe : st.containsFound = false → ∀ con ∈ a.contains, ∀ pre w post,
      items = pre ++ w :: post → (∀ x ∈ pre, ¬ C con x) →
        Probing walk F (C con w) d con w (Sat con w))
    (hd : ctx.depth = d) (hm : F ∨ ctx.errors = none)
    (hst : st.arrOk = false → F → ctx.Loud → ctx.Reported) :
    let r := arrayElements S walk a base n st c ctx
    (r.ok = true → Eats c (body ++ [rbracket]) r.c) ∧
      Verdict F (st.arrOk = true ∧ ElementsHold S dom Sat a st items) ctx (r.ok, r.ctx) := by
  induction n generalizing items body st c ctx with
  | zero => exact absurd (List.length_eq_zero_iff.mp (Nat.le_zero.mp hn)) hbody.ne_nil
  | succ n ih =>
    obtain ⟨v, items', s, w, b, t', rfl, hs, hw, hb, hstop, hsplit, hrest⟩ :=
      elements_text (t := t) (fun v s h => h.starts) hbody hstarts
    rw [hsplit] at hc
    rw [arrayElements]
    cases hover : a.overflow (st.count + 1) with
    | some fault =>
      refine ⟨by simp, .of_record (fun _ hall => ?_) ..⟩
      have hnone := (a.overflow_eq_none (st.count + 1)).mpr fun n hn => by
        have := hall.2.2.2.1.2 n hn
        rw [List.length_cons] at this
        omega
      rw [hnone] at hover
      cases hover
    | none =>
      obtain ⟨heats, hv⟩ := elementValue_judges base st.count
        (fun hF => hfits hF v (by simp)) (fun sub hsub => hch 0 v sub rfl (by simpa using hsub))
        c ctx s _ hs (.inl (.ws_append hw hstop)) hc hd hm
      generalize elementValue S walk a base st.count c ctx = r at heats hv
      simp only
      by_cases hgo : (!r.ok && !r.ctx.isDetailed) = true
      · rw [if_pos hgo]
        have hfalse : r.ok = false := by
          have := (Bool.and_eq_true_iff.mp hgo).1
          simpa using this
        rw [hfalse] at hv
        refine ⟨by simp, by simp, fun hF hall => ?_, hv.same, hv.quiet, hv.keep, hv.loud,
          hv.boolMode⟩
        exact hv.complete hF (hall.2.1 0 v rfl)
      · rw [if_neg hgo]
        have hgoF := hv.goes_on hm (by simpa using hgo)
        have hsame : ctx.Same r.ctx := hv.same (by
          cases hok : r.ok with
          | true => exact .inl rfl
          | false => exact .inr (hgoF hok))
        have hd₁ := hsame.depth.trans hd
        rw [hd₁]
        have heats' := realign_eats hs (.inl (.ws_append hw hstop)) hc (fun hF => hfits hF v (by simp))
          heats hgoF
        generalize (if r.ok = true then r.c else realign c r.c d) = c₂ at heats'
        obtain ⟨hwEats, hend⟩ := Cursor.skipWs_before (heats'.rest_eq hc) hw hb
        rw [heats'.slice_eq]
        -- the state behind this element
        obtain ⟨new, hk, hksame, hu⟩ := elementChecks_spec (C := C) base (hdom v) hs (c.ptr + c.pos) st
          r.ok (fun hf con hcon => hprobe hf con hcon [] v items' rfl (by simp)) hd₁
          (hm.imp_right hv.boolMode)
        generalize containsItem S walk a (Cursor.new s (c.ptr + c.pos))
          (uniqueItem S base (Cursor.new s (c.ptr + c.pos))
            { st with count := st.count + 1, arrOk := st.arrOk && r.ok } r.ctx).1
          (uniqueItem S base (Cursor.new s (c.ptr + c.pos))
            { st with count := st.count + 1, arrOk := st.arrOk && r.ok } r.ctx).2 = k at hk hksame hu ⊢
        have hst' : k.1.arrOk = false → F → k.2.Loud → k.2.Reported := by
          intro hfalse
          rw [hk.arrOk] at hfalse
          exact hu.reported (hv.reported hst) hfalse
        have helemEats := heats'.trans hwEats
        rcases hrest with ⟨rfl, rfl, rfl, rfl⟩ | ⟨rfl, w', rest, hw', hvs, hst₂, rfl, rfl⟩
        · simp only [Cursor.eat_complete hend]
          refine ⟨fun _ => helemEats.trans (Cursor.eat_eq_true (Cursor.eat_complete hend)), ?_⟩
          have hfin := Verdict.and_left (b := k.1.arrOk)
            (Verdict.of_report base (a.fault k.1)) hst'
          refine hk.verdict (fun hF con => hC hF con v) hv hu
            ((Verdict.onCapture hfin _ _).congr (and_congr_right fun _ => ?_))
          rw [a.fault_eq_none]
          simp [ElementsHold, uniqueScan]
        · simp only [Cursor.eat_of_ne hend (show comma ≠ rbracket by decide),
            Cursor.eat_complete hend]
          have hcommaEats := Cursor.eat_eq_true (Cursor.eat_complete hend)
          have hc₃ := hcommaEats.rest_eq hend
          have hwsEats := Cursor.skipWs_complete hc₃ hw' (hst₂.append _).head
          obtain ⟨hloopEats, hloop⟩ := ih k.1 hvs hst₂ (hwsEats.rest_eq hc₃)
            (by rw [List.length_cons] at hn; omega)
            (fun hF y hy => hfits hF y (List.mem_cons_of_mem _ hy))
            (fun i y sub hy hsub => hch (i + 1) y sub hy (by
              rw [hk.count] at hsub
              rw [show st.count + (i + 1) = st.count + 1 + i by omega]
              exact hsub))
            (fun hf con hcon pre y post heq hpre => by
              -- not found behind this element: neither before it nor surely in it
              obtain ⟨hnf, hno⟩ := not_or.mp (mt hk.surely (by rw [hf]; simp))
              refine hprobe (by simpa using hnf) con hcon (v :: pre) y post (by rw [heq]; rfl) ?_
              intro x hx
              rcases List.mem_cons.mp hx with rfl | hx
              · exact fun hsure => hno ⟨con, hcon, hsure⟩
              · exact hpre x hx)
            (hksame.depth.trans hd₁) (hm.imp_right fun hn => hu.boolMode (hv.boolMode hn)) hst'
          refine ⟨fun hok => ?_, hk.verdict (fun hF con => hC hF con v) hv hu hloop⟩
          have := ((helemEats.trans hcommaEats).trans hwsEats).trans (hloopEats hok)
          simpa [List.append_assoc] using this

/-! ## Containers -/

theorem validateObject_judges (base : String) {ms : List (Bytes × Json)}
    (hch : Children Sat C walk F d node (.obj ms)) (ho : node.obj = some o) :
    Judges F d (validateObject S walk o base) (.obj ms) (ObjectHolds S Sat o ms) := by
  intro c ctx s t hs ht hc hd hm
  obtain ⟨body, rfl, hbody⟩ := (isText_iff _ _).mp hs
  have hopen := Cursor.eat_complete (b := lbrace) (t := body ++ [rbrace] ++ t) hc
  have hopenEats := Cursor.eat_eq_true hopen
  simp only [validateObject, hopen]
  rcases hbody with ⟨rfl, hws⟩ | hms
  · obtain ⟨heat, heats⟩ := Cursor.inside_closed (by decide) (Cursor.adv_rest hc) hws
    rw [heat]
    refine ⟨fun _ => hopenEats.trans heats,
      (Verdict.of_report base (o.fault S.fromUtf8Lossy o.init)).congr ?_⟩
    simpa [ObjectHolds, memberKeys, FastObject.notes] using o.fault_eq_none S.fromUtf8Lossy []
  · obtain ⟨w, body', hw, rfl, hms', hst⟩ := hms.strip
    obtain ⟨hne, -, hrest, hfuel, hglue⟩ := Cursor.inside_starts (.inl rfl) (Cursor.adv_rest hc) hw hst
    rw [hne]
    obtain ⟨heats, hloop⟩ := objectMembers_judges base o.init hms' hrest (hfuel _ hms'.length_le)
      (fun m hmem => hch.member ho hmem) hd hm (by simp [FastObject.init])
    refine ⟨fun hok => hopenEats.trans (hglue _ (heats hok)), hloop.congr ?_⟩
    rw [o.fault_eq_none]
    simp [ObjectHolds, FastObject.init]

/-- The loop starts with nothing seen and, without `contains`, nothing to find. -/
theorem elementsHold_init (items : List Json) :
    ElementsHold S dom Sat a a.init items ↔ ArrayHolds S dom Sat a items := by
  simp only [ElementsHold, ArrayHolds, FastArray.init, Nat.zero_add]
  refine and_congr_right fun _ => ?_
  have hunique : (∀ seen ∈ (if a.unique = true then some [] else none : Option (List Value)),
      uniqueScan seen (items.filterMap dom) = true) ↔ (a.unique = true →
        (items.filterMap dom).Pairwise fun x y => sonicValuesEqual x y = false) := by
    cases a.unique with
    | false => simp
    | true => simp [uniqueScan_eq_true_iff]
  have hcontains : (a.contains.isSome = true → a.contains.isNone = true ∨
      ∃ con ∈ a.contains, ∃ w ∈ items, Sat con w) ↔
        ∀ con ∈ a.contains, ∃ v ∈ items, Sat con v := by
    cases a.contains <;> simp
  rw [hunique, hcontains]
  constructor
  · rintro ⟨hdistinct, ⟨hmin, hmax⟩, hfound⟩
    exact ⟨hmin, hmax, hdistinct, hfound⟩
  · rintro ⟨hmin, hmax, hdistinct, hfound⟩
    exact ⟨hdistinct, ⟨hmin, hmax⟩, hfound⟩

theorem validateArray_judges (base : String) {items : List Json}
    (hdom : ∀ v s, IsText v s → S.fromSlice s = dom v)
    (hch : Children Sat C walk F d node (.arr items)) (ha : node.arr = some a) :
    Judges F d (validateArray S walk a base) (.arr items) (ArrayHolds S dom Sat a items) := by
  intro c ctx s t hs ht hc hd hm
  obtain ⟨body, rfl, hbody⟩ := (isText_iff _ _).mp hs
  have hopen := Cursor.eat_complete (b := lbracket) (t := body ++ [rbracket] ++ t) hc
  have hopenEats := Cursor.eat_eq_true hopen
  simp only [validateArray, hopen]
  -- The empty array runs no element, but the final checks of the state still do.
  rcases hbody with ⟨rfl, hws⟩ | hel
  · obtain ⟨heat, heats⟩ := Cursor.inside_closed (by decide) (Cursor.adv_rest hc) hws
    rw [heat]
    refine ⟨fun _ => hopenEats.trans heats, (Verdict.of_report base (a.fault a.init)).congr ?_⟩
    rw [← elementsHold_init, a.fault_eq_none]
    cases hcon : a.contains <;>
      simp [ElementsHold, FastArray.init, uniqueScan, hcon]
  · obtain ⟨w, body', hw, rfl, hel', hst⟩ := hel.strip (fun v s h => h.starts)
    obtain ⟨hne, -, hrest, hfuel, hglue⟩ := Cursor.inside_starts (.inr rfl) (Cursor.adv_rest hc) hw hst
    rw [hne]
    have hfits : F → ∀ w ∈ items, d + w.height ≤ maxDepth := by
      intro hF w hw
      have h1 := hch.fits hF
      have h2 := height_lt_heightItems hw
      rw [Json.height] at h1
      omega
    obtain ⟨heats, hloop⟩ := arrayElements_judges base hdom a.init hel' hst
      hrest (hfuel _ hel'.length_le) hfits hch.surely
      (fun i w sub hi hsub => hch.loud sub w (.element ha hi (by simpa [FastArray.init] using hsub)))
      (fun _ con hcon pre w post heq hpre => by
        subst heq
        exact hch.probed con w (.contains ha hcon hpre))
      hd hm (by simp [FastArray.init])
    refine ⟨fun hok => hopenEats.trans (hglue _ (heats hok)), hloop.congr ?_⟩
    rw [elementsHold_init]
    simp [FastArray.init]

end

end Castrum
