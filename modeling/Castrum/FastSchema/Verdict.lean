import Castrum.FastSchema.Semantics

/-!
# Castrum — verdicts and their contexts

What the parts of the walk owe each other. `Verdict F sat ctx r` says of a result `r` obtained in
`ctx` that it decides `sat`, that it hands the context back as it found it, and that the errors
follow the verdict: a pass records nothing, a failure is reported unless it was suppressed.

Not everything holds near the depth cap. `F` is the assumption that the walk stays within it;
without `F` a verdict is only sound, and a failed one says nothing about the context.

* `Verdict.trans`, `Verdict.andThen` — verdicts compose;
* `Verdict.probe` — a suppressed sub-walk within the cap is a decision without side effects.
-/

namespace Castrum

/-! ## Contexts -/

/-- The parts of a context that a walk gives back as it found them. -/
structure Ctx.Same (ctx ctx' : Ctx) : Prop where
  suppress : ctx'.suppress = ctx.suppress
  path : ctx'.path = ctx.path
  depth : ctx'.depth = ctx.depth
  maxErrors : ctx'.maxErrors = ctx.maxErrors
  inputPtr : ctx'.inputPtr = ctx.inputPtr
  detailed : ctx'.errors.isSome = ctx.errors.isSome

theorem Ctx.Same.refl (ctx : Ctx) : ctx.Same ctx := ⟨rfl, rfl, rfl, rfl, rfl, rfl⟩

theorem Ctx.Same.trans {ctx ctx' ctx'' : Ctx} (h : ctx.Same ctx') (h' : ctx'.Same ctx'') :
    ctx.Same ctx'' :=
  ⟨h'.suppress.trans h.suppress, h'.path.trans h.path, h'.depth.trans h.depth,
    h'.maxErrors.trans h.maxErrors, h'.inputPtr.trans h.inputPtr, h'.detailed.trans h.detailed⟩

theorem Ctx.Same.symm {ctx ctx' : Ctx} (h : ctx.Same ctx') : ctx'.Same ctx :=
  ⟨h.suppress.symm, h.path.symm, h.depth.symm, h.maxErrors.symm, h.inputPtr.symm, h.detailed.symm⟩

/-- A failure in this context is to be recorded. -/
def Ctx.Loud (ctx : Ctx) : Prop :=
  ctx.suppress = false ∧ ctx.errors.isSome = true ∧ 1 ≤ ctx.maxErrors

def Ctx.Reported (ctx : Ctx) : Prop := ∃ e es, ctx.errors = some (e :: es)

theorem Ctx.Loud.same {ctx ctx' : Ctx} (h : ctx.Loud) (hs : ctx.Same ctx') : ctx'.Loud :=
  ⟨hs.suppress.trans h.1, hs.detailed.trans h.2.1, hs.maxErrors ▸ h.2.2⟩

theorem Ctx.Reported.of_errors {ctx ctx' : Ctx} (h : ctx.Reported) (he : ctx'.errors = ctx.errors) :
    ctx'.Reported := by
  obtain ⟨e, es, h⟩ := h
  exact ⟨e, es, he.trans h⟩

section record

variable (ctx : Ctx) (base keyword message : String)

theorem Ctx.record_same : ctx.Same (ctx.record base keyword message) := by
  unfold Ctx.record
  split
  · exact .refl ctx
  · split
    · exact .refl ctx
    · next errors he =>
      split
      · exact .refl ctx
      · exact ⟨rfl, rfl, rfl, rfl, rfl, by rw [he]; rfl⟩

theorem Ctx.record_suppressed (h : ctx.suppress = true) :
    (ctx.record base keyword message).errors = ctx.errors := by
  rw [Ctx.record, if_pos h]

theorem Ctx.record_boolMode (h : ctx.errors = none) :
    (ctx.record base keyword message).errors = none := by
  have := (ctx.record_same base keyword message).detailed
  rw [h] at this
  simpa using this

theorem Ctx.record_reported (h : ctx.Reported) : (ctx.record base keyword message).Reported := by
  obtain ⟨e, es, he⟩ := h
  unfold Ctx.record
  split
  · exact ⟨e, es, he⟩
  · rw [he]
    simp only
    split
    · exact ⟨e, es, he⟩
    · exact ⟨e, es ++ _, rfl⟩

/-- A loud context has an error after recording, the new one or those that fill it. -/
theorem Ctx.record_loud (h : ctx.Loud) : (ctx.record base keyword message).Reported := by
  obtain ⟨hs, he, hm⟩ := h
  obtain ⟨errors, herr⟩ := Option.isSome_iff_exists.mp he
  rw [Ctx.record, if_neg (by rw [hs]; simp), herr]
  simp only
  cases errors with
  | nil =>
    rw [if_neg (by rw [List.length_nil]; omega)]
    exact ⟨_, [], rfl⟩
  | cons e es =>
    split
    · exact ⟨e, es, herr⟩
    · exact ⟨e, es ++ _, rfl⟩

end record

/-! ## Verdicts

What a part of the walk tells. `F` says that no level is refused: with it a part is complete and its
failures are told, without it only a pass says something. -/

/-- The result `r` of a part of the walk started in `ctx` decides `sat`. -/
structure Verdict (F sat : Prop) (ctx : Ctx) (r : Bool × Ctx) : Prop where
  sound : r.1 = true → sat
  complete : F → sat → r.1 = true
  same : r.1 = true ∨ F → ctx.Same r.2
  quiet : r.1 = true ∨ (F ∧ ctx.suppress = true) → r.2.errors = ctx.errors
  keep : F → ctx.Reported → r.2.Reported
  loud : F → r.1 = false → ctx.Loud → r.2.Reported
  boolMode : ctx.errors = none → r.2.errors = none

namespace Verdict

variable {F F' A B : Prop} {ctx ctx' : Ctx} {r : Bool × Ctx}

/-- The context is not touched. -/
theorem of_iff {b : Bool} (hs : b = true → A) (hc : F → A → b = true)
    (hloud : F → b = false → ¬ ctx.Loud ∨ ctx.Reported) : Verdict F A ctx (b, ctx) where
  sound := hs
  complete := hc
  same _ := .refl ctx
  quiet _ := rfl
  keep _ h := h
  loud hF hb hl := (hloud hF hb).resolve_left fun h => h hl
  boolMode h := h

theorem pass (hA : A) : Verdict F A ctx (true, ctx) :=
  of_iff (fun _ => hA) (fun _ _ => rfl) fun _ h => absurd h (by simp)

/-- A failure that is recorded. -/
theorem of_record (hA : F → ¬ A) (base keyword message : String) :
    Verdict F A ctx (false, ctx.record base keyword message) where
  sound h := absurd h (by simp)
  complete hF h := absurd h (hA hF)
  same _ := ctx.record_same ..
  quiet h := h.elim (fun h => absurd h (by simp)) fun h => ctx.record_suppressed _ _ _ h.2
  keep _ h := ctx.record_reported _ _ _ h
  loud _ _ h := ctx.record_loud _ _ _ h
  boolMode h := ctx.record_boolMode _ _ _ h

theorem of_report (base : String) (fault : Option Fault) :
    Verdict F (fault = none) ctx (ctx.report base fault) := by
  cases fault with
  | none => exact pass rfl
  | some fault => exact of_record (by simp) base fault.1 fault.2

theorem imp (h : Verdict F A ctx r) (hAB : A → B) (hBA : F → B → A) : Verdict F B ctx r :=
  ⟨fun hr => hAB (h.sound hr), fun hF hB => h.complete hF (hBA hF hB), h.same, h.quiet, h.keep,
    h.loud, h.boolMode⟩

theorem congr (h : Verdict F A ctx r) (hAB : A ↔ B) : Verdict F B ctx r :=
  h.imp hAB.mp fun _ => hAB.mpr

/-- One part after another, where a failure of the first already decides against `B`. -/
theorem trans {b : Bool} (h : Verdict F A ctx (b, ctx')) (h' : Verdict F B ctx' r)
    (hB : b = false → ¬ B) : Verdict F B ctx r := by
  have hb : r.1 = true → b = true := by
    intro hr
    by_contra hne
    exact hB (by simpa using hne) (h'.sound hr)
  refine ⟨h'.sound, h'.complete, ?_, ?_, ?_, ?_, ?_⟩
  · rintro (hr | hF)
    · exact (h.same (.inl (hb hr))).trans (h'.same (.inl hr))
    · exact (h.same (.inr hF)).trans (h'.same (.inr hF))
  · rintro (hr | ⟨hF, hs⟩)
    · exact (h'.quiet (.inl hr)).trans (h.quiet (.inl (hb hr)))
    · have hsame : ctx.Same ctx' := h.same (.inr hF)
      exact (h'.quiet (.inr ⟨hF, hsame.suppress.trans hs⟩)).trans (h.quiet (.inr ⟨hF, hs⟩))
  · exact fun hF hrep => h'.keep hF (h.keep hF hrep)
  · intro hF hr hl
    cases b with
    | false => exact h'.keep hF (h.loud hF rfl hl)
    | true => exact h'.loud hF hr (hl.same (h.same (.inr hF)))
  · exact fun hn => h'.boolMode (h.boolMode hn)

theorem andThen {f g : Ctx → Bool × Ctx} (h : Verdict F A ctx (f ctx))
    (h' : ∀ ctx', f ctx = (true, ctx') → ctx.Same ctx' → ctx'.errors = ctx.errors →
      Verdict F B ctx' (g ctx')) :
    Verdict F (A ∧ B) ctx (Castrum.andThen f g ctx) := by
  rcases hf : f ctx with ⟨_ | _, ctx'⟩
  · rw [hf] at h
    rw [Castrum.andThen, hf]
    refine ⟨fun hr => absurd hr (by simp), fun hF hAB => h.complete hF hAB.1, h.same, h.quiet,
      h.keep, h.loud, h.boolMode⟩
  · rw [hf] at h
    rw [Castrum.andThen, hf]
    have hB := h' ctx' hf (h.same (.inl rfl)) (h.quiet (.inl rfl))
    have hA : A := h.sound rfl
    exact h.trans (hB.congr (by simp [hA])) (by simp)

/-- The verdict of `b && fin`, where `b` was settled before. -/
theorem and_left {b : Bool} (h : Verdict F A ctx r) (hb : b = false → F → ctx.Loud → ctx.Reported) :
    Verdict F (b = true ∧ A) ctx (b && r.1, r.2) := by
  cases b with
  | true => simpa using h
  | false =>
    simp only [Bool.false_and, Bool.false_eq_true, false_and]
    refine ⟨fun h => absurd h (by simp), fun _ hf => hf.elim, fun hr => ?_, fun hr => ?_, h.keep,
      fun hF _ hl => h.keep hF (hb rfl hF hl), h.boolMode⟩
    · exact h.same (.inr (hr.resolve_left (by simp)))
    · exact h.quiet (.inr (hr.resolve_left (by simp)))

/-- What a settled flag `b` and a verdict leave reported together. -/
theorem reported {b b' : Bool} (h : Verdict F A ctx (b', ctx'))
    (hb : b = false → F → ctx.Loud → ctx.Reported) :
    (b && b') = false → F → ctx'.Loud → ctx'.Reported := by
  intro hand hF hl
  have hl' := hl.same (h.same (.inr hF)).symm
  cases b' with
  | false => exact h.loud hF rfl hl'
  | true => exact h.keep hF (hb (by simpa using hand) hF hl')

/-- What a part without side effects leaves behind. -/
theorem after {ctx'' : Ctx} {b : Bool} (h : Verdict F A ctx (b, ctx')) (hs : ctx'.Same ctx'')
    (he : ctx''.errors = ctx'.errors) : Verdict F A ctx (b, ctx'') where
  sound := h.sound
  complete := h.complete
  same hr := (h.same hr).trans hs
  quiet hr := he.trans (h.quiet hr)
  keep hF hr := (h.keep hF hr).of_errors he
  loud hF hr hl := (h.loud hF hr hl).of_errors he
  boolMode hn := he.trans (h.boolMode hn)

/-! ### Brackets -/

/-- Entered with a context that differs in the path, the depth or the capture only, and left with
these put back. -/
theorem bracket {inner outer : Ctx} {b : Bool} (h : Verdict F A inner (b, ctx'))
    (he : inner.errors = ctx.errors) (hs : inner.suppress = ctx.suppress)
    (hm : inner.maxErrors = ctx.maxErrors) (he' : outer.errors = ctx'.errors)
    (hsame : inner.Same ctx' → ctx.Same outer) : Verdict F A ctx (b, outer) where
  sound := h.sound
  complete := h.complete
  same hr := hsame (h.same hr)
  quiet hr := he'.trans ((h.quiet (hr.imp_right fun hF => ⟨hF.1, hs.trans hF.2⟩)).trans he)
  keep hF hrep := (h.keep hF (hrep.of_errors he)).of_errors he'
  loud hF hr hl := (h.loud hF hr ⟨hs.trans hl.1, he ▸ hl.2.1, hm ▸ hl.2.2⟩).of_errors he'
  boolMode hn := he'.trans (h.boolMode (he.trans hn))

end Verdict

/-- A decision without side effects: it is positive only where `A` holds, and surely where `C`
does. -/
structure Decision (C A : Prop) (ctx : Ctx) (r : Bool × Ctx) : Prop where
  sound : r.1 = true → A
  complete : C → r.1 = true
  same : ctx.Same r.2
  errors : r.2.errors = ctx.errors

theorem Decision.iff {A : Prop} {ctx : Ctx} {r : Bool × Ctx} (h : Decision A A ctx r) :
    r.1 = true ↔ A := ⟨h.sound, h.complete⟩

theorem Decision.trans {C A : Prop} {ctx ctx' : Ctx} {r : Bool × Ctx} (h : Decision C A ctx' r)
    (hs : ctx.Same ctx') (he : ctx'.errors = ctx.errors) : Decision C A ctx r :=
  ⟨h.sound, h.complete, hs.trans h.same, h.errors.trans he⟩

/-- **A suppressed sub-walk within the cap is a decision without side effects.** -/
theorem Verdict.withSuppressed {A : Prop} {ctx : Ctx} {f : Ctx → Bool × Ctx}
    (h : Verdict True A { ctx with suppress := true } (f { ctx with suppress := true })) :
    Decision A A ctx (ctx.withSuppressed f) where
  sound := h.sound
  complete := h.complete trivial
  same :=
    have hs := h.same (.inr trivial)
    ⟨rfl, hs.path, hs.depth, hs.maxErrors, hs.inputPtr, hs.detailed⟩
  errors := h.quiet (.inr ⟨trivial, rfl⟩)

/-- A verdict after a decision. -/
theorem Decision.before {F C A B : Prop} {ctx : Ctx} {r r' : Bool × Ctx} (h : Decision C A ctx r)
    (h' : Verdict F B r.2 r') : Verdict F B ctx r' := by
  have hpass : Verdict F True ctx (true, r.2) :=
    ⟨fun _ => trivial, fun _ _ => rfl, fun _ => h.same, fun _ => h.errors,
      fun _ hr => hr.of_errors h.errors, fun _ hb => absurd hb (by simp),
      fun hn => h.errors.trans hn⟩
  exact hpass.trans h' (by simp)

theorem Decision.report {F C A B : Prop} {ctx : Ctx} {r : Bool × Ctx} (h : Decision C A ctx r)
    (base : String) (fault : Option Fault) (hB : fault = none → B) (hB' : F → B → fault = none) :
    Verdict F B ctx (r.2.report base fault) :=
  h.before ((Verdict.of_report base fault).imp hB hB')

/-! ## Path steps and captures -/

section

variable (ctx : Ctx)

theorem Ctx.onCapture_eq (ptr : Nat) (f : Capture → Capture) :
    ∃ cap, ctx.onCapture ptr f = { ctx with capture := cap } := by
  unfold Ctx.onCapture
  split
  · exact ⟨ctx.capture, rfl⟩
  · split
    · exact ⟨ctx.capture, rfl⟩
    · exact ⟨_, rfl⟩

@[simp] theorem Ctx.onCapture_depth (ptr : Nat) (f : Capture → Capture) :
    (ctx.onCapture ptr f).depth = ctx.depth := by
  obtain ⟨cap, h⟩ := ctx.onCapture_eq ptr f
  rw [h]

@[simp] theorem Ctx.onCapture_errors (ptr : Nat) (f : Capture → Capture) :
    (ctx.onCapture ptr f).errors = ctx.errors := by
  obtain ⟨cap, h⟩ := ctx.onCapture_eq ptr f
  rw [h]

@[simp] theorem Ctx.pushKey_depth (key : Bytes) : (ctx.pushKey key).depth = ctx.depth := by
  unfold Ctx.pushKey
  split <;> rfl

@[simp] theorem Ctx.pushKey_errors (key : Bytes) : (ctx.pushKey key).errors = ctx.errors := by
  unfold Ctx.pushKey
  split <;> rfl

@[simp] theorem Ctx.pushIdx_depth (i : Nat) : (ctx.pushIdx i).depth = ctx.depth := by
  unfold Ctx.pushIdx
  split <;> rfl

@[simp] theorem Ctx.pushIdx_errors (i : Nat) : (ctx.pushIdx i).errors = ctx.errors := by
  unfold Ctx.pushIdx
  split <;> rfl

/-- Capture operations are invisible to verdicts. -/
theorem Verdict.onCapture {F A : Prop} {ctx ctx' : Ctx} {b : Bool} (h : Verdict F A ctx (b, ctx'))
    (ptr : Nat) (f : Capture → Capture) : Verdict F A ctx (b, ctx'.onCapture ptr f) := by
  obtain ⟨cap, hcap⟩ := ctx'.onCapture_eq ptr f
  rw [hcap]
  exact h.bracket rfl rfl rfl rfl fun hs =>
    ⟨hs.suppress, hs.path, hs.depth, hs.maxErrors, hs.inputPtr, hs.detailed⟩

theorem Verdict.of_onCapture {F A : Prop} {ctx : Ctx} {r : Bool × Ctx} {ptr : Nat}
    {f : Capture → Capture} (h : Verdict F A (ctx.onCapture ptr f) r) : Verdict F A ctx r := by
  obtain ⟨cap, hcap⟩ := ctx.onCapture_eq ptr f
  rw [hcap] at h
  exact h.bracket rfl rfl rfl rfl fun hs =>
    ⟨hs.suppress, hs.path, hs.depth, hs.maxErrors, hs.inputPtr, hs.detailed⟩

/-- A path step pushed before and popped after. -/
theorem Verdict.pop {F A : Prop} {ctx inner ctx' : Ctx} {b : Bool} (step : PathStep)
    (h : Verdict F A inner (b, ctx'))
    (hinner : inner = if ctx.errors.isSome then { ctx with path := ctx.path ++ [step] } else ctx) :
    Verdict F A ctx (b, ctx'.pop) := by
  cases he : ctx.errors.isSome with
  | true =>
    rw [if_pos he] at hinner
    subst hinner
    refine h.bracket rfl rfl rfl ?_ fun hs => ?_
    · unfold Ctx.pop
      split <;> rfl
    · rw [Ctx.pop, if_pos (by rw [hs.detailed]; exact he)]
      refine ⟨hs.suppress, ?_, hs.depth, hs.maxErrors, hs.inputPtr, hs.detailed⟩
      show ctx'.path.dropLast = ctx.path
      rw [hs.path, List.dropLast_concat]
  | false =>
    rw [if_neg (by rw [he]; simp)] at hinner
    subst hinner
    refine h.bracket rfl rfl rfl ?_ fun hs => ?_
    · unfold Ctx.pop
      split <;> rfl
    · rw [Ctx.pop, if_neg (by rw [hs.detailed, he]; simp)]
      exact hs

end

end Castrum
