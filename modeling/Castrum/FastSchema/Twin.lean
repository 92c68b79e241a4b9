import Castrum.FastSchema.Mute

/-!
# Castrum — two runs of one walk

One walk serves bool mode, detailed mode and derive capture. Here it is run twice over the same
bytes: once in bool mode, perhaps with a capture, and once in a context of the same depth. Both runs
pass or both fail. A pass has read a value, in both runs up to the same cursor; the bool run gives
its context back but for the depth where nothing is captured; and the other run keeps what it
recorded, and records a failure unless the walk is mute.

The other run may be detailed where no level is refused (`M`): a run that goes on behind a failure
would count more refused levels than one that stops.

* `Ctx.Pair`, `Twin` — the two contexts, and the two results;
* `Twin.trans`, `Twins.andThen`, `Twin.bracket` — parts of a walk compose;
* `WalkTwins` — the two runs of a walk at a cursor, with one lemma for each part of the walk;
* `validateLevels_twins` — the walk;
* `isValidBytes_wellFormed` — the gate: an accepted body is a JSON document;
* `validateWithCapture_verdict` — the verdict of a capturing validation is the plain one.
-/

namespace Castrum

open Ascii

open Cursor (Ends Eats Skips)

/-! ## Contexts

Bool mode and detailed mode run the same code on contexts that differ in the errors alone. -/

/-- The contexts of the two runs. -/
structure Ctx.Pair (M : Prop) (d : Nat) (ctx ctx' : Ctx) : Prop where
  plain : ctx.errors = none
  depth : ctx'.depth = ctx.depth
  mode : M ∨ ctx'.errors = none
  level : M → ctx.depth = d

/-- Nothing is captured at the addresses from `q` on, if there is one. -/
def Ctx.Silent (ctx : Ctx) (q : Option Nat) : Prop :=
  ctx.suppress = true ∨ ∀ p ∈ q, ∀ a, p ≤ a → ctx.inputPtr ≠ some a

/-- Only the depth differs. -/
def Ctx.Deep (ctx ctx' : Ctx) : Prop := ∃ d, ctx' = { ctx with depth := d }

/-- What was recorded is kept, and so is what decides whether more is. -/
structure Ctx.Steady (ctx ctx' : Ctx) : Prop where
  suppress : ctx'.suppress = ctx.suppress
  maxErrors : ctx'.maxErrors = ctx.maxErrors
  detailed : ctx'.errors.isSome = ctx.errors.isSome
  reported : ctx.Reported → ctx'.Reported

/-- Only the path, the capture and the address differ. -/
structure Ctx.Near (ctx ctx' : Ctx) : Prop where
  errors : ctx'.errors = ctx.errors
  depth : ctx'.depth = ctx.depth
  suppress : ctx'.suppress = ctx.suppress
  maxErrors : ctx'.maxErrors = ctx.maxErrors

section

variable {ctx ctx' ctx'' : Ctx} {M : Prop} {d p : Nat} {q : Option Nat}

theorem Ctx.Deep.refl (ctx : Ctx) : ctx.Deep ctx := ⟨ctx.depth, rfl⟩

theorem Ctx.Deep.trans (h : ctx.Deep ctx') (h' : ctx'.Deep ctx'') : ctx.Deep ctx'' := by
  obtain ⟨d, rfl⟩ := h
  obtain ⟨d', rfl⟩ := h'
  exact ⟨d', rfl⟩

theorem Ctx.Deep.errors (h : ctx.Deep ctx') : ctx'.errors = ctx.errors := by
  obtain ⟨d, rfl⟩ := h
  rfl

theorem Ctx.Silent.deep (h : ctx.Silent q) (hd : ctx.Deep ctx') : ctx'.Silent q := by
  obtain ⟨d, rfl⟩ := hd
  exact h

theorem Ctx.Silent.mono {p' : Nat} (h : ctx.Silent (some p)) (hp : p ≤ p') : ctx.Silent (some p') := by
  refine h.imp_right fun hoff r hr a ha => hoff p rfl a ?_
  cases hr
  exact hp.trans ha

theorem Ctx.Silent.onCapture (h : ctx.Silent (some p)) (f : Capture → Capture) :
    ctx.onCapture p f = ctx := by
  unfold Ctx.onCapture
  split
  · rfl
  · rw [if_pos]
    exact h.imp_right fun hoff heq => hoff p rfl p le_rfl heq.symm

theorem Ctx.record_eq (h : ctx.errors = none) (base keyword message : String) :
    ctx.record base keyword message = ctx := by
  unfold Ctx.record
  rw [h]
  split <;> rfl

theorem Ctx.report_eq (h : ctx.errors = none) (base : String) (fault : Option Fault) :
    (ctx.report base fault).2 = ctx := by
  cases fault with
  | none => rfl
  | some fault => exact Ctx.record_eq h base fault.1 fault.2

theorem Ctx.pushKey_eq (h : ctx.errors = none) (key : Bytes) : ctx.pushKey key = ctx := by
  rw [Ctx.pushKey, if_neg (by rw [h]; simp)]

theorem Ctx.pushIdx_eq (h : ctx.errors = none) (i : Nat) : ctx.pushIdx i = ctx := by
  rw [Ctx.pushIdx, if_neg (by rw [h]; simp)]

theorem Ctx.pop_eq (h : ctx.errors = none) : ctx.pop = ctx := by
  rw [Ctx.pop, if_neg (by rw [h]; simp)]

theorem Ctx.Steady.refl (ctx : Ctx) : ctx.Steady ctx := ⟨rfl, rfl, rfl, id⟩

theorem Ctx.Steady.trans (h : ctx.Steady ctx') (h' : ctx'.Steady ctx'') : ctx.Steady ctx'' :=
  ⟨h'.suppress.trans h.suppress, h'.maxErrors.trans h.maxErrors, h'.detailed.trans h.detailed,
    fun hr => h'.reported (h.reported hr)⟩

theorem Ctx.Steady.loud (h : ctx.Steady ctx') (hl : ctx.Loud) : ctx'.Loud :=
  ⟨h.suppress.trans hl.1, h.detailed.trans hl.2.1, h.maxErrors ▸ hl.2.2⟩

theorem Ctx.Near.steady (h : ctx.Near ctx') : ctx.Steady ctx' :=
  ⟨h.suppress, h.maxErrors, by rw [h.errors], fun hr => hr.of_errors h.errors⟩

theorem Ctx.Near.trans (h : ctx.Near ctx') (h' : ctx'.Near ctx'') : ctx.Near ctx'' :=
  ⟨h'.errors.trans h.errors, h'.depth.trans h.depth, h'.suppress.trans h.suppress,
    h'.maxErrors.trans h.maxErrors⟩

theorem Ctx.onCapture_near (ctx : Ctx) (ptr : Nat) (f : Capture → Capture) :
    ctx.Near (ctx.onCapture ptr f) := by
  obtain ⟨cap, h⟩ := ctx.onCapture_eq ptr f
  rw [h]
  exact ⟨rfl, rfl, rfl, rfl⟩

theorem Ctx.pushKey_near (ctx : Ctx) (key : Bytes) : ctx.Near (ctx.pushKey key) := by
  unfold Ctx.pushKey
  split <;> exact ⟨rfl, rfl, rfl, rfl⟩

theorem Ctx.pushIdx_near (ctx : Ctx) (i : Nat) : ctx.Near (ctx.pushIdx i) := by
  unfold Ctx.pushIdx
  split <;> exact ⟨rfl, rfl, rfl, rfl⟩

theorem Ctx.pop_near (ctx : Ctx) : ctx.Near ctx.pop := by
  unfold Ctx.pop
  split <;> exact ⟨rfl, rfl, rfl, rfl⟩

theorem Ctx.record_steady (ctx : Ctx) (base keyword message : String) :
    ctx.Steady (ctx.record base keyword message) ∧
      (ctx.record base keyword message).depth = ctx.depth := by
  have h := ctx.record_same base keyword message
  exact ⟨⟨h.suppress, h.maxErrors, h.detailed, ctx.record_reported _ _ _⟩, h.depth⟩

theorem Ctx.report_steady (ctx : Ctx) (base : String) (fault : Option Fault) :
    ctx.Steady (ctx.report base fault).2 ∧ (ctx.report base fault).2.depth = ctx.depth := by
  cases fault with
  | none => exact ⟨.refl ctx, rfl⟩
  | some fault => exact ctx.record_steady base fault.1 fault.2

theorem Ctx.Pair.of_loud (h : ctx.Pair M d ctx') (hl : ctx'.Loud) : M := by
  refine h.mode.resolve_right fun hn => ?_
  have := hl.2.1
  rw [hn] at this
  cases this

/-- The second context, and the second results, in any mode. -/
theorem Ctx.Pair.steady (h : ctx.Pair M d ctx') (hs : ctx'.Steady ctx'')
    (hd : ctx''.depth = ctx'.depth) : ctx.Pair M d ctx'' := by
  refine ⟨h.plain, hd.trans h.depth, h.mode.imp_right fun hn => ?_, h.level⟩
  have := hs.detailed
  rw [hn] at this
  simpa using this

theorem Ctx.pair_plain (h : ctx.errors = none) : ctx.Pair False 0 ctx := ⟨h, rfl, .inr h, False.elim⟩

/-- A context in any mode, next to itself in bool mode. -/
theorem Ctx.Pair.alone (hM : M) (hd : ctx.depth = d) :
    ({ ctx with errors := none } : Ctx).Pair M d ctx := ⟨rfl, rfl, .inl hM, fun _ => hd⟩

end

/-- A failed result, in any mode. -/
structure Failed (ctx : Ctx) (r : Walk) : Prop where
  ok : r.ok = false
  steady : ctx.Steady r.ctx
  depth : r.ctx.depth = ctx.depth

theorem Failed.refl (c : Cursor) (ctx : Ctx) : Failed ctx ⟨false, c, ctx⟩ := ⟨rfl, .refl ctx, rfl⟩

theorem Failed.after {ctx ctx' : Ctx} {r : Walk} (h : Failed ctx' r)
    (hs : ctx.Steady ctx' ∧ ctx'.depth = ctx.depth) : Failed ctx r :=
  ⟨h.ok, hs.1.trans h.steady, h.depth.trans hs.2⟩

theorem Failed.report (c : Cursor) (ctx : Ctx) {b : Bool} (hb : b = false) (base : String)
    (fault : Option Fault) :
    Failed ctx ⟨b && (ctx.report base fault).1, c, (ctx.report base fault).2⟩ := by
  obtain ⟨hs, hd⟩ := ctx.report_steady base fault
  exact ⟨by rw [hb, Bool.false_and], hs, hd⟩

/-! ## Two results

Both runs give one verdict. In detailed mode a failure was recorded, or the walk left through a
silent exit. -/

/-- The results `r` and `r'` of the two runs of a part of the walk. A pass gives `P`, and a failure
that is not recorded gives `O`. -/
structure Twin (M : Prop) (d : Nat) (P O : Prop) (q : Option Nat) (ctx ctx' : Ctx)
    (r r' : Bool × Ctx) : Prop where
  ok : r'.1 = r.1
  pair : Ctx.Pair M d r.2 r'.2
  deep : ctx.Silent q → ctx.Deep r.2
  steady : ctx'.Steady r'.2
  post : r.1 = true → P
  loud : r.1 = false → ctx'.Loud → r'.2.Reported ∨ O

/-- Two runs of one part of the walk. -/
def Twins (M : Prop) (d : Nat) (P O : Prop) (q : Option Nat) (f : Ctx → Bool × Ctx) : Prop :=
  ∀ ctx ctx' : Ctx, ctx.Pair M d ctx' → Twin M d P O q ctx ctx' (f ctx) (f ctx')

section

variable {M : Prop} {d : Nat} {P P' O O' : Prop} {q q' : Option Nat} {ctx ctx' : Ctx}
variable {r r' : Bool × Ctx}

namespace Twin

theorem pass (hp : ctx.Pair M d ctx') (h : P) : Twin M d P O q ctx ctx' (true, ctx) (true, ctx') :=
  ⟨rfl, hp, fun _ => .refl ctx, .refl ctx', fun _ => h, by simp⟩

/-- A failure that is not recorded. -/
theorem silent (hp : ctx.Pair M d ctx') (h : M → O) :
    Twin M d P O q ctx ctx' (false, ctx) (false, ctx') :=
  ⟨rfl, hp, fun _ => .refl ctx, .refl ctx', by simp, fun _ hl => .inr (h (hp.of_loud hl))⟩

theorem record (hp : ctx.Pair M d ctx') (base keyword message : String) :
    Twin M d P O q ctx ctx' (false, ctx.record base keyword message)
      (false, ctx'.record base keyword message) := by
  obtain ⟨hs, hd⟩ := ctx'.record_steady base keyword message
  rw [Ctx.record_eq hp.plain]
  exact ⟨rfl, hp.steady hs hd, fun _ => .refl ctx, hs, by simp,
    fun _ hl => .inl (ctx'.record_loud _ _ _ hl)⟩

theorem report (hp : ctx.Pair M d ctx') (base : String) (fault : Option Fault) :
    Twin M d True O q ctx ctx' (ctx.report base fault) (ctx'.report base fault) := by
  cases fault with
  | none => exact pass hp trivial
  | some fault => exact record hp base fault.1 fault.2

theorem imp (h : Twin M d P O q ctx ctx' r r') (hP : P → P') (hO : O → O') :
    Twin M d P' O' q ctx ctx' r r' :=
  ⟨h.ok, h.pair, h.deep, h.steady, fun hr => hP (h.post hr), fun hr hl => (h.loud hr hl).imp_right hO⟩

/-- A part that captures at other addresses. -/
theorem at_ (h : Twin M d P O q' ctx ctx' r r') (hq : ctx.Silent q → ctx.Silent q') :
    Twin M d P O q ctx ctx' r r' :=
  ⟨h.ok, h.pair, fun hs => h.deep (hq hs), h.steady, h.post, h.loud⟩

/-- One part after another, where the verdict is that of the second. -/
theorem trans {s s' : Bool × Ctx} (h : Twin M d P' O' q ctx ctx' r r')
    (h' : Twin M d P O q r.2 r'.2 s s') : Twin M d P O q ctx ctx' s s' where
  ok := h'.ok
  pair := h'.pair
  deep hs := (h.deep hs).trans (h'.deep (hs.deep (h.deep hs)))
  steady := h.steady.trans h'.steady
  post := h'.post
  loud hs hl := h'.loud hs (h.steady.loud hl)

/-- Entered with a context that differs in the path or the capture, and left with these put back. -/
theorem bracket {inner inner' ctx₁ ctx₁' outer outer' : Ctx} {b b' : Bool}
    (h : Twin M d P O q inner inner' (b, ctx₁) (b', ctx₁')) (hin : ctx'.Near inner')
    (hout : ctx₁.Near outer) (hout' : ctx₁'.Near outer')
    (hdeep : ctx.Silent q → inner = ctx ∧ (ctx.Deep ctx₁ → outer = ctx₁)) :
    Twin M d P O q ctx ctx' (b, outer) (b', outer') where
  ok := h.ok
  pair := by
    refine ⟨hout.errors.trans h.pair.plain, ?_, h.pair.mode.imp_right hout'.errors.trans, fun hM => ?_⟩
    · exact hout'.depth.trans (h.pair.depth.trans hout.depth.symm)
    · exact hout.depth.trans (h.pair.level hM)
  deep hs := by
    obtain ⟨rfl, hback⟩ := hdeep hs
    have hd := h.deep hs
    rw [hback hd]
    exact hd
  steady := hin.steady.trans (h.steady.trans hout'.steady)
  post := h.post
  loud hr hl := (h.loud hr (hin.steady.loud hl)).imp_left fun hr => hout'.steady.reported hr

/-- The bool run has failed; the other one goes on. -/
theorem goes_on {ctx₁ ctx₁' : Ctx} {r : Walk}
    (h : Twin M d P O q ctx ctx' (false, ctx₁) (false, ctx₁')) (hr : Failed ctx₁' r) :
    Twin M d P' O q ctx ctx' (false, ctx₁) (r.ok, r.ctx) := by
  rw [hr.ok]
  exact ⟨rfl, h.pair.steady hr.steady hr.depth, h.deep, h.steady.trans hr.steady, by simp,
    fun _ hl => (h.loud rfl hl).imp_left hr.steady.reported⟩

/-- The verdict of `x && b`, where a settled `x` has been reported. -/
theorem and_left {x b b' : Bool} {ctx₁ ctx₁' : Ctx}
    (h : Twin M d True O q ctx ctx' (b, ctx₁) (b', ctx₁'))
    (hx : x = false → ctx'.Loud → ctx'.Reported) :
    Twin M d True O q ctx ctx' (x && b, ctx₁) (x && b', ctx₁') := by
  cases x with
  | true => simpa using h
  | false =>
    exact ⟨rfl, h.pair, h.deep, h.steady, fun _ => trivial,
      fun _ hl => .inl (h.steady.reported (hx rfl hl))⟩

theorem onCapture {p : Nat} {b b' : Bool} {ctx₁ ctx₁' : Ctx}
    (h : Twin M d P O (some p) ctx ctx' (b, ctx₁) (b', ctx₁')) (f : Capture → Capture) :
    Twin M d P O (some p) ctx ctx' (b, ctx₁.onCapture p f) (b', ctx₁'.onCapture p f) :=
  h.bracket ⟨rfl, rfl, rfl, rfl⟩ (ctx₁.onCapture_near p f) (ctx₁'.onCapture_near p f)
    fun hs => ⟨rfl, fun hd => (hs.deep hd).onCapture f⟩

end Twin

namespace Twins

theorem imp {f : Ctx → Bool × Ctx} (h : Twins M d P O q f) (hP : P → P') (hO : O → O') :
    Twins M d P' O' q f := fun ctx ctx' hp => (h ctx ctx' hp).imp hP hO

theorem andThen {f g : Ctx → Bool × Ctx} {R O'' : Prop} (hf : Twins M d P O q f)
    (hg : P → Twins M d R O' q g) (hO : O → O'') (hO' : P → O' → O'') :
    Twins M d (P ∧ R) O'' q (Castrum.andThen f g) := by
  intro ctx ctx' hp
  have h := hf ctx ctx' hp
  unfold Castrum.andThen
  generalize f ctx = r at h ⊢
  generalize f ctx' = r' at h ⊢
  obtain ⟨b, ctx₁⟩ := r
  obtain ⟨b', ctx₁'⟩ := r'
  obtain rfl : b' = b := h.ok
  cases b' with
  | false => exact ⟨rfl, h.pair, h.deep, h.steady, by simp, fun _ hl => (h.loud rfl hl).imp_right hO⟩
  | true =>
    have hP : P := h.post rfl
    exact h.trans ((hg hP ctx₁ ctx₁' h.pair).imp (fun hP' => ⟨hP, hP'⟩) (hO' hP))

/-- What a run in any mode leaves of its context. -/
theorem alone {f : Ctx → Bool × Ctx} (h : Twins M d P O q f) (hM : M) {ctx : Ctx}
    (hd : ctx.depth = d) : ctx.Steady (f ctx).2 ∧ (f ctx).2.depth = ctx.depth := by
  have := h _ ctx (.alone hM hd)
  exact ⟨this.steady, this.pair.depth.trans ((this.pair.level hM).trans hd.symm)⟩

/-- A part that captures nothing. -/
theorem deep {f : Ctx → Bool × Ctx} (h : Twins False 0 P O none f) {ctx : Ctx}
    (hn : ctx.errors = none) : ctx.Deep (f ctx).2 :=
  (h ctx ctx (Ctx.pair_plain hn)).deep (.inr (by simp))

end Twins

end

/-! ## Two walks -/

/-- Whatever text of a value stands at `c` has `A`. -/
def TextHas (A : Json → Prop) (c : Cursor) : Prop :=
  ∀ ws s v t, IsWs ws → IsText v s → Ends v s t → c.rest = ws ++ (s ++ t) → A v

/-- A walk has passed at `c`. -/
def Passed (A : Json → Prop) (c : Cursor) : Prop := TextHas A c ∧ ∃ c', Reads (fun _ => True) c c'

/-- The results of two runs of a walk. A pass stops both at one cursor, which has `E`. -/
structure WalkTwin (M : Prop) (d : Nat) (P O : Prop) (E : Cursor → Prop) (q : Option Nat)
    (ctx ctx' : Ctx) (r r' : Walk) : Prop where
  twin : Twin M d P O q ctx ctx' (r.ok, r.ctx) (r'.ok, r'.ctx)
  ends : r.ok = true → r'.c = r.c ∧ E r.c

/-- Two runs of a walk at `c`: a pass has read a value with `A`. -/
def WalkTwins (M : Prop) (d : Nat) (A : Json → Prop) (O : Prop) (c : Cursor) (f : Ctx → Walk) :
    Prop :=
  ∀ ctx ctx' : Ctx, ctx.Pair M d ctx' → WalkTwin M d (TextHas A c) O (Reads (fun _ => True) c)
    (some c.ptr) ctx ctx' (f ctx) (f ctx')

theorem WalkTwins.alone {M : Prop} {d : Nat} {A : Json → Prop} {O : Prop} {c : Cursor} {f : Ctx → Walk}
    (h : WalkTwins M d A O c f) (hM : M) {ctx : Ctx} (hd : ctx.depth = d) :
    ctx.Steady (f ctx).ctx ∧ (f ctx).ctx.depth = ctx.depth :=
  Twins.alone (f := fun ctx => ((f ctx).ok, (f ctx).ctx)) (fun ctx ctx' hp => (h ctx ctx' hp).twin) hM hd

/-- A walk in bool mode, whatever is captured. -/
abbrev Walks {S : Oracles} (walk : FastNode S.Regex → Cursor → Ctx → Walk) : Prop :=
  ∀ sub, True → ∀ c, WalkTwins False 0 (fun _ => True) True c (walk sub c)

section

variable {A B : Json → Prop} {c c' c'' : Cursor} {s ws : Bytes} {v : Json}

theorem Reads.mk_of (h : Reads (fun _ => True) c c') (hm : TextHas A c) : Reads A c c' := by
  obtain ⟨ws, s, v, hws, hs, hends, heats, -⟩ := h
  exact ⟨ws, s, v, hws, hs, hends, heats, hm ws s v _ hws hs hends (by rw [heats.1, List.append_assoc])⟩

theorem Passed.reads (h : Passed A c) : ∃ c', Reads A c c' :=
  h.2.imp fun _ hr => hr.mk_of h.1

theorem Reads.ptr_eq (h : Reads A c c') : c'.ptr = c.ptr := by
  obtain ⟨ws, s, v, -, -, -, heats, -⟩ := h
  exact heats.ptr_eq

theorem Reads.after (hws : IsWs ws) (h : Eats c ws c') (hr : Reads A c' c'') : Reads A c c'' := by
  obtain ⟨ws', s, v, hws', hs, hends, heats, hA⟩ := hr
  refine ⟨ws ++ ws', s, v, hws.append hws', hs, hends, ?_, hA⟩
  rw [List.append_assoc]
  exact h.trans heats

theorem Reads.of_eats (hv : IsText v s) (hne : ∀ tok, v ≠ .num tok) (h : Eats c s c') :
    Reads (fun _ => True) c c' :=
  ⟨[], s, v, IsWs.nil, hv, .inr fun tok heq => absurd heq (hne tok), h, trivial⟩

/-- A number that is scanned ends where the scan does. -/
theorem Reads.of_number {tok : Bytes} {i : Bool} (h : c.number = (some (tok, i), c')) :
    Reads (fun _ => True) c c' := by
  obtain ⟨htok, heats⟩ := Cursor.number_sound h
  refine ⟨[], tok, .num tok, IsWs.nil, (isText_iff _ _).mpr ⟨rfl, htok⟩, .inr ?_, heats, trivial⟩
  rintro tok' heq
  cases heq
  rw [← heats.1]
  unfold Cursor.number at h
  dsimp only at h
  split at h
  · next hok =>
    obtain ⟨tok', t, hs, -, hlen⟩ := Cursor.scanNumber_sound hok
    refine ⟨hok, ?_⟩
    rw [hlen, show c.rest.take tok'.length = tok' by rw [hs, List.take_left]] at h
    rw [hlen]
    cases h
    rfl
  · cases h

theorem Reads.of_skip {k : Nat} (h : c.skipValue k = (true, c')) : Reads (fun _ => True) c c' := by
  obtain ⟨ws, s, v, hws, hs, -, heats, hends⟩ := Cursor.skipValue_ends h
  exact ⟨ws, s, v, hws, hs, hends, heats, trivial⟩

theorem TextHas.any : TextHas (fun _ => True) c := fun _ _ _ _ _ _ _ _ => trivial

theorem TextHas.imp (h : TextHas A c) (hAB : ∀ v, A v → B v) : TextHas B c :=
  fun ws s v t hws hs ht hc => hAB v (h ws s v t hws hs ht hc)

/-- What the slice of a value means. -/
theorem TextHas.of_slice {k : Nat} (hrun : c.skipValue k = (true, c')) (h : TextHas A (c'.slice c.pos)) :
    TextHas A c := by
  intro ws s v t hws hs ht hc
  rw [(Cursor.skipValue_text hrun hws hs ht hc).slice_eq] at h
  exact h ws s v [] hws hs (.inl Stops.nil) (by simp)

end

section

variable {S : Oracles} {W : FastNode S.Regex → Json → Prop} {Q : FastNode S.Regex → Cursor → Prop}
variable {raw : Cursor} {xs ys : List (FastNode S.Regex)}

theorem SomeMute.head {sub : FastNode S.Regex} (h : Q sub raw) : SomeMute W Q (sub :: xs) raw :=
  ⟨[], sub, xs, rfl, by simp, h⟩

theorem SomeMute.append_left (h : SomeMute W Q xs raw) : SomeMute W Q (xs ++ ys) raw := by
  obtain ⟨pre, sub, post, rfl, hpre, hQ⟩ := h
  exact ⟨pre, sub, post ++ ys, by simp, hpre, hQ⟩

theorem SomeMute.append_right (hxs : ∀ x ∈ xs, Passed (W x) raw) (h : SomeMute W Q ys raw) :
    SomeMute W Q (xs ++ ys) raw := by
  obtain ⟨pre, sub, post, rfl, hpre, hQ⟩ := h
  refine ⟨xs ++ pre, sub, post, by simp, fun p hp => ?_, hQ⟩
  exact (List.mem_append.mp hp).elim (fun hp => (hxs p hp).reads) (hpre p)

theorem SomeMute.cons {sub : FastNode S.Regex} (hsub : Passed (W sub) raw) (h : SomeMute W Q ys raw) :
    SomeMute W Q (sub :: ys) raw :=
  List.singleton_append ▸ append_right (List.forall_mem_singleton.mpr hsub) h

end

/-! ## Sub-walks and combinators -/

section

variable {S : Oracles} {walk : FastNode S.Regex → Cursor → Ctx → Walk} {M : Prop} {d : Nat}
variable {G : FastNode S.Regex → Prop} {W : FastNode S.Regex → Json → Prop}
variable {Q : FastNode S.Regex → Cursor → Prop}

theorem skipWalk_twins (c : Cursor) :
    WalkTwins M d (fun _ => True) ((c.skipValue d).1 = false) c (skipWalk c) := by
  intro ctx ctx' hp
  unfold skipWalk
  rw [hp.depth]
  rcases hrun : c.skipValue ctx.depth with ⟨_ | _, c'⟩
  · exact ⟨.silent hp fun hM => by rw [← hp.level hM, hrun], by simp⟩
  · exact ⟨.pass hp .any, fun _ => ⟨rfl, .of_skip hrun⟩⟩

variable (hwalk : ∀ sub, G sub → ∀ c, WalkTwins M d (W sub) (Q sub c) c (walk sub c))

include hwalk

theorem onRaw_twins {sub : FastNode S.Regex} (hsub : G sub) (raw : Cursor) :
    Twins M d (Passed (W sub) raw) (Q sub raw) (some raw.ptr) (onRaw S walk sub raw) := by
  intro ctx ctx' hp
  obtain ⟨ht, hends⟩ := hwalk sub hsub raw ctx ctx' hp
  exact ⟨ht.ok, ht.pair, ht.deep, ht.steady, fun hok => ⟨ht.post hok, _, (hends hok).2⟩, ht.loud⟩

/-- A suppressed sub-walk records nothing, and leaves nothing behind. -/
theorem probe_twins {sub : FastNode S.Regex} (hsub : G sub) (raw : Cursor) :
    Twins M d (Passed (W sub) raw) True none (probe S walk raw sub) := by
  intro ctx ctx' hp
  have h := onRaw_twins hwalk hsub raw { ctx with suppress := true } { ctx' with suppress := true }
    ⟨hp.plain, hp.depth, hp.mode, hp.level⟩
  refine ⟨h.ok, ⟨h.pair.plain, h.pair.depth, h.pair.mode, h.pair.level⟩, fun _ => ?_,
    ⟨rfl, h.steady.maxErrors, h.steady.detailed, fun hr => h.steady.reported hr⟩, h.post,
    fun _ _ => .inr trivial⟩
  obtain ⟨d, hd⟩ := h.deep (.inl rfl)
  refine ⟨d, ?_⟩
  change { (onRaw S walk sub raw { ctx with suppress := true }).2 with suppress := ctx.suppress } = _
  rw [hd]

theorem walkAll_twins (raw : Cursor) {subs : List (FastNode S.Regex)} (hsubs : ∀ sub ∈ subs, G sub) :
    Twins M d True (SomeMute W Q subs raw) (some raw.ptr) (walkAll S walk raw subs) := by
  induction subs with
  | nil => exact fun ctx ctx' hp => .pass hp trivial
  | cons sub subs ih =>
    have h := (onRaw_twins hwalk (hsubs sub (by simp)) raw).andThen
      (fun _ => ih fun x hx => hsubs x (List.mem_cons_of_mem _ hx)) SomeMute.head
      SomeMute.cons
    exact h.imp (fun _ => trivial) id

theorem probeAny_twins (raw : Cursor) {subs : List (FastNode S.Regex)} (hsubs : ∀ sub ∈ subs, G sub) :
    Twins M d True True none (probeAny S walk raw subs) := by
  induction subs with
  | nil => exact fun ctx ctx' hp => .silent hp fun _ => trivial
  | cons sub subs ih =>
    intro ctx ctx' hp
    have h := probe_twins hwalk (hsubs sub (by simp)) raw ctx ctx' hp
    rw [probeAny, probeAny]
    generalize probe S walk raw sub ctx = r at h ⊢
    generalize probe S walk raw sub ctx' = r' at h ⊢
    obtain ⟨b, ctx₁⟩ := r
    obtain ⟨b', ctx₁'⟩ := r'
    obtain rfl : b' = b := h.ok
    cases b' with
    | false => exact h.trans (ih (fun x hx => hsubs x (List.mem_cons_of_mem _ hx)) _ _ h.pair)
    | true => exact h.imp (fun _ => trivial) id

/-- As many branches pass in both runs. -/
theorem probeCount_twins (raw : Cursor) {subs : List (FastNode S.Regex)} (hsubs : ∀ sub ∈ subs, G sub)
    {ctx ctx' : Ctx} (hp : ctx.Pair M d ctx') :
    (probeCount S walk raw subs ctx').1 = (probeCount S walk raw subs ctx).1 ∧
      Twin M d True True none ctx ctx' (true, (probeCount S walk raw subs ctx).2)
        (true, (probeCount S walk raw subs ctx').2) := by
  induction subs generalizing ctx ctx' with
  | nil => exact ⟨rfl, .pass hp trivial⟩
  | cons sub subs ih =>
    have h := probe_twins hwalk (hsubs sub (by simp)) raw ctx ctx' hp
    obtain ⟨hcount, ht⟩ := ih (fun x hx => hsubs x (List.mem_cons_of_mem _ hx)) h.pair
    simp only [probeCount]
    exact ⟨by rw [hcount, h.ok], h.trans ht⟩

section

variable {comb : FastComb (FastNode S.Regex)} (base : String) (raw : Cursor)

theorem combAnyOf_twins (hsubs : ∀ sub ∈ comb.anyOf, G sub) :
    Twins M d True False none (combAnyOf S walk comb base raw) := by
  intro ctx ctx' hp
  have h := probeAny_twins hwalk raw hsubs ctx ctx' hp
  unfold combAnyOf
  split
  · exact .pass hp trivial
  · dsimp only
    rw [h.ok]
    exact h.trans (.report h.pair base _)

theorem combOneOf_twins (hsubs : ∀ sub ∈ comb.oneOf, G sub) :
    Twins M d True False none (combOneOf S walk comb base raw) := by
  intro ctx ctx' hp
  obtain ⟨hcount, h⟩ := probeCount_twins hwalk raw hsubs hp
  unfold combOneOf
  split
  · exact .pass hp trivial
  · dsimp only
    rw [hcount]
    exact h.trans (.report h.pair base _)

theorem combNot_twins (hsub : ∀ sub ∈ comb.not, G sub) :
    Twins M d True False none (combNot S walk comb base raw) := by
  intro ctx ctx' hp
  unfold combNot
  split
  · exact .pass hp trivial
  · next sub hnot =>
    have h := probe_twins hwalk (hsub sub hnot) raw ctx ctx' hp
    dsimp only
    rw [h.ok]
    exact h.trans (.report h.pair base _)

variable {node : FastNode S.Regex} (hnode : ∀ sub, node.Sub sub → G sub)

include hnode

theorem combIf_twins (hc : node.comb = some comb) :
    Twins M d True (CombMute W Q node raw) (some raw.ptr) (combIf S walk comb raw) := by
  intro ctx ctx' hp
  unfold combIf
  split
  · exact .pass hp trivial
  · next i t e hif =>
    have h := probe_twins hwalk (hnode i (.ifNode hc hif)) raw ctx ctx' hp
    dsimp only
    rw [h.ok]
    generalize probe S walk raw i ctx = r at h ⊢
    generalize probe S walk raw i ctx' = r' at h ⊢
    obtain ⟨_ | _, ctx₁⟩ := r
    · cases e with
      | none => exact (h.at_ fun _ => .inr (by simp)).trans (.pass h.pair trivial)
      | some sub =>
        have hsub := onRaw_twins hwalk (hnode sub (.elseNode hc hif)) raw _ _ h.pair
        exact (h.at_ fun _ => .inr (by simp)).trans (hsub.imp (fun _ => trivial) (.elseNode hc hif))
    · cases t with
      | none => exact (h.at_ fun _ => .inr (by simp)).trans (.pass h.pair trivial)
      | some sub =>
        have hsub := onRaw_twins hwalk (hnode sub (.thenNode hc hif)) raw _ _ h.pair
        obtain ⟨c, hreads⟩ := (h.post rfl).reads
        exact (h.at_ fun _ => .inr (by simp)).trans
          (hsub.imp (fun _ => trivial) (.thenNode hc hif hreads))

theorem validateCombRaw_twins :
    Twins M d True (CombMute W Q node raw) (some raw.ptr) (validateCombRaw S walk node raw) := by
  intro ctx ctx' hp
  unfold validateCombRaw
  split
  · exact .pass hp trivial
  · next comb hc =>
    have any : ∀ {f}, Twins M d True False none f →
        Twins M d True (CombMute W Q node raw) (some raw.ptr) f := fun hf ctx ctx' hp =>
      ((hf ctx ctx' hp).at_ fun _ => .inr (by simp)).imp id False.elim
    have hall := walkAll_twins hwalk raw fun sub hsub => hnode sub (.allOf hc hsub)
    have hany := any (combAnyOf_twins hwalk node.base raw fun sub hsub => hnode sub (.anyOf hc hsub))
    have hone := any (combOneOf_twins hwalk node.base raw fun sub hsub => hnode sub (.oneOf hc hsub))
    have hnot := any (combNot_twins hwalk node.base raw fun sub hsub => hnode sub (.not hc hsub))
    have hif := combIf_twins hwalk raw hnode hc
    refine ((hall.andThen (fun _ => hany.andThen (fun _ => hone.andThen (fun _ => hnot.andThen
      (fun _ => hif) id fun _ => id) id fun _ => id) id fun _ => id) (.allOf hc) fun _ => id).imp
      (fun _ => trivial) id) ctx ctx' hp

end

/-! ## Members -/

/-- The schemas of an object's members. -/
structure FastObject.Each {S : Oracles} (G : FastNode S.Regex → Prop)
    (o : FastObject S.Regex (FastNode S.Regex)) : Prop where
  prop : ∀ key sub, o.prop? key = some sub → G sub
  pattern : ∀ p ∈ o.patterns, G p.2
  additional : ∀ sub, o.additional = .schema sub → G sub

theorem walkPatterns_twins (key : Bytes) (raw : Cursor)
    {patterns : List (S.Regex × FastNode S.Regex)} (hG : ∀ p ∈ patterns, G p.2) {ctx ctx' : Ctx}
    (hp : ctx.Pair M d ctx') :
    Twin M d (∀ p ∈ patterns, covers S key p.1 = true → Passed (W p.2) raw)
      (SomeMute W Q ((patterns.filter fun p => covers S key p.1).map Prod.snd) raw) (some raw.ptr)
      ctx ctx' (walkPatterns S walk key raw patterns ctx).2
      (walkPatterns S walk key raw patterns ctx').2 := by
  induction patterns generalizing ctx ctx' with
  | nil => exact .pass hp (by simp)
  | cons p patterns ih =>
    obtain ⟨re, sub⟩ := p
    have htail : ∀ p ∈ patterns, G p.2 := fun p hp => hG p (List.mem_cons_of_mem _ hp)
    rw [walkPatterns, walkPatterns]
    -- Only the patterns that cover the key are walked, so only these count on either side.
    by_cases hcov : covers S key re = true
    · rw [if_pos hcov, if_pos hcov, show ((re, sub) :: patterns).filter (fun p => covers S key p.1) =
        (re, sub) :: patterns.filter _ from List.filter_cons_of_pos hcov, List.map_cons]
      have h := onRaw_twins hwalk (hG (re, sub) (by simp)) raw ctx ctx' hp
      generalize onRaw S walk sub raw ctx = r at h ⊢
      generalize onRaw S walk sub raw ctx' = r' at h ⊢
      obtain ⟨b, ctx₁⟩ := r
      obtain ⟨b', ctx₁'⟩ := r'
      obtain rfl : b' = b := h.ok
      cases b' with
      | false =>
        exact ⟨rfl, h.pair, h.deep, h.steady, by simp,
          fun _ hl => (h.loud rfl hl).imp_right SomeMute.head⟩
      | true =>
        have hsub : Passed (W sub) raw := h.post rfl
        refine h.trans ((ih htail h.pair).imp (fun hall => ?_) fun hmute => ?_)
        · exact List.forall_mem_cons.mpr ⟨fun _ => hsub, hall⟩
        · exact .cons hsub hmute
    · rw [if_neg hcov, if_neg hcov, show ((re, sub) :: patterns).filter (fun p => covers S key p.1) =
        patterns.filter _ from List.filter_cons_of_neg hcov]
      exact (ih htail hp).imp (fun hall => List.forall_mem_cons.mpr ⟨fun h => absurd h hcov, hall⟩) id

section

variable {o : FastObject S.Regex (FastNode S.Regex)} (ho : o.Each G) (base : String) (key : Bytes)

include ho

/-- `additionalProperties`, where `allow` is what is done if it says nothing. -/
theorem walkAdditional_twins {O : Prop} {E : Cursor → Prop} {c : Cursor} {ctx ctx' : Ctx}
    (hp : ctx.Pair M d ctx') {allow allow' : Walk} (hE : ∀ c', Reads (fun _ => True) c c' → E c')
    (hallow : o.additional = .allow → WalkTwin M d True O E (some c.ptr) ctx ctx' allow allow') :
    WalkTwin M d (TextHas (AdditionalHolds S W o.additional) c)
      (O ∨ ∃ sub, o.additional = .schema sub ∧ Q sub c) E (some c.ptr) ctx ctx'
      (walkAdditional S walk o.additional base c ctx allow)
      (walkAdditional S walk o.additional base c ctx' allow') := by
  cases hadd : o.additional with
  | allow =>
    obtain ⟨ht, hends⟩ := hallow hadd
    exact ⟨ht.imp (fun _ => .any) .inl, hends⟩
  | deny => exact ⟨.record hp base _ _, by simp [walkAdditional]⟩
  | schema sub =>
    obtain ⟨ht, hends⟩ := hwalk sub (ho.additional sub hadd) c ctx ctx' hp
    exact ⟨ht.imp id fun hQ => .inr ⟨sub, rfl, hQ⟩, fun hok => (hends hok).imp id (hE _)⟩

theorem memberRaw_twins (raw : Cursor) :
    Twins M d (TextHas (MemberHolds S W o key) raw) (SomeMute W Q (memberSchemas o key) raw)
      (some raw.ptr) (memberRaw S walk o base key raw) := by
  refine (Twins.andThen (P := ∀ sub ∈ (o.prop? key).toList, Passed (W sub) raw)
    (O := SomeMute W Q (o.prop? key).toList raw)
    (R := (∀ p ∈ o.patterns, covers S key p.1 = true → Passed (W p.2) raw) ∧
      (o.prop? key = none → (∀ p ∈ o.patterns, covers S key p.1 = false) →
        TextHas (AdditionalHolds S W o.additional) raw)) ?_ (fun _ => ?_) SomeMute.append_left
    SomeMute.append_right).imp ?_ id
  · cases hprop : o.prop? key with
    | none => exact fun ctx ctx' hp => .pass hp (by simp)
    | some sub => exact (onRaw_twins hwalk (ho.prop key sub hprop) raw).imp (by simp) SomeMute.head
  · intro ctx ctx' hp
    have h := walkPatterns_twins hwalk key raw ho.pattern hp
    have hmatched := walkPatterns_matched walk key raw o.patterns ctx
    have hmatched' := walkPatterns_matched walk key raw o.patterns ctx'
    dsimp only
    generalize walkPatterns S walk key raw o.patterns ctx = r at h hmatched ⊢
    generalize walkPatterns S walk key raw o.patterns ctx' = r' at h hmatched' ⊢
    obtain ⟨matched, b, ctx₁⟩ := r
    obtain ⟨matched', b', ctx₁'⟩ := r'
    obtain rfl : b' = b := h.ok
    cases b' with
    | false =>
      exact ⟨rfl, h.pair, h.deep, h.steady, by simp,
        fun _ hl => (h.loud rfl hl).imp_right SomeMute.append_left⟩
    | true =>
      -- whether a pattern has matched is known without the walks
      have hiff := hmatched rfl
      obtain rfl : matched' = matched := Bool.eq_iff_iff.mpr (not_iff_not.mp (by
        simpa using (hmatched' rfl).trans hiff.symm))
      have hpats := h.post rfl
      dsimp only at hiff ⊢
      by_cases hcov : (matched' || (o.prop? key).isSome) = true
      · rw [if_pos hcov, if_pos hcov]
        refine ⟨rfl, h.pair, h.deep, h.steady, fun _ => ⟨hpats, fun hnone hno => ?_⟩, by simp⟩
        rw [hnone, hiff.mpr hno] at hcov
        cases hcov
      · rw [if_neg hcov, if_neg hcov]
        obtain ⟨hmat, hnone⟩ : matched' = false ∧ o.prop? key = none := by simpa using hcov
        have hno := hiff.mp hmat
        have hallow : WalkTwin M d True False (fun _ => True) (some raw.ptr) ctx₁ ctx₁' ⟨true, raw, ctx₁⟩
            ⟨true, raw, ctx₁'⟩ := ⟨.pass h.pair trivial, fun _ => ⟨rfl, trivial⟩⟩
        have hadd := walkAdditional_twins hwalk ho base h.pair (fun _ _ => trivial) fun _ => hallow
        refine h.trans (hadd.twin.imp (fun hm => ⟨hpats, fun _ _ => hm⟩) fun hO => ?_)
        obtain ⟨sub, hsub, hQ⟩ := hO.resolve_left id
        refine SomeMute.append_right (fun x hx => ?_) ?_
        · obtain ⟨p, hp, rfl⟩ := List.mem_map.mp hx
          exact hpats p (List.mem_filter.mp hp).1 (List.mem_filter.mp hp).2
        · rw [if_pos (by simpa [hnone] using hno), hsub]
          exact .head hQ
  · rintro ⟨hprop, hpats, hadd⟩ ws s v t hws hs ht hc
    refine ⟨fun sub hsub => (hprop sub (by simp [hsub])).1 ws s v t hws hs ht hc,
      fun p hp hcov => (hpats p hp hcov).1 ws s v t hws hs ht hc,
      fun hnone hno => hadd hnone hno ws s v t hws hs ht hc⟩

theorem memberValue_twins (c : Cursor) :
    WalkTwins M d (MemberHolds S W o key) (ValueMute W Q d o key c) c
      (memberValue S walk o base key c) := by
  intro ctx ctx' hp
  unfold memberValue
  by_cases hempty : o.patterns.isEmpty = true
  · rw [if_pos hempty, if_pos hempty]
    have hnil : o.patterns = [] := List.isEmpty_iff.mp hempty
    cases hprop : o.prop? key with
    | some sub =>
      obtain ⟨ht, hends⟩ := hwalk sub (ho.prop key sub hprop) c ctx ctx' hp
      refine ⟨ht.imp (fun hm => hm.imp fun v hv => ?_) fun hQ => ?_, hends⟩
      · simp [MemberHolds, hnil, hprop, hv]
      · exact .value hnil (by simp [memberSchemas, hprop]) hQ
    | none =>
      obtain ⟨ht, hends⟩ := walkAdditional_twins hwalk ho base (c := c) hp
        (E := Reads (fun _ => True) c) (fun _ h => h)
        (O := o.additional = .allow ∧ (c.skipValue d).1 = false) fun hadd => by
          obtain ⟨ht, hends⟩ := skipWalk_twins (M := M) (d := d) c ctx ctx' hp
          exact ⟨ht.imp (fun _ => trivial) fun hskip => ⟨hadd, hskip⟩, hends⟩
      refine ⟨ht.imp (fun hm => hm.imp fun v hv => ?_) ?_, hends⟩
      · simpa [MemberHolds, hnil, hprop] using hv
      · rintro (⟨hadd, hskip⟩ | ⟨sub, hadd, hQ⟩)
        · exact .skip (.inr ⟨hprop, hadd⟩) hskip
        · exact .value hnil (by simp [memberSchemas, hprop, hnil, hadd]) hQ
  · rw [if_neg hempty, if_neg hempty, hp.depth]
    have hne : o.patterns ≠ [] := fun h => hempty (List.isEmpty_iff.mpr h)
    -- With patterns the member is skipped first: a failure to skip is silent, and otherwise its
    -- slice is walked.
    rcases hrun : c.skipValue ctx.depth with ⟨_ | _, c'⟩
    · exact ⟨.silent hp fun hM => .skip (.inl hne) (by rw [← hp.level hM, hrun]), by simp⟩
    · have hread : Reads (fun _ => True) c c' := .of_skip hrun
      have hle : c.ptr ≤ (c'.slice c.pos).ptr := by
        change c.ptr ≤ c'.ptr + c.pos
        rw [hread.ptr_eq]
        exact Nat.le_add_right _ _
      have h := memberRaw_twins hwalk ho base key (c'.slice c.pos) ctx ctx' hp
      refine ⟨⟨h.ok, h.pair, fun hs => h.deep (hs.mono hle), h.steady,
        fun hok => (h.post hok).of_slice hrun, fun hok hl => (h.loud hok hl).imp_right fun hmute =>
          .slice hne ?_ hmute⟩, fun _ => ⟨rfl, hread⟩⟩
      rw [← hp.level (hp.of_loud hl), hrun]

/-- The path step and the place in the capture are put back. -/
theorem member_twins (c : Cursor) :
    WalkTwins M d (MemberHolds S W o key) (ValueMute W Q d o key c) c
      (member S walk o base key c) := by
  intro ctx ctx' hp
  have hin := fun ctx : Ctx => (ctx.onCapture_near c.ptr (·.enterKey key)).trans
    (Ctx.pushKey_near (ctx.captureEnterKey c.ptr key) key)
  have hout : ∀ (ctx : Ctx) (i j : Nat), ctx.Near
      (((ctx.captureRecordValue c.ptr i j).captureExitKey c.ptr).pop) := fun ctx i j =>
    ((ctx.onCapture_near _ _).trans (Ctx.onCapture_near _ _ _)).trans (Ctx.pop_near _)
  obtain ⟨ht, hends⟩ := memberValue_twins hwalk ho base key c
    ((ctx.captureEnterKey c.ptr key).pushKey key) ((ctx'.captureEnterKey c.ptr key).pushKey key) (by
      refine ⟨(hin ctx).errors.trans hp.plain, ?_, hp.mode.imp_right (hin ctx').errors.trans,
        fun hM => (hin ctx).depth.trans (hp.level hM)⟩
      exact (hin ctx').depth.trans (hp.depth.trans (hin ctx).depth.symm))
  refine ⟨ht.bracket (hin ctx') (hout _ _ _) (hout _ _ _) fun hs => ⟨?_, fun hd => ?_⟩, hends⟩
  · rw [Ctx.captureEnterKey, hs.onCapture, Ctx.pushKey_eq hp.plain]
  · change ((Ctx.onCapture _ _ _).onCapture _ _).pop = _
    rw [(hs.deep hd).onCapture, (hs.deep hd).onCapture, Ctx.pop_eq (hd.errors.trans hp.plain)]

/-- The members behind one that failed. -/
theorem objectMembers_behind (hM : M) {n : Nat}
    (hloop : ∀ {st : ObjState} (c : Cursor) {ctx : Ctx}, st.objOk = false → ctx.depth = d →
      Failed ctx (objectMembers S walk o base n st c ctx))
    {st : ObjState} {c c₁ : Cursor} {raw : Bytes} (hat : MemberAt c raw c₁) {ctx : Ctx} (hd : ctx.depth = d)
    (hfail : (st.objOk && (member S walk o base (textOf raw) c₁.skipWs ctx).ok) = false) :
    Failed (member S walk o base (textOf raw) c₁.skipWs ctx).ctx
      (objectMembers S walk o base (n + 1) st c ctx) := by
  obtain ⟨c₀, hkey, hcolon⟩ := hat
  have hm := (member_twins hwalk ho base (textOf raw) c₁.skipWs).alone hM hd
  rw [objectMembers, hkey]
  dsimp only
  rw [hcolon]
  dsimp only
  generalize member S walk o base (textOf raw) c₁.skipWs ctx = r at hm hfail ⊢
  split
  · exact .refl r.c r.ctx
  · generalize (if r.ok = true then r.c else realign c₁.skipWs r.c r.ctx.depth) = c₂
    rcases c₂.skipWs.eat rbrace with ⟨_ | _, c₃⟩
    · dsimp only
      rcases c₃.eat comma with ⟨_ | _, c₄⟩
      · exact .refl c₄ r.ctx
      · exact hloop c₄ hfail (hm.2.trans hd)
    · exact .report c₃ r.ctx hfail base _

theorem objectMembers_settled (hM : M) (n : Nat) {st : ObjState} (c : Cursor) {ctx : Ctx}
    (hst : st.objOk = false) (hd : ctx.depth = d) :
    Failed ctx (objectMembers S walk o base n st c ctx) := by
  induction n generalizing st c ctx with
  | zero => exact .refl c ctx
  | succ n ih =>
    rcases hkey : c.skipWs.rawString with ⟨_ | raw, c₀⟩
    · rw [objectMembers, hkey]
      exact .refl c₀ ctx
    rcases hcolon : c₀.skipWs.eat colon with ⟨_ | _, c₁⟩
    · rw [objectMembers, hkey]
      dsimp only
      rw [hcolon]
      exact .refl c₁ ctx
    · have hm := (member_twins hwalk ho base (textOf raw) c₁.skipWs).alone hM hd
      have hrest := objectMembers_behind hwalk ho base hM (fun c _ hst hd => ih c hst hd)
        ⟨c₀, hkey, hcolon⟩ hd (by rw [hst, Bool.false_and])
      exact hrest.after hm

/-- The bool run stops at a member that fails; the other one may go on, and its verdict is settled. -/
theorem objectMembers_fails {n : Nat} {st : ObjState} {c c₁ : Cursor} {raw : Bytes}
    (hat : MemberAt c raw c₁) (hptr : c₁.skipWs.ptr = c.ptr) {E : Cursor → Prop} {ctx ctx' : Ctx}
    (hp : ctx.Pair M d ctx') (hok : (member S walk o base (textOf raw) c₁.skipWs ctx).ok = false) :
    WalkTwin M d True (MembersMute W Q d o c) E (some c.ptr) ctx ctx'
      (objectMembers S walk o base (n + 1) st c ctx) (objectMembers S walk o base (n + 1) st c ctx') := by
  obtain ⟨ht, -⟩ := member_twins hwalk ho base (textOf raw) c₁.skipWs ctx ctx' hp
  have hok' : (member S walk o base (textOf raw) c₁.skipWs ctx').ok = false := ht.ok.trans hok
  have stops : ∀ ctx : Ctx, (member S walk o base (textOf raw) c₁.skipWs ctx).ok = false →
      (member S walk o base (textOf raw) c₁.skipWs ctx).ctx.errors = none →
      objectMembers S walk o base (n + 1) st c ctx = ⟨false,
        (member S walk o base (textOf raw) c₁.skipWs ctx).c,
        (member S walk o base (textOf raw) c₁.skipWs ctx).ctx⟩ := by
    intro ctx hok hn
    obtain ⟨c₀, hkey, hcolon⟩ := hat
    rw [objectMembers, hkey]
    dsimp only
    rw [hcolon]
    exact if_pos (by simp [hok, Ctx.isDetailed, hn])
  rw [hok, hok', hptr] at ht
  rw [stops ctx hok ht.pair.plain]
  refine ⟨(ht.imp id (.value hat)).goes_on ?_, by simp⟩
  rcases ht.pair.mode with hM | hn
  · have hd : ctx'.depth = d := hp.depth.trans (hp.level hM)
    exact objectMembers_behind hwalk ho base hM (objectMembers_settled hwalk ho base hM n) hat hd
      (by rw [hok', Bool.and_false])
  · rw [stops ctx' hok' hn]
    exact .refl _ _

/-- The member loop. Induction on the fuel, which is more than the bytes that are left. -/
theorem objectMembers_twins (n : Nat) {st : ObjState} (hst : st.objOk = true) {c : Cursor}
    (hn : c.rest.length < n) {ctx ctx' : Ctx} (hp : ctx.Pair M d ctx') :
    WalkTwin M d True (MembersMute W Q d o c)
      (fun c' => ∃ ms body, Members IsText ms body ∧ Eats c (body ++ [rbrace]) c') (some c.ptr) ctx ctx'
      (objectMembers S walk o base n st c ctx) (objectMembers S walk o base n st c ctx') := by
  induction n generalizing st c ctx ctx' with
  | zero => exact absurd hn (Nat.not_lt_zero _)
  | succ n ih =>
    -- one member: whitespace, key, whitespace, colon, whitespace, value, whitespace
    obtain ⟨w₁, hw₁, hws₁, -⟩ := Cursor.skipWs_spec c
    rcases hkey : c.skipWs.rawString with ⟨_ | raw, c₀⟩
    · rw [objectMembers, objectMembers, hkey]
      exact ⟨.silent hp fun _ => .key (by rw [hkey]), by simp⟩
    obtain ⟨hraw, hkeyEats⟩ := Cursor.rawString_sound hkey
    obtain ⟨w₂, hw₂, hws₂, -⟩ := Cursor.skipWs_spec c₀
    rcases hcolon : c₀.skipWs.eat colon with ⟨_ | _, c₁⟩
    · rw [objectMembers, objectMembers, hkey]
      dsimp only
      rw [hcolon]
      exact ⟨.silent hp fun _ => .colon hkey (by rw [hcolon]), by simp⟩
    obtain ⟨w₃, hw₃, hws₃, -⟩ := Cursor.skipWs_spec c₁
    have hat : MemberAt c raw c₁ := ⟨c₀, hkey, hcolon⟩
    have hatEats := (((hws₁.trans hkeyEats).trans hws₂).trans (Cursor.eat_eq_true hcolon)).trans hws₃
    cases hok : (member S walk o base (textOf raw) c₁.skipWs ctx).ok with
    | false => exact objectMembers_fails hwalk ho base hat hatEats.ptr_eq hp hok
    | true =>
      rw [objectMembers, objectMembers, hkey]
      dsimp only
      rw [hcolon]
      dsimp only
      obtain ⟨ht, hends⟩ := member_twins hwalk ho base (textOf raw) c₁.skipWs ctx ctx' hp
      rw [hatEats.ptr_eq] at ht
      generalize member S walk o base (textOf raw) c₁.skipWs ctx = r at hok ht hends ⊢
      generalize member S walk o base (textOf raw) c₁.skipWs ctx' = r' at ht hends ⊢
      obtain ⟨b, c₂, ctx₁⟩ := r
      obtain ⟨b', c₂', ctx₁'⟩ := r'
      obtain rfl : b' = b := ht.ok
      obtain rfl : b' = true := hok
      obtain ⟨rfl, hread⟩ := hends rfl
      have hreadA := hread.mk_of (ht.post rfl)
      obtain ⟨w₃', s, v, hw₃', hv, -, heats, -⟩ := hread
      obtain ⟨w₄, hw₄, hws₄, -⟩ := Cursor.skipWs_spec c₂'
      have hmember : Member IsText (raw, v)
          (w₁ ++ (quote :: (raw ++ (quote :: (w₂ ++ (colon :: ((w₃ ++ w₃') ++ (s ++ w₄)))))))) :=
        .mk hw₁ hraw hw₂ (hw₃.append hw₃') hv hw₄
      have hmemberEats := (hatEats.trans heats).trans hws₄
      have hok : ∀ key, (o.note { st with objOk := st.objOk && true } key).objOk = true := by
        simp [FastObject.note, hst]
      simp only [Bool.not_true, Bool.false_and, Bool.false_eq_true, if_false, if_true]
      rcases hclose : c₂'.skipWs.eat rbrace with ⟨_ | _, c₃⟩
      · obtain rfl := Cursor.eat_eq_false hclose
        dsimp only
        rcases hcomma : c₂'.skipWs.eat comma with ⟨_ | _, c₄⟩
        · refine ⟨ht.trans (.silent ht.pair fun _ => ?_), by simp⟩
          exact .stop hat hreadA (by rw [hclose]) (by rw [hcomma])
        dsimp only
        have hnextEats := hmemberEats.trans (Cursor.eat_eq_true hcomma)
        have hlt : c₄.rest.length < n := by
          have hlen := congrArg List.length hnextEats.1
          simp only [List.length_append, List.length_cons] at hlen
          omega
        obtain ⟨hloop, hloopEnds⟩ := ih (hok (textOf raw)) hlt ht.pair
        rw [hnextEats.ptr_eq] at hloop
        refine ⟨ht.trans (hloop.imp id (.next hat hreadA hcomma)), fun hfin => ?_⟩
        obtain ⟨hc, ms, body, hms, hbody⟩ := hloopEnds hfin
        refine ⟨hc, (raw, v) :: ms, _, .cons hmember hms, ?_⟩
        have := hnextEats.trans hbody
        simpa [List.append_assoc] using this
      · dsimp only
        simp only [hok, Bool.true_and]
        refine ⟨ht.trans (.report ht.pair base _), fun _ => ⟨rfl, [(raw, v)], _, .one hmember, ?_⟩⟩
        have := hmemberEats.trans (Cursor.eat_eq_true hclose)
        simpa [List.append_assoc] using this

theorem validateObject_twins {c : Cursor} (hpeek : c.peek = some lbrace) :
    WalkTwins M d (fun _ => True)
      (((c.adv 1).skipWs.eat rbrace).1 = false ∧ MembersMute W Q d o (c.adv 1).skipWs) c
      (validateObject S walk o base c) := by
  intro ctx ctx' hp
  have hopen := Cursor.adv_one_of_peek hpeek
  obtain ⟨w, hw, hws, -⟩ := Cursor.skipWs_spec (c.adv 1)
  unfold validateObject
  rw [show c.eat lbrace = (true, c.adv 1) by rw [Cursor.eat, if_pos hpeek]]
  dsimp only
  rcases hclose : (c.adv 1).skipWs.eat rbrace with ⟨_ | _, c₂⟩
  · obtain rfl := Cursor.eat_eq_false hclose
    have heats := hopen.trans hws
    obtain ⟨ht, hends⟩ := objectMembers_twins hwalk ho base ((c.adv 1).skipWs.rest.length + 1)
      (show o.init.objOk = true from rfl) (Nat.lt_succ_self _) hp
    rw [heats.ptr_eq] at ht
    refine ⟨ht.imp (fun _ => .any) fun hmute => ⟨rfl, hmute⟩, fun hok => ?_⟩
    obtain ⟨hc, ms, body, hms, hbody⟩ := hends hok
    refine ⟨hc, .of_eats (v := .obj ms) (s := lbrace :: ((w ++ body) ++ [rbrace])) ?_ (by simp) ?_⟩
    · exact (isText_iff _ _).mpr ⟨_, rfl, .inr (hms.ws_append hw)⟩
    · have := heats.trans hbody
      simpa [List.append_assoc] using this
  · refine ⟨(Twin.report hp _ _).imp (fun _ => .any) id, fun _ => ⟨rfl, ?_⟩⟩
    refine .of_eats (v := .obj []) (s := lbrace :: (w ++ [rbrace])) ?_ (by simp) ?_
    · exact (isText_iff _ _).mpr ⟨_, rfl, .inl ⟨rfl, hw⟩⟩
    · have := (hopen.trans hws).trans (Cursor.eat_eq_true hclose)
      simpa [List.append_assoc] using this

end

/-! ## Elements -/

/-- The schemas of an array's elements. -/
structure FastArray.Each {S : Oracles} (G : FastNode S.Regex → Prop)
    (a : FastArray (FastNode S.Regex)) : Prop where
  element : ∀ i sub, a.schemaAt S i = .schema sub → G sub
  contains : ∀ sub ∈ a.contains, G sub

/-- `uniqueItems` on one element, in both runs. -/
structure UniqueTwin (ctx' : Ctx) (st : ArrState) (r r' : ArrState × Ctx) (ctx : Ctx) (F : Prop) :
    Prop where
  state : r'.1 = r.1
  plain : r.2 = ctx
  steady : ctx'.Steady r'.2
  depth : r'.2.depth = ctx'.depth
  count : r.1.count = st.count
  failed : r.1.arrOk = false → st.arrOk = false ∨ (ctx'.Loud → r'.2.Reported)
  settled : st.arrOk = false → r.1.arrOk = false
  fresh : r.1.arrOk = true → F

omit hwalk in
theorem uniqueItem_twins (S : Oracles) (base : String) (raw : Cursor) (st : ArrState) {ctx : Ctx}
    (h : ctx.errors = none) (ctx' : Ctx) :
    UniqueTwin ctx' st (uniqueItem S base raw st ctx) (uniqueItem S base raw st ctx') ctx
      (Fresh S st.uniqueSeen raw.data (uniqueItem S base raw st ctx).1.uniqueSeen) := by
  have same : ∀ {F : Prop}, F → UniqueTwin ctx' st (st, ctx) (st, ctx') ctx F := fun h =>
    ⟨rfl, rfl, .refl ctx', rfl, rfl, .inl, id, fun _ => h⟩
  unfold uniqueItem
  split
  · next hoff =>
    exact same (by rw [hoff]; exact .off)
  · next seen hseen =>
    split
    · next hval =>
      exact same (by rw [hseen]; exact .unread hval)
    · next x hval =>
      split
      · obtain ⟨hs, hd⟩ := ctx'.record_steady base "uniqueItems" "array items must be unique"
        rw [Ctx.record_eq h]
        exact ⟨rfl, rfl, hs, hd, rfl, fun _ => .inr (ctx'.record_loud _ _ _), fun _ => rfl, by simp⟩
      · next hstep =>
        refine ⟨rfl, rfl, .refl ctx', rfl, rfl, .inl, id, fun _ => ?_⟩
        rw [hseen]
        exact .new hval hstep

section

variable {a : FastArray (FastNode S.Regex)} (ha : a.Each G) (base : String)

include ha

theorem elementValue_twins (idx : Nat) (c : Cursor) :
    WalkTwins M d (AdditionalHolds S W (a.schemaAt S idx))
      ((a.schemaAt S idx = .allow ∧ (c.skipValue d).1 = false) ∨
        ∃ sub, a.schemaAt S idx = .schema sub ∧ Q sub c) c (elementValue S walk a base idx c) := by
  intro ctx ctx' hp
  have hin : ctx.pushIdx idx = ctx := Ctx.pushIdx_eq hp.plain idx
  have hnear := ctx'.pushIdx_near idx
  have hpin : (ctx.pushIdx idx).Pair M d (ctx'.pushIdx idx) := by
    rw [hin]
    exact hp.steady hnear.steady hnear.depth
  unfold elementValue
  cases hsub : a.schemaAt S idx with
  | allow =>
    obtain ⟨ht, hends⟩ := skipWalk_twins (M := M) (d := d) c ctx ctx' hp
    exact ⟨ht.imp (fun _ => .any) fun hskip => .inl ⟨rfl, hskip⟩, hends⟩
  | deny =>
    have h : Twin M d (TextHas (AdditionalHolds S W .deny) c) False (some c.ptr) _ _ _ _ :=
      .record hpin base "additionalItems" "additional array items are not allowed"
    refine ⟨(h.bracket hnear (Ctx.pop_near _) (Ctx.pop_near _) fun _ => ⟨hin, fun hd => ?_⟩).imp id
      False.elim, by simp⟩
    exact Ctx.pop_eq (hd.errors.trans hp.plain)
  | schema sub =>
    obtain ⟨ht, hends⟩ := hwalk sub (ha.element idx sub hsub) c _ _ hpin
    refine ⟨(ht.bracket hnear (Ctx.pop_near _) (Ctx.pop_near _) fun _ => ⟨hin, fun hd => ?_⟩).imp id
      fun hQ => .inr ⟨sub, rfl, hQ⟩, hends⟩
    exact Ctx.pop_eq (hd.errors.trans hp.plain)

theorem containsItem_twins (raw : Cursor) (st : ArrState) {ctx ctx' : Ctx} (hp : ctx.Pair M d ctx') :
    (containsItem S walk a raw st ctx').1 = (containsItem S walk a raw st ctx).1 ∧
      (containsItem S walk a raw st ctx).1.arrOk = st.arrOk ∧
      (containsItem S walk a raw st ctx).1.count = st.count ∧
      (containsItem S walk a raw st ctx).1.uniqueSeen = st.uniqueSeen ∧
      Twin M d True True none ctx ctx' (true, (containsItem S walk a raw st ctx).2)
        (true, (containsItem S walk a raw st ctx').2) := by
  unfold containsItem
  cases st.containsFound with
  | true => exact ⟨rfl, rfl, rfl, rfl, .pass hp trivial⟩
  | false =>
    cases hcon : a.contains with
    | none => exact ⟨rfl, rfl, rfl, rfl, .pass hp trivial⟩
    | some con =>
      have h := probe_twins hwalk (ha.contains con hcon) raw ctx ctx' hp
      refine ⟨?_, rfl, rfl, rfl, ⟨rfl, h.pair, h.deep, h.steady, fun _ => trivial, by simp⟩⟩
      dsimp only
      rw [h.ok]

/-- The elements behind one that failed. -/
theorem arrayElements_behind (hM : M) {n : Nat}
    (hloop : ∀ {st : ArrState} (c : Cursor) {ctx : Ctx}, st.arrOk = false → ctx.depth = d →
      Failed ctx (arrayElements S walk a base n st c ctx))
    {st : ArrState} {c : Cursor} (hover : a.overflow (st.count + 1) = none) {ctx : Ctx}
    (hd : ctx.depth = d) (hfail : (st.arrOk && (elementValue S walk a base st.count c ctx).ok) = false) :
    Failed (elementValue S walk a base st.count c ctx).ctx
      (arrayElements S walk a base (n + 1) st c ctx) := by
  have hm := (elementValue_twins hwalk ha base st.count c).alone hM hd
  rw [arrayElements, hover]
  dsimp only
  -- The element, the duplicate check and `contains` each keep the depth, so each one's lemma
  -- applies to what the one before left.
  generalize elementValue S walk a base st.count c ctx = r at hm hfail ⊢
  split
  · exact .refl r.c r.ctx
  · generalize (if r.ok = true then r.c else realign c r.c r.ctx.depth) = c₂
    have hu := uniqueItem_twins S base (c₂.slice c.pos)
      { st with count := st.count + 1, arrOk := st.arrOk && r.ok }
      (show ({ r.ctx with errors := none } : Ctx).errors = none from rfl) r.ctx
    generalize uniqueItem S base (c₂.slice c.pos) _ r.ctx = u at hu ⊢
    have hdu : u.2.depth = d := hu.depth.trans (hm.2.trans hd)
    obtain ⟨hkState, hkOk, -, -, hk⟩ := containsItem_twins hwalk ha (c₂.slice c.pos) u.1
      (.alone hM hdu : ({ u.2 with errors := none } : Ctx).Pair M d u.2)
    rw [← hkState, show u.1.arrOk = false by rw [hu.state]; exact hu.settled hfail] at hkOk
    generalize containsItem S walk a (c₂.slice c.pos) u.1 u.2 = k at hkOk hk ⊢
    have hdk : k.2.depth = d := hk.pair.depth.trans (hk.pair.level hM)
    refine Failed.after ?_ ⟨hu.steady.trans hk.steady, hdk.trans (hm.2.trans hd).symm⟩
    rcases c₂.skipWs.eat rbracket with ⟨_ | _, c₃⟩
    · dsimp only
      rcases c₃.eat comma with ⟨_ | _, c₄⟩
      · exact .refl c₄ k.2
      · exact hloop c₄.skipWs hkOk hdk
    · have hlen := Ctx.onCapture_near (k.2.report base (a.fault k.1)).2 c.ptr (·.recordLength k.1.count)
      have hrep := Failed.report c₃ k.2 hkOk base (a.fault k.1)
      exact ⟨hrep.ok, hrep.steady.trans hlen.steady, hlen.depth.trans hrep.depth⟩

theorem arrayElements_settled (hM : M) (n : Nat) {st : ArrState} (c : Cursor) {ctx : Ctx}
    (hst : st.arrOk = false) (hd : ctx.depth = d) :
    Failed ctx (arrayElements S walk a base n st c ctx) := by
  induction n generalizing st c ctx with
  | zero => exact .refl c ctx
  | succ n ih =>
    cases hover : a.overflow (st.count + 1) with
    | some fault =>
      obtain ⟨hs, hd⟩ := ctx.report_steady base (some fault)
      rw [arrayElements, hover]
      exact ⟨rfl, hs, hd⟩
    | none =>
      have hrest := arrayElements_behind hwalk ha base hM (fun c _ hst hd => ih c hst hd) (c := c)
        hover hd (by rw [hst, Bool.false_and])
      exact hrest.after ((elementValue_twins hwalk ha base st.count c).alone hM hd)

theorem arrayElements_fails {n : Nat} {st : ArrState} {c : Cursor}
    (hover : a.overflow (st.count + 1) = none) {E : Cursor → Prop} {ctx ctx' : Ctx}
    (hp : ctx.Pair M d ctx') (hok : (elementValue S walk a base st.count c ctx).ok = false) :
    WalkTwin M d True (ElementsMute W Q d a st.count st.uniqueSeen c) E (some c.ptr) ctx ctx'
      (arrayElements S walk a base (n + 1) st c ctx) (arrayElements S walk a base (n + 1) st c ctx') := by
  obtain ⟨ht, -⟩ := elementValue_twins hwalk ha base st.count c ctx ctx' hp
  have hok' : (elementValue S walk a base st.count c ctx').ok = false := ht.ok.trans hok
  have stops : ∀ ctx : Ctx, (elementValue S walk a base st.count c ctx).ok = false →
      (elementValue S walk a base st.count c ctx).ctx.errors = none →
      arrayElements S walk a base (n + 1) st c ctx = ⟨false,
        (elementValue S walk a base st.count c ctx).c,
        (elementValue S walk a base st.count c ctx).ctx⟩ := by
    intro ctx hok hn
    rw [arrayElements, hover]
    exact if_pos (by simp [hok, Ctx.isDetailed, hn])
  rw [hok, hok'] at ht
  rw [stops ctx hok ht.pair.plain]
  refine ⟨(ht.imp id ?_).goes_on ?_, by simp⟩
  · rintro (⟨hsub, hskip⟩ | ⟨sub, hsub, hQ⟩)
    · exact .skip hover hsub hskip
    · exact .element hover hsub hQ
  rcases ht.pair.mode with hM | hn
  · have hd : ctx'.depth = d := hp.depth.trans (hp.level hM)
    exact arrayElements_behind hwalk ha base hM (arrayElements_settled hwalk ha base hM n) hover hd
      (by rw [hok', Bool.and_false])
  · rw [stops ctx' hok' hn]
    exact .refl _ _

/-- What the checks on a parsed element leave in the two runs. -/
structure ChecksTwin (M : Prop) (d : Nat) (q : Option Nat) (ctx ctx' : Ctx) (st : ArrState) (F : ArrState → Prop)
    (k k' : ArrState × Ctx) : Prop where
  state : k'.1 = k.1
  count : k.1.count = st.count + 1
  through : Twin M d True True q ctx ctx' (true, k.2) (true, k'.2)
  failed : k.1.arrOk = false → k'.2.Loud → k'.2.Reported
  settled : k'.2.Loud → k'.2.Reported ∨ F k.1

/-- The checks on a parsed element: behind it both runs are in one state, and a settled verdict is
reported. -/
theorem elementChecks_twins {P O : Prop} {q : Option Nat} (raw : Cursor) {st : ArrState}
    {ctx ctx' ctx₁ ctx₁' : Ctx} (ht : Twin M d P O q ctx ctx' (true, ctx₁) (true, ctx₁'))
    (hst : st.arrOk = false → ctx'.Loud → ctx'.Reported) :
    let st₁ := { st with count := st.count + 1, arrOk := st.arrOk && true }
    let u := uniqueItem S base raw st₁ ctx₁
    let u' := uniqueItem S base raw st₁ ctx₁'
    ChecksTwin M d q ctx ctx' st (fun st' => Fresh S st.uniqueSeen raw.data st'.uniqueSeen)
      (containsItem S walk a raw u.1 u.2) (containsItem S walk a raw u'.1 u'.2) := by
  intro st₁ u u'
  have hu : UniqueTwin ctx₁' st₁ u u' ctx₁ (Fresh S st.uniqueSeen raw.data u.1.uniqueSeen) :=
    uniqueItem_twins S base raw st₁ ht.pair.plain ctx₁'
  generalize u = v at hu ⊢
  generalize u' = v' at hu ⊢
  obtain ⟨st₂, ctx₂⟩ := v
  obtain ⟨st₂', ctx₂'⟩ := v'
  obtain rfl : st₂' = st₂ := hu.state
  obtain rfl : ctx₂ = ctx₁ := hu.plain
  have hpu : ctx₂.Pair M d ctx₂' := ht.pair.steady hu.steady hu.depth
  obtain ⟨hkState, hkOk, hkCount, hkSeen, hk⟩ := containsItem_twins hwalk ha raw st₂' hpu
  have hmid : Twin M d True True q ctx₂ ctx₁' (true, ctx₂) (true, ctx₂') :=
    ⟨rfl, hpu, fun _ => .refl ctx₂, hu.steady, fun _ => trivial, by simp⟩
  have hthrough := ht.trans (hmid.trans (hk.at_ fun _ => .inr (by simp)))
  have hfailed : (containsItem S walk a raw st₂' ctx₂).1.arrOk = false →
      (containsItem S walk a raw st₂' ctx₂').2.Loud → (containsItem S walk a raw st₂' ctx₂').2.Reported := by
    intro hfalse hl
    have hl₁ : ctx'.Loud := ⟨hthrough.steady.suppress ▸ hl.1, hthrough.steady.detailed ▸ hl.2.1,
      hthrough.steady.maxErrors ▸ hl.2.2⟩
    refine hk.steady.reported ?_
    rcases hu.failed (hkOk ▸ hfalse) with hold | hnew
    · exact hu.steady.reported (ht.steady.reported (hst (by simpa [st₁] using hold) hl₁))
    · exact hnew (ht.steady.loud hl₁)
  refine ⟨hkState, hkCount.trans hu.count, hthrough, hfailed, fun hl => ?_⟩
  cases hb : (containsItem S walk a raw st₂' ctx₂).1.arrOk with
  | false => exact .inl (hfailed hb hl)
  | true =>
    rw [hkSeen]
    exact .inr (hu.fresh (hkOk ▸ hb))

/-- The element loop. `uniqueItems` may clear `arrOk`, which is recorded; no run stops there. -/
theorem arrayElements_twins (n : Nat) {st : ArrState} {c : Cursor} (hn : c.rest.length < n)
    {ctx ctx' : Ctx} (hp : ctx.Pair M d ctx')
    (hst : st.arrOk = false → ctx'.Loud → ctx'.Reported) :
    WalkTwin M d True (ElementsMute W Q d a st.count st.uniqueSeen c)
      (fun c' => ∃ vs body, Elements IsText vs body ∧ Eats c (body ++ [rbracket]) c') (some c.ptr)
      ctx ctx' (arrayElements S walk a base n st c ctx) (arrayElements S walk a base n st c ctx') := by
  induction n generalizing st c ctx ctx' with
  | zero => exact absurd hn (Nat.not_lt_zero _)
  | succ n ih =>
    cases hover : a.overflow (st.count + 1) with
    | some fault =>
      rw [arrayElements, arrayElements, hover]
      exact ⟨.record hp base fault.1 fault.2, by simp⟩
    | none =>
      cases hok : (elementValue S walk a base st.count c ctx).ok with
      | false => exact arrayElements_fails hwalk ha base hover hp hok
      | true =>
        rw [arrayElements, arrayElements, hover]
        dsimp only
        obtain ⟨ht, hends⟩ := elementValue_twins hwalk ha base st.count c ctx ctx' hp
        generalize elementValue S walk a base st.count c ctx = r at hok ht hends ⊢
        generalize elementValue S walk a base st.count c ctx' = r' at ht hends ⊢
        obtain ⟨b, c₂, ctx₁⟩ := r
        obtain ⟨b', c₂', ctx₁'⟩ := r'
        obtain rfl : b' = b := ht.ok
        obtain rfl : b' = true := hok
        obtain ⟨rfl, hread⟩ := hends rfl
        have hreadA := hread.mk_of (ht.post rfl)
        obtain ⟨w₁, s, v, hw₁, hv, -, heats, -⟩ := hread
        obtain ⟨w₂, hw₂, hws₂, -⟩ := Cursor.skipWs_spec c₂'
        have helemEats := heats.trans hws₂
        simp only [Bool.not_true, Bool.false_and, Bool.false_eq_true, if_false, if_true]
        obtain ⟨hstate, hcount, hthrough, hst', hsettled⟩ :=
          elementChecks_twins hwalk ha base (c₂'.slice c.pos) ht hst
        dsimp only at hstate hcount hthrough hst' hsettled
        generalize containsItem S walk a (c₂'.slice c.pos) _ (uniqueItem S base _ _ ctx₁').2 = k'
          at hstate hcount hthrough hst' hsettled ⊢
        generalize containsItem S walk a (c₂'.slice c.pos) _ _ = k
          at hstate hcount hthrough hst' hsettled ⊢
        obtain ⟨st₂, ctx₃⟩ := k
        obtain ⟨st₂', ctx₃'⟩ := k'
        obtain rfl : st₂' = st₂ := hstate
        rcases hclose : c₂'.skipWs.eat rbracket with ⟨_ | _, c₃⟩
        · obtain rfl := Cursor.eat_eq_false hclose
          dsimp only
          rcases hcomma : c₂'.skipWs.eat comma with ⟨_ | _, c₄⟩
          · refine ⟨hthrough.trans ⟨rfl, hthrough.pair, fun _ => .refl ctx₃, .refl ctx₃', by simp,
              fun _ hl => ?_⟩, by simp⟩
            refine (hsettled hl).imp id fun hfresh => ?_
            exact .stop hover hreadA hfresh (by rw [hclose]) (by rw [hcomma])
          dsimp only
          obtain ⟨w₃, hw₃, hws₃, -⟩ := Cursor.skipWs_spec c₄
          have hnextEats := (helemEats.trans (Cursor.eat_eq_true hcomma)).trans hws₃
          have hlt : c₄.skipWs.rest.length < n := by
            have hlen := congrArg List.length hnextEats.1
            simp only [List.length_append, List.length_cons] at hlen
            omega
          obtain ⟨hloop, hloopEnds⟩ := ih hlt hthrough.pair hst'
          rw [hnextEats.ptr_eq, hcount] at hloop
          refine ⟨hthrough.trans ⟨hloop.ok, hloop.pair, hloop.deep, hloop.steady, hloop.post,
            fun hno hl => ?_⟩, fun hfin => ?_⟩
          · rcases hsettled hl with hrep | hfresh
            · exact .inl (hloop.steady.reported hrep)
            · exact (hloop.loud hno hl).imp id (.next hover hreadA hfresh hcomma)
          obtain ⟨hc, vs, body, hvs, hbody⟩ := hloopEnds hfin
          refine ⟨hc, v :: vs, _, .cons hw₁ hv hw₂ (hvs.ws_append hw₃), ?_⟩
          have := hnextEats.trans hbody
          simpa [List.append_assoc] using this
        · dsimp only
          refine ⟨?_, fun _ => ⟨rfl, [v], _, .one hw₁ hv hw₂, ?_⟩⟩
          · exact hthrough.trans ((((Twin.report hthrough.pair base (a.fault st₂')).and_left hst').onCapture
              _).imp id id)
          · have := helemEats.trans (Cursor.eat_eq_true hclose)
            simpa [List.append_assoc] using this

theorem validateArray_twins {c : Cursor} (hpeek : c.peek = some lbracket) :
    WalkTwins M d (fun _ => True)
      (((c.adv 1).skipWs.eat rbracket).1 = false ∧ ElementsMute W Q d a 0 a.init.uniqueSeen (c.adv 1).skipWs) c
      (validateArray S walk a base c) := by
  intro ctx ctx' hp
  have hopen := Cursor.adv_one_of_peek hpeek
  obtain ⟨w, hw, hws, -⟩ := Cursor.skipWs_spec (c.adv 1)
  unfold validateArray
  rw [show c.eat lbracket = (true, c.adv 1) by rw [Cursor.eat, if_pos hpeek]]
  dsimp only
  rcases hclose : (c.adv 1).skipWs.eat rbracket with ⟨_ | _, c₂⟩
  · obtain rfl := Cursor.eat_eq_false hclose
    have heats := hopen.trans hws
    have hinit : a.init.arrOk = false → ctx'.Loud → ctx'.Reported := fun h =>
      absurd h (by simp [FastArray.init])
    obtain ⟨ht, hends⟩ := arrayElements_twins hwalk ha base ((c.adv 1).skipWs.rest.length + 1)
      (Nat.lt_succ_self _) hp hinit
    rw [heats.ptr_eq] at ht
    refine ⟨ht.imp (fun _ => .any) fun hmute => ⟨rfl, hmute⟩, fun hok => ?_⟩
    obtain ⟨hc, vs, body, hvs, hbody⟩ := hends hok
    refine ⟨hc, .of_eats (v := .arr vs) (s := lbracket :: ((w ++ body) ++ [rbracket])) ?_ (by simp) ?_⟩
    · exact (isText_iff _ _).mpr ⟨_, rfl, .inr (hvs.ws_append hw)⟩
    · have := heats.trans hbody
      simpa [List.append_assoc] using this
  · refine ⟨(Twin.report hp _ _).imp (fun _ => .any) id, fun _ => ⟨rfl, ?_⟩⟩
    refine .of_eats (v := .arr []) (s := lbracket :: (w ++ [rbracket])) ?_ (by simp) ?_
    · exact (isText_iff _ _).mpr ⟨_, rfl, .inl ⟨rfl, hw⟩⟩
    · have := (hopen.trans hws).trans (Cursor.eat_eq_true hclose)
      simpa [List.append_assoc] using this

end

/-! ## One level -/

omit hwalk in
theorem FastNode.each_obj {node : FastNode S.Regex} (hnode : ∀ sub, node.Sub sub → G sub)
    {o : FastObject S.Regex (FastNode S.Regex)} (ho : node.obj = some o) : o.Each G where
  prop _ _ h := hnode _ (.of_prop? ho h)
  pattern _ h := hnode _ (.pattern ho h)
  additional _ h := hnode _ (.additional ho h)

omit hwalk in
theorem FastNode.each_arr {node : FastNode S.Regex} (hnode : ∀ sub, node.Sub sub → G sub)
    {a : FastArray (FastNode S.Regex)} (ha : node.arr = some a) : a.Each G where
  element _ _ h := hnode _ (.of_schemaAt ha h)
  contains _ h := hnode _ (.contains ha h)

omit hwalk in
theorem validateLiteral_twins {O : Prop} (base : String) {tok : Bytes} {v : Json} (htok : IsText v tok)
    (hne : ∀ t, v ≠ .num t) (c : Cursor) :
    WalkTwins M d (fun _ => True) O c (validateLiteral base tok c) := by
  intro ctx ctx' hp
  unfold validateLiteral
  rcases hrun : c.eatToken tok with ⟨_ | _, c'⟩
  · exact ⟨.record hp base _ _, by simp⟩
  · exact ⟨.pass hp .any,
      fun _ => ⟨rfl, .of_eats htok hne (Cursor.eatToken_eq_true hrun)⟩⟩

variable {node : FastNode S.Regex} (hnode : ∀ sub, node.Sub sub → G sub)

include hnode

/-- A scalar records its failure; a container is walked or skipped. -/
theorem validateKind_twins (c : Cursor) :
    WalkTwins M d (fun _ => True) (KindMute W Q d node c) c (validateKind S walk node c) := by
  intro ctx ctx' hp
  have failed : ∀ (keyword message : String) (c' : Cursor),
      WalkTwin M d (TextHas (fun _ => True) c) (KindMute W Q d node c) (Reads (fun _ => True) c)
        (some c.ptr) ctx ctx' ⟨false, c', ctx.record node.base keyword message⟩
        ⟨false, c', ctx'.record node.base keyword message⟩ := fun keyword message c' =>
    ⟨.record hp node.base keyword message, by simp⟩
  unfold validateKind
  -- The kinds in the order of the dispatch; what is neither of them is tried as a number.
  cases hpeek : c.peek with
  | none => exact failed _ _ _
  | some b =>
    dsimp only
    split
    · next hb =>
      subst hb
      cases ho : node.obj with
      | none =>
        obtain ⟨ht, hends⟩ := skipWalk_twins (M := M) (d := d) c ctx ctx' hp
        exact ⟨ht.imp id (.skipObject hpeek ho), hends⟩
      | some o =>
        obtain ⟨ht, hends⟩ := validateObject_twins hwalk (FastNode.each_obj hnode ho) node.base hpeek
          ctx ctx' hp
        exact ⟨ht.imp id fun h => .object hpeek ho h.1 h.2, hends⟩
    split
    · next hb =>
      subst hb
      cases ha : node.arr with
      | none =>
        obtain ⟨ht, hends⟩ := skipWalk_twins (M := M) (d := d) c ctx ctx' hp
        exact ⟨ht.imp id (.skipArray hpeek ha), hends⟩
      | some a =>
        obtain ⟨ht, hends⟩ := validateArray_twins hwalk (FastNode.each_arr hnode ha) node.base hpeek
          ctx ctx' hp
        exact ⟨ht.imp id fun h => .array hpeek ha h.1 h.2, hends⟩
    split
    · rcases hrun : c.rawString with ⟨_ | raw, c'⟩
      · exact failed _ _ _
      · obtain ⟨hraw, heats⟩ := Cursor.rawString_sound hrun
        refine ⟨(Twin.report hp node.base _).imp (fun _ => .any) id, fun _ => ⟨rfl, ?_⟩⟩
        exact .of_eats (v := .str raw) ((isText_iff _ _).mpr ⟨rfl, hraw⟩) (by simp) heats
    split
    · exact validateLiteral_twins node.base (v := .bool true) ((isText_iff _ _).mpr rfl) (by simp) c
        ctx ctx' hp
    split
    · exact validateLiteral_twins node.base (v := .bool false) ((isText_iff _ _).mpr rfl) (by simp) c
        ctx ctx' hp
    split
    · exact validateLiteral_twins node.base (v := .null) ((isText_iff _ _).mpr rfl) (by simp) c
        ctx ctx' hp
    rcases hrun : c.number with ⟨_ | ⟨tok, i⟩, c'⟩
    · exact failed _ _ _
    · exact ⟨(Twin.report hp node.base _).imp (fun _ => .any) id, fun _ => ⟨rfl, .of_number hrun⟩⟩

theorem validateStructure_twins (c : Cursor) :
    WalkTwins M d (fun _ => True) (KindMute W Q d node c ∨ ∃ c', Reads (fun _ => True) c c' ∧
      CombMute W Q node (c'.slice c.pos)) c (validateStructure S walk node c) := by
  intro ctx ctx' hp
  obtain ⟨ht, hends⟩ := validateKind_twins hwalk hnode c ctx ctx' hp
  unfold validateStructure
  generalize validateKind S walk node c ctx = k at ht hends ⊢
  generalize validateKind S walk node c ctx' = k' at ht hends ⊢
  obtain ⟨b, c₁, ctx₁⟩ := k
  obtain ⟨b', c₁', ctx₁'⟩ := k'
  obtain rfl : b' = b := ht.ok
  cases b' with
  | false => exact ⟨ht.imp id .inl, by simp⟩
  | true =>
    obtain ⟨rfl, hread⟩ := hends rfl
    have h := validateCombRaw_twins hwalk (c₁'.slice c.pos) hnode ctx₁ ctx₁' ht.pair
    have hle : c.ptr ≤ (c₁'.slice c.pos).ptr := by
      change c.ptr ≤ c₁'.ptr + c.pos
      rw [hread.ptr_eq]
      exact Nat.le_add_right _ _
    refine ⟨ht.trans ((h.at_ fun hs => hs.mono hle).imp (fun _ => .any)
      fun hmute => .inr ⟨c₁', hread, hmute⟩), fun _ => ⟨rfl, hread⟩⟩

theorem validateInner_twins (c : Cursor) :
    WalkTwins M d (fun _ => True) (NodeMute W Q d node c) c (validateInner S walk node c) := by
  intro ctx ctx' hp
  obtain ⟨ws, hws, hwsEats, -⟩ := Cursor.skipWs_spec c
  unfold validateInner
  cases hnever : node.never with
  | true => exact ⟨.record hp node.base _ _, by simp⟩
  | false =>
    simp only [Bool.false_eq_true, if_false]
    cases hpeek : c.skipWs.peek with
    | none => exact ⟨.record hp node.base _ _, by simp⟩
    | some b =>
      dsimp only
      cases hfault : node.typeFault b with
      | some fault => exact ⟨.record hp node.base fault.1 fault.2, by simp⟩
      | none =>
        cases hvalue : node.value with
        | none =>
          obtain ⟨ht, hends⟩ := validateStructure_twins hwalk hnode c.skipWs ctx ctx' hp
          rw [hwsEats.ptr_eq] at ht
          refine ⟨ht.imp (fun _ => .any) ?_, fun hok => (hends hok).imp id
            (.after hws hwsEats)⟩
          -- The node is mute in its kind, or passes it and is mute in a combinator.
          rintro (hkind | ⟨c', hread, hcomb⟩)
          · exact .kind hnever hpeek hfault hvalue hkind
          · exact .comb hnever hpeek hfault hvalue hread hcomb
        | some value =>
          dsimp only
          unfold validateValue
          rw [hp.depth]
          rcases hrun : c.skipWs.skipValue ctx.depth with ⟨_ | _, c'⟩
          · exact ⟨.record hp node.base _ _, by simp⟩
          have hread : Reads (fun _ => True) c.skipWs c' := .of_skip hrun
          dsimp only
          cases hval : S.fromSlice (c'.slice c.skipWs.pos).data with
          | none => exact ⟨.record hp node.base _ _, by simp⟩
          | some x =>
            dsimp only
            -- An accepted value is walked again from its own slice, with the kind checks and the
            -- combinators.
            by_cases hacc : value.accepts x = true
            · rw [if_pos hacc, if_pos hacc]
              have hkind : Twins M d True (KindMute W Q d node (c'.slice c.skipWs.pos)) _ fun ctx =>
                  ((validateKind S walk node (c'.slice c.skipWs.pos) ctx).ok,
                    (validateKind S walk node (c'.slice c.skipWs.pos) ctx).ctx) := fun ctx ctx' hp =>
                (validateKind_twins hwalk hnode (c'.slice c.skipWs.pos) ctx ctx' hp).twin.imp
                  (fun _ => trivial) id
              have h := hkind.andThen (fun _ => validateCombRaw_twins hwalk _ hnode) Or.inl
                (fun _ => Or.inr) ctx ctx' hp
              have hle : c.ptr ≤ (c'.slice c.skipWs.pos).ptr := by
                change c.ptr ≤ c'.ptr + c.skipWs.pos
                rw [hread.ptr_eq, hwsEats.ptr_eq]
                exact Nat.le_add_right _ _
              refine ⟨⟨h.ok, h.pair, fun hs => h.deep (hs.mono hle), h.steady,
                fun _ => .any, fun hok hl => (h.loud hok hl).imp_right fun hmute =>
                  .value hnever hpeek hfault hvalue ?_ hval hacc hmute⟩,
                fun _ => ⟨rfl, .after hws hwsEats hread⟩⟩
              rw [← hp.level (hp.of_loud hl), hrun]
            · rw [if_neg hacc, if_neg hacc]
              exact ⟨.record hp node.base _ _, by simp⟩

end

/-! ## The walk -/

/-- A refused level is counted and not left again, which the two runs do alike. -/
theorem refused_twins {M : Prop} {d : Nat} {A : Json → Prop} {O : Prop} (hM : ¬ M) (c : Cursor)
    (message : String) :
    WalkTwins M d A O c fun ctx =>
      ⟨false, c, { ctx with depth := ctx.depth + 1 }.record "" "maxDepth" message⟩ := by
  intro ctx ctx' hp
  have hin : ({ ctx with depth := ctx.depth + 1 } : Ctx).Pair M d
      { ctx' with depth := ctx'.depth + 1 } :=
    ⟨hp.plain, congrArg (· + 1) hp.depth, hp.mode, fun h => absurd h hM⟩
  have h : Twin M d (TextHas A c) O (some c.ptr) _ _ _ _ := .record hin "" "maxDepth" message
  have hdeeper : ctx.Deep { ctx with depth := ctx.depth + 1 } := ⟨_, rfl⟩
  refine ⟨⟨h.ok, h.pair, fun hs => hdeeper.trans (h.deep hs), ?_, h.post, h.loud⟩, by simp⟩
  exact ⟨h.steady.suppress, h.steady.maxErrors, h.steady.detailed, h.steady.reported⟩

/-- **Two runs of the walk**, by induction on the levels left. `G n` are the nodes walked with `n`
levels left, `W n` and `Q n` what they mean and where they are mute. -/
theorem validateLevels_twins (S : Oracles) {M : Prop} (G : Nat → FastNode S.Regex → Prop)
    (W : Nat → FastNode S.Regex → Json → Prop) (Q : Nat → FastNode S.Regex → Cursor → Prop)
    (hzero : ∀ node, G 0 node → ¬ M)
    (hsucc : ∀ n node, G (n + 1) node → ∀ sub, node.Sub sub → G n sub)
    (hW : ∀ n node c (ctx : Ctx), G n node → ctx.errors = none → (M → ctx.depth + n = maxDepth) →
      (validateLevels S n node c ctx).ok = true → TextHas (W n node) c)
    (hQ : ∀ n node c, M → NodeMute (W n) (Q n) (maxDepth - n) node c → Q (n + 1) node c) (n : Nat)
    {d : Nat} (hd : M → d + n = maxDepth) (node : FastNode S.Regex) (hG : G n node) (c : Cursor) :
    WalkTwins M d (W n node) (Q n node c) c (validateLevels S n node c) := by
  induction n generalizing d node c with
  | zero => exact refused_twins (hzero node hG) c _
  | succ n ih =>
    intro ctx ctx' hp
    have hmeans := hW (n + 1) node c ctx hG hp.plain fun hM => by rw [hp.level hM, hd hM]
    rw [validateLevels] at hmeans ⊢
    rw [validateLevels]
    dsimp only at hmeans ⊢
    rw [hp.depth]
    -- Deeper than the limit the walk refuses, which `M` rules out where it is assumed.
    by_cases hle : ctx.depth + 1 ≤ maxDepth
    · rw [if_pos hle] at hmeans ⊢
      rw [if_pos hle]
      have hwalk := fun sub hsub c => ih (d := d + 1) (fun hM => by have := hd hM; omega) sub hsub c
      obtain ⟨ht, hends⟩ := validateInner_twins hwalk (hsucc n node hG) c
        { ctx with depth := ctx.depth + 1 } { ctx' with depth := ctx.depth + 1 }
        ⟨hp.plain, rfl, hp.mode, fun hM => congrArg (· + 1) (hp.level hM)⟩
      have hdeeper : ctx.Deep { ctx with depth := ctx.depth + 1 } := ⟨_, rfl⟩
      refine ⟨⟨ht.ok, ⟨ht.pair.plain, congrArg (· - 1) ht.pair.depth, ht.pair.mode, fun hM => ?_⟩,
        fun hs => (hdeeper.trans (ht.deep hs)).trans ⟨_, rfl⟩, ?_, hmeans, fun hok hl => ?_⟩, hends⟩
      · exact congrArg (· - 1) (ht.pair.level hM)
      · exact ⟨ht.steady.suppress, ht.steady.maxErrors, ht.steady.detailed, ht.steady.reported⟩
      · refine (ht.loud hok hl).imp id fun hmute => ?_
        have hM : M := hp.of_loud hl
        refine hQ n node c hM ?_
        rwa [show maxDepth - n = d + 1 by have := hd hM; omega]
    · rw [if_neg hle, if_neg hle]
      have hM : ¬ M := fun hM => hle (by have := hd hM; rw [hp.level hM]; omega)
      have href := refused_twins (d := d) (A := W (n + 1) node) (O := Q (n + 1) node c) hM c
        "maximum JSON nesting depth exceeded" ctx ctx' hp
      dsimp only at href
      rwa [hp.depth] at href

theorem validateLevels_walks (S : Oracles) (n : Nat) : Walks (validateLevels S n) := fun node _ c =>
  validateLevels_twins S (fun _ _ => True) (fun _ _ _ => True) (fun _ _ _ => True) (fun _ _ => id)
    (fun _ _ _ _ _ => trivial) (fun _ _ _ _ _ _ _ _ _ _ _ _ _ _ _ _ => trivial)
    (fun _ _ _ _ _ => trivial) n False.elim node trivial c

/-- **A schema that nests within the levels that are left** leaves the depth as it found it, in any
mode. -/
theorem validateLevels_depth (S : Oracles) {n : Nat} {node : FastNode S.Regex} (hnest : Nests n node)
    (c : Cursor) {ctx : Ctx} (hd : ctx.depth + n = maxDepth) :
    (validateLevels S n node c ctx).ctx.depth = ctx.depth :=
  (validateLevels_twins S (M := True) Nests (fun _ _ _ => True) (fun _ _ _ => True)
    (fun _ h => h.elim) (fun _ _ h => h) (fun _ _ _ _ _ _ _ _ _ _ _ _ _ _ _ _ => trivial)
    (fun _ _ _ _ _ => trivial) n (fun _ => hd) node hnest c).alone trivial rfl |>.2

/-! ## Results -/

/-- What an accepted body is: the walk has read a value, and only whitespace follows. -/
theorem isDocument_of_walk {c : Cursor} {bytes : Bytes} {ptr : Nat}
    (hread : Reads (fun _ => True) (Cursor.new bytes ptr) c) (hend : c.skipWs.pos = bytes.length) :
    ∃ v, IsDocument v bytes := by
  obtain ⟨w₁, s, v, hw₁, hv, -, heats, -⟩ := hread
  obtain ⟨w₂, hw₂, hws, -⟩ := Cursor.skipWs_spec c
  have hall := heats.trans hws
  have hnil : c.skipWs.rest = [] := by
    rw [Cursor.rest, hend, hall.data_eq]
    exact List.drop_length
  refine ⟨v, w₁, s, w₂, ?_, hw₁, hv, hw₂⟩
  have := hall.1
  rw [hnil, Cursor.rest_new, List.append_nil, List.append_assoc] at this
  exact this

theorem isDocument_of_isValidBytes {S : Oracles} {node : FastNode S.Regex} {bytes : Bytes}
    (h : isValidBytes S node bytes = true) : ∃ v, IsDocument v bytes := by
  obtain ⟨hok, hend⟩ := Bool.and_eq_true_iff.mp h
  have hwalk := validateLevels_walks S maxDepth node trivial (Cursor.new bytes 0) _ _
    (Ctx.pair_plain (rfl : Ctx.boolMode.errors = none))
  exact isDocument_of_walk (hwalk.ends hok).2 (beq_iff_eq.mp hend)

/-- **The well-formedness gate.** A body that `is_valid_bytes` accepts is a JSON document, whatever
the schema. `skip_value` at a depth succeeds only behind a value of the grammar that fits below the
cap, and on every such value, and stops right after it. -/
theorem isValidBytes_wellFormed :
    (∀ (S : Oracles) (node : FastNode S.Regex) (bytes : Bytes), isValidBytes S node bytes = true →
      ∃ v, IsDocument v bytes) ∧
    (∀ (c c' : Cursor) (depth : Nat), c.skipValue depth = (true, c') →
      depth ≤ maxDepth ∧ Skips (JsonText (maxDepth - depth)) c c') ∧
    (∀ (c : Cursor) (depth : Nat) (v : Json) (ws s t : Bytes), depth ≤ maxDepth →
      JsonText (maxDepth - depth) v s → IsWs ws → Ends v s t → c.rest = ws ++ (s ++ t) →
        ∃ c', c.skipValue depth = (true, c') ∧ Eats c (ws ++ s) c') := by
  refine ⟨fun _ _ _ => isDocument_of_isValidBytes, fun _ _ _ => Cursor.skipValue_sound, ?_⟩
  intro c depth v ws s t hdepth hv hws ht hc
  have := hv.height_le
  exact Cursor.skipValue_complete (by omega) hws ⟨_, hv⟩ ht hc

theorem isValidBytes_wellFormed_nested :
    isValidBytes .nullOnly .any [91, 32, 123, 125, 93] = true ∧
      ∃ v, IsDocument v [91, 32, 123, 125, 93] :=
  ⟨by decide +kernel, isValidBytes_wellFormed.1 .nullOnly .any _ (by decide +kernel)⟩

end Castrum
