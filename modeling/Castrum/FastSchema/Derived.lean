import Castrum.FastSchema.Exact
import Castrum.FastSchema.Twin
import Castrum.FastSchema.Trie

/-!
# Castrum — what a capturing walk finds

A walk that passes over a text of `v` shows its capture values and array lengths that lie in `v`:
each event names the keys that lead to a part of `v`, and the range or the count of that part. The
elements of an array lie under the keys of the array, for the walk enters no key for an index.

* `KeyPath`, `Lies` — where a part lies, and what an event says about the document;
* `Reaches` — what a walk comes by, from the schema and the document alone;
* `Finds` — a walk whose events lie in the value it is over, and tell all that it reaches;
* `objectMembers_finds`, `arrayElements_finds` — the loops, by induction on their fuel;
* `validateWithCapture_shown` — what each target of a validation finds.
-/

namespace Castrum

open Ascii

open Cursor (Eats Ends)

/-! ## Parts of a document -/

/-- `w` lies in `v` under the keys `q`. -/
inductive KeyPath : Json → List Bytes → Json → Prop where
  | here {v : Json} : KeyPath v [] v
  | member {ms : List (Bytes × Json)} {m : Bytes × Json} {q : List Bytes} {w : Json} :
      m ∈ ms → KeyPath m.2 q w → KeyPath (.obj ms) (textOf m.1 :: q) w
  | element {items : List Json} {x : Json} {q : List Bytes} {w : Json} :
      x ∈ items → KeyPath x q w → KeyPath (.arr items) q w

/-- The bytes of `input` from `start` to `stop` are a text of `w`. -/
def TextAt (input : Bytes) (start stop : Nat) (w : Json) : Prop :=
  start < stop ∧ stop ≤ input.length ∧ IsText w ((input.drop start).take (stop - start))

/-- What an event says of `v` is so. -/
def Lies (input : Bytes) (v : Json) (e : Event) : Prop :=
  match e.2 with
  | .value start stop => ∃ w, KeyPath v e.1 w ∧ TextAt input start stop w
  | .length n => ∃ items, KeyPath v e.1 (.arr items) ∧ n = items.length

section

variable {input : Bytes} {ms : List (Bytes × Json)} {m : Bytes × Json} {items : List Json} {x : Json}
  {e : Event}

theorem Lies.member (hm : m ∈ ms) (h : Lies input m.2 e) :
    Lies input (.obj ms) (e.under (textOf m.1)) := by
  obtain ⟨q, s⟩ := e
  cases s with
  | value start stop =>
    obtain ⟨w, hw, htext⟩ := h
    exact ⟨w, .member hm hw, htext⟩
  | length n =>
    obtain ⟨items, hw, hn⟩ := h
    exact ⟨items, .member hm hw, hn⟩

theorem Lies.element (hx : x ∈ items) (h : Lies input x e) : Lies input (.arr items) e := by
  obtain ⟨q, s⟩ := e
  cases s with
  | value start stop =>
    obtain ⟨w, hw, htext⟩ := h
    exact ⟨w, .element hx hw, htext⟩
  | length n =>
    obtain ⟨items', hw, hn⟩ := h
    exact ⟨items', .element hx hw, hn⟩

end

/-! ## What a walk comes by

A walk shows every member of an object it walks, and the length of every array that has elements. It
descends into a member where one schema applies to it without a pattern, and into the elements that
have a schema. A member that a pattern could cover and a value with an `enum` or `const` are walked
from their own slice, whose addresses are not those of the input, so that nothing below is shown. -/

/-- The schema that a member is walked with in place. -/
def FastObject.descends? {Re N : Type} (o : FastObject Re N) (key : Bytes) : Option N :=
  if o.patterns.isEmpty then
    match o.prop? key, o.additional with
    | some sub, _ => some sub
    | none, .schema sub => some sub
    | none, _ => none
  else none

/-- The walk of `node` over `v` comes by what `t` asks for. -/
inductive Reaches {S : Oracles} : FastNode S.Regex → Json → TargetPath → Prop where
  | member {node o ms m} : node.value = none → node.obj = some o → m ∈ ms →
      Reaches node (.obj ms) ⟨[textOf m.1], .value⟩
  | under {node o ms m sub t} : node.value = none → node.obj = some o → m ∈ ms →
      o.descends? (textOf m.1) = some sub → Reaches sub m.2 t →
      Reaches node (.obj ms) ⟨textOf m.1 :: t.steps, t.kind⟩
  | length {node a items} : node.value = none → node.arr = some a → items ≠ [] →
      Reaches node (.arr items) ⟨[], .length⟩
  | element {node a items i x sub t} : node.value = none → node.arr = some a → items[i]? = some x →
      a.schemaAt S i = .schema sub → Reaches sub x t → Reaches node (.arr items) t

/-- What is come by at one member. -/
def MemberReaches {S : Oracles} (o : FastObject S.Regex (FastNode S.Regex)) (m : Bytes × Json)
    (t : TargetPath) : Prop :=
  t = ⟨[textOf m.1], .value⟩ ∨ ∃ sub t', o.descends? (textOf m.1) = some sub ∧ Reaches sub m.2 t' ∧
    t = ⟨textOf m.1 :: t'.steps, t'.kind⟩

section

variable {S : Oracles} {node : FastNode S.Regex} {t : TargetPath}

theorem Reaches.value_eq {v : Json} (h : Reaches node v t) : node.value = none := by
  cases h <;> assumption

theorem Reaches.of_obj {ms : List (Bytes × Json)} (h : Reaches node (.obj ms) t) :
    ∃ o, node.obj = some o ∧ ∃ m ∈ ms, MemberReaches o m t := by
  cases h with
  | member _ ho hm => exact ⟨_, ho, _, hm, .inl rfl⟩
  | under _ ho hm hsub h => exact ⟨_, ho, _, hm, .inr ⟨_, _, hsub, h, rfl⟩⟩

theorem Reaches.of_arr {items : List Json} (h : Reaches node (.arr items) t) :
    ∃ a, node.arr = some a ∧ items ≠ [] ∧ (t = ⟨[], .length⟩ ∨ ∃ i x sub, items[i]? = some x ∧
      a.schemaAt S i = .schema sub ∧ Reaches sub x t) := by
  cases h with
  | length _ ha hne => exact ⟨_, ha, hne, .inl rfl⟩
  | element _ ha hx hsub h =>
    refine ⟨_, ha, ?_, .inr ⟨_, _, _, hx, hsub, h⟩⟩
    rintro rfl
    simp at hx

end

/-- What the events `es` tell of `v`: nothing but what is so, and all of what is `due`. -/
structure Tells (input : Bytes) (v : Json) (due : TargetPath → Prop) (es : List Event) : Prop where
  lies : ∀ e ∈ es, Lies input v e
  told : ∀ t, due t → ∃ e ∈ es, e.target = t

section

variable {input : Bytes} {v : Json} {due due' due'' : TargetPath → Prop} {es es' : List Event}

theorem Tells.nil (h : ∀ t, ¬ due t) : Tells input v due [] :=
  ⟨fun _ he => absurd he List.not_mem_nil, fun t ht => absurd ht (h t)⟩

theorem Tells.imp (h : Tells input v due es) (hdue : ∀ t, due' t → due t) : Tells input v due' es :=
  ⟨h.lies, fun t ht => h.told t (hdue t ht)⟩

theorem Tells.append (h : Tells input v due es) (h' : Tells input v due' es')
    (hdue : ∀ t, due'' t → due t ∨ due' t) : Tells input v due'' (es ++ es') := by
  refine ⟨fun e he => (List.mem_append.mp he).elim (h.lies e) (h'.lies e), fun t ht => ?_⟩
  rcases hdue t ht with ht | ht
  · obtain ⟨e, he, rfl⟩ := h.told t ht
    exact ⟨e, List.mem_append_left _ he, rfl⟩
  · obtain ⟨e, he, rfl⟩ := h'.told t ht
    exact ⟨e, List.mem_append_right _ he, rfl⟩

theorem Tells.element {items : List Json} (hv : v ∈ items) (h : Tells input v due es) :
    Tells input (.arr items) due es :=
  ⟨fun e he => Lies.element hv (h.lies e he), h.told⟩

theorem Tells.length (items : List Json) :
    Tells input (.arr items) (· = ⟨[], .length⟩) [([], .length items.length)] := by
  refine ⟨fun e he => ?_, fun t ht => ⟨_, List.mem_cons_self, ht.symm⟩⟩
  rw [List.mem_singleton.mp he]
  exact ⟨items, .here, rfl⟩

end

/-! ## Showing events -/

theorem Capture.play_append (cap : Capture) (es es' : List Event) :
    cap.play (es ++ es') = (cap.play es).play es' := List.foldl_append

/-- Bool mode, outside every suppressed sub-walk, with `cap` to capture into. -/
structure Ctx.Capturing (ctx : Ctx) (cap : Capture) : Prop where
  boolMode : ctx.errors = none
  loud : ctx.suppress = false
  input : ctx.inputPtr = some 0
  capture : ctx.capture = some cap
  stack : cap.stack ≠ []

/-- The events `es` were shown to `cap`; beside that, only the depth differs. -/
def Ctx.Shows (ctx : Ctx) (cap : Capture) (es : List Event) (ctx' : Ctx) : Prop :=
  ∃ d, ctx' = { ctx with depth := d, capture := some (cap.play es) }

section

variable {ctx ctx' ctx'' : Ctx} {cap : Capture} {es es' : List Event}

theorem Ctx.Capturing.shows (h : ctx.Capturing cap) (hs : ctx.Shows cap es ctx') :
    ctx'.Capturing (cap.play es) := by
  obtain ⟨d, rfl⟩ := hs
  exact ⟨h.boolMode, h.loud, h.input, rfl, by rw [Capture.play_stack]; exact h.stack⟩

theorem Ctx.Capturing.deeper (h : ctx.Capturing cap) (d : Nat) :
    ({ ctx with depth := d } : Ctx).Capturing cap := ⟨h.boolMode, h.loud, h.input, h.capture, h.stack⟩

theorem Ctx.Deep.shows (h : ctx.Deep ctx') (hcap : ctx.capture = some cap) : ctx.Shows cap [] ctx' := by
  obtain ⟨d, rfl⟩ := h
  exact ⟨d, by rw [show some (cap.play []) = ctx.capture from hcap.symm]⟩

theorem Ctx.Shows.refl (h : ctx.Capturing cap) : ctx.Shows cap [] ctx :=
  (Ctx.Deep.refl ctx).shows h.capture

theorem Ctx.Shows.trans (h : ctx.Shows cap es ctx') (h' : ctx'.Shows (cap.play es) es' ctx'') :
    ctx.Shows cap (es ++ es') ctx'' := by
  obtain ⟨d, rfl⟩ := h
  obtain ⟨d', rfl⟩ := h'
  exact ⟨d', by rw [Capture.play_append]⟩

/-- A change of depth behind the events. -/
theorem Ctx.Shows.deep (h : ctx.Shows cap es ctx') (h' : ctx'.Deep ctx'') : ctx.Shows cap es ctx'' := by
  obtain ⟨d, rfl⟩ := h
  obtain ⟨d', rfl⟩ := h'
  exact ⟨d', rfl⟩

/-- A change of depth before the events. -/
theorem Ctx.Shows.after_deep {d : Nat} (h : ({ ctx with depth := d } : Ctx).Shows cap es ctx') :
    ctx.Shows cap es ctx' := by
  obtain ⟨d', rfl⟩ := h
  exact ⟨d', rfl⟩

theorem Ctx.Capturing.onCapture (h : ctx.Capturing cap) (f : Capture → Capture) :
    ctx.onCapture 0 f = { ctx with capture := some (f cap) } := by
  unfold Ctx.onCapture
  rw [h.capture]
  dsimp only
  rw [if_neg]
  rintro (hs | hp)
  · rw [h.loud] at hs
    cases hs
  · exact hp h.input.symm

theorem Ctx.Capturing.recordValue (h : ctx.Capturing cap) (start stop : Nat) :
    ctx.Shows cap [([], .value start stop)] (ctx.captureRecordValue 0 start stop) := by
  refine ⟨ctx.depth, ?_⟩
  rw [Ctx.captureRecordValue, h.onCapture, Capture.recordValue_eq h.stack]

theorem Ctx.Capturing.recordLength (h : ctx.Capturing cap) (count : Nat) :
    ctx.Shows cap [([], .length count)] (ctx.captureRecordLength 0 count) := by
  refine ⟨ctx.depth, ?_⟩
  rw [Ctx.captureRecordLength, h.onCapture, Capture.recordLength_eq h.stack]

/-- Inside a key. -/
theorem Ctx.Capturing.enterKey (h : ctx.Capturing cap) (key : Bytes) :
    (ctx.captureEnterKey 0 key).Capturing (cap.enterKey key) := by
  rw [Ctx.captureEnterKey, h.onCapture]
  refine ⟨h.boolMode, h.loud, h.input, rfl, ?_⟩
  rw [Capture.enterKey_eq]
  simp

/-- What is shown inside a key is shown under it. -/
theorem Ctx.Capturing.exitKey (h : ctx.Capturing cap) {key : Bytes}
    (hs : (ctx.captureEnterKey 0 key).Shows (cap.enterKey key) es ctx') :
    ctx.Shows cap (es.map (Event.under key)) (ctx'.captureExitKey 0) := by
  have h' := (h.enterKey key).shows hs
  obtain ⟨d, rfl⟩ := hs
  refine ⟨d, ?_⟩
  rw [Ctx.captureExitKey, h'.onCapture, Ctx.captureEnterKey, h.onCapture]
  dsimp only
  rw [Capture.exitKey_play h.stack]

end

/-- Where no whitespace stands there is none to skip. -/
theorem Cursor.skipWs_of_head {c : Cursor} (h : ∀ b ∈ c.rest.head?, isWs b = false) : c.skipWs = c := by
  rw [Cursor.skipWs, Cursor.wsRun_of_head h]
  rfl

/-! ## Walks that find

The claim that is proved of every part of the walk: a pass reads the text, and shows what is due and
nothing untrue. -/

/-- A cursor over the input itself: at address `0`, over a first part of it. -/
structure OnInput (input : Bytes) (c : Cursor) : Prop where
  ptr : c.ptr = 0
  data : c.data <+: input

/-- Over a text of `v`, a capturing walk that passes has consumed it, and shown what lies in `v`,
with all that is `due`. -/
def Finds (input : Bytes) (f : Cursor → Ctx → Walk) (v : Json) (due : TargetPath → Prop) : Prop :=
  ∀ (c : Cursor) (ctx : Ctx) (cap : Capture) (s t : Bytes), IsText v s → Ends v s t → c.rest = s ++ t →
    OnInput input c → ctx.Capturing cap → (f c ctx).ok = true →
      Eats c s (f c ctx).c ∧ ∃ es, ctx.Shows cap es (f c ctx).ctx ∧ Tells input v due es

/-- Nothing is due. -/
abbrev NoneDue : TargetPath → Prop := fun _ => False

/-- The same of a part of the walk over the slice of a value, where nothing is due. -/
def FindsIn (input : Bytes) (g : Ctx → Bool × Ctx) (v : Json) : Prop :=
  ∀ (ctx : Ctx) (cap : Capture), ctx.Capturing cap → (g ctx).1 = true →
    ∃ es, ctx.Shows cap es (g ctx).2 ∧ Tells input v NoneDue es

theorem Finds.imp {input : Bytes} {f : Cursor → Ctx → Walk} {v : Json} {due due' : TargetPath → Prop}
    (h : Finds input f v due) (hdue : ∀ t, due' t → due t) : Finds input f v due' := by
  intro c ctx cap s t hs ht hc hon hcap hok
  obtain ⟨heats, es, hshows, hes⟩ := h c ctx cap s t hs ht hc hon hcap hok
  exact ⟨heats, es, hshows, hes.imp hdue⟩

section

variable {input : Bytes} {v : Json} {c c' : Cursor} {s t : Bytes}

theorem OnInput.eats (h : OnInput input c) (heats : Eats c s c') : OnInput input c' :=
  ⟨heats.ptr_eq.trans h.ptr, by rw [heats.data_eq]; exact h.data⟩

/-- What is left of the cursor is what is left of the input, up to where its data ends. -/
theorem OnInput.rest_prefix (h : OnInput input c) : c.rest <+: input.drop c.pos := by
  obtain ⟨t, ht⟩ := h.data
  rw [Cursor.rest, ← ht]
  exact (List.prefix_append _ t).drop _

/-- A text that was consumed is the text of the input at its range. -/
theorem OnInput.textAt (h : OnInput input c) (hs : IsText v s) (heats : Eats c s c') :
    TextAt input c.pos c'.pos v := by
  obtain ⟨u, hu⟩ := h.rest_prefix
  have hdrop : input.drop c.pos = s ++ (c'.rest ++ u) := by
    rw [← hu, heats.1, List.append_assoc]
  have hpos : 0 < s.length := by
    refine List.length_pos_iff.mpr ?_
    rintro rfl
    obtain ⟨b, y, hby, -⟩ := hs.starts
    cases hby
  have hlen := congrArg List.length hdrop
  rw [List.length_drop, List.length_append] at hlen
  rw [TextAt, heats.pos_eq, show c.pos + s.length - c.pos = s.length by omega, hdrop, List.take_left]
  exact ⟨by omega, by omega, hs⟩

/-- The slice of a consumed text: at address `0` it is a first part of the input. -/
theorem OnInput.slice (h : OnInput input c) (heats : Eats c s c') :
    c'.slice c.pos = Cursor.new s c.pos ∧ (c.pos = 0 → s <+: input) := by
  refine ⟨by rw [heats.slice_eq, h.ptr, Nat.zero_add], fun h0 => ?_⟩
  have hrest := h.rest_prefix
  rw [h0, List.drop_zero] at hrest
  exact ((List.prefix_append s _).trans (by rw [heats.1])).trans hrest

theorem findsIn_of_deep {g : Ctx → Bool × Ctx}
    (h : ∀ ctx : Ctx, ctx.errors = none → ctx.Deep (g ctx).2) : FindsIn input g v := fun ctx _ hcap _ =>
  ⟨[], (h ctx hcap.boolMode).shows hcap.capture, .nil fun _ => id⟩

theorem findsIn_andThen {f g : Ctx → Bool × Ctx} (hf : FindsIn input f v) (hg : FindsIn input g v) :
    FindsIn input (andThen f g) v := by
  intro ctx cap hcap hok
  rw [andThen] at hok ⊢
  rcases hrun : f ctx with ⟨_ | _, ctx'⟩
  · rw [hrun] at hok
    cases hok
  · rw [hrun] at hok
    obtain ⟨es, hshows, hes⟩ := hf ctx cap hcap (by rw [hrun])
    rw [hrun] at hshows
    obtain ⟨es', hshows', hes'⟩ := hg ctx' _ (hcap.shows hshows) hok
    exact ⟨es ++ es', hshows.trans hshows', hes.append hes' fun _ => .inl⟩

theorem skipWalk_finds : Finds input skipWalk v NoneDue := by
  intro c ctx cap s t hs ht hc _ hcap hok
  exact ⟨Cursor.skipValue_of_text (Prod.ext hok rfl) hs ht hc, [], .refl hcap, .nil fun _ => id⟩

/-- Off the input, nothing is captured. -/
theorem Ctx.Capturing.silent {ctx : Ctx} {cap : Capture} (h : ctx.Capturing cap) {p : Nat} (hp : p ≠ 0) :
    ctx.Silent (some p) := by
  refine .inr fun q hq a ha hin => ?_
  cases hq
  rw [h.input, Option.some.injEq] at hin
  omega

/-- A walk over the slice of a value: at address `0` the input is walked again, and elsewhere nothing
is captured. -/
theorem findsIn_slice {f : Cursor → Ctx → Walk} (hf : Finds input f v NoneDue)
    (hsil : ∀ c, WalkTwins False 0 (fun _ => True) True c (f c)) (hs : IsText v s) {ptr : Nat}
    (hptr : ptr = 0 → s <+: input) :
    FindsIn input (fun ctx => ((f (Cursor.new s ptr) ctx).ok, (f (Cursor.new s ptr) ctx).ctx)) v := by
  intro ctx cap hcap hok
  by_cases h0 : ptr = 0
  · subst h0
    exact (hf (Cursor.new s 0) ctx cap s [] hs (.inl Stops.nil) (by simp) ⟨rfl, hptr rfl⟩ hcap hok).2
  · exact ⟨[], ((hsil _ ctx ctx (Ctx.pair_plain hcap.boolMode)).twin.deep
      (hcap.silent h0)).shows hcap.capture, .nil fun _ => id⟩

end

/-! ## Combinators -/

section

variable {S : Oracles} {walk : FastNode S.Regex → Cursor → Ctx → Walk} {input : Bytes}
variable (hfinds : ∀ sub v, Finds input (walk sub) v (Reaches sub v)) (hsil : Walks walk)
variable {v : Json} {s : Bytes} (hs : IsText v s) {ptr : Nat} (hptr : ptr = 0 → s <+: input)

include hfinds hsil hs hptr

theorem onRaw_finds (sub : FastNode S.Regex) :
    FindsIn input (onRaw S walk sub (Cursor.new s ptr)) v :=
  findsIn_slice ((hfinds sub v).imp fun _ => False.elim) (hsil sub trivial) hs hptr

theorem walkAll_finds (subs : List (FastNode S.Regex)) :
    FindsIn input (walkAll S walk (Cursor.new s ptr) subs) v := by
  induction subs with
  | nil => exact findsIn_of_deep fun ctx _ => .refl ctx
  | cons sub subs ih => exact findsIn_andThen (onRaw_finds hfinds hsil hs hptr sub) ih

/-- A suppressed guard shows nothing; the branch that it picks is walked aloud. -/
theorem combIf_finds (comb : FastComb (FastNode S.Regex)) :
    FindsIn input (combIf S walk comb (Cursor.new s ptr)) v := by
  intro ctx cap hcap hok
  unfold combIf at hok ⊢
  split at hok
  · exact ⟨[], .refl hcap, .nil fun _ => id⟩
  · next i t e _ =>
    have hprobe : Twins False 0 _ True none (probe S walk (Cursor.new s ptr) i) :=
      probe_twins hsil trivial _
    obtain ⟨d, hd⟩ := hprobe.deep hcap.boolMode
    dsimp only at hok ⊢
    rw [hd] at hok ⊢
    generalize (if (probe S walk (Cursor.new s ptr) i ctx).1 = true then t else e) = branch at hok ⊢
    cases branch with
    | none => exact ⟨[], (Ctx.Shows.refl (hcap.deeper d)).after_deep, .nil fun _ => id⟩
    | some sub =>
      obtain ⟨es, hshows, hes⟩ := onRaw_finds hfinds hsil hs hptr sub _ cap (hcap.deeper d) hok
      exact ⟨es, hshows.after_deep, hes⟩

theorem validateCombRaw_finds (node : FastNode S.Regex) :
    FindsIn input (validateCombRaw S walk node (Cursor.new s ptr)) v := by
  intro ctx cap hcap hok
  unfold validateCombRaw at hok ⊢
  split at hok
  · exact ⟨[], .refl hcap, .nil fun _ => id⟩
  · next comb _ =>
    refine findsIn_andThen (walkAll_finds hfinds hsil hs hptr comb.allOf) ?_ ctx cap hcap hok
    refine findsIn_andThen (findsIn_of_deep fun ctx h =>
      (combAnyOf_twins hsil node.base _ fun _ _ => trivial).deep h) ?_
    refine findsIn_andThen (findsIn_of_deep fun ctx h =>
      (combOneOf_twins hsil node.base _ fun _ _ => trivial).deep h) ?_
    refine findsIn_andThen (findsIn_of_deep fun ctx h =>
      (combNot_twins hsil node.base _ fun _ _ => trivial).deep h) ?_
    exact combIf_finds hfinds hsil hs hptr comb

/-! ## Members -/

theorem walkPatterns_finds (key : Bytes) (patterns : List (S.Regex × FastNode S.Regex)) :
    FindsIn input (fun ctx => (walkPatterns S walk key (Cursor.new s ptr) patterns ctx).2) v := by
  induction patterns with
  | nil => exact findsIn_of_deep fun ctx _ => .refl ctx
  | cons p patterns ih =>
    obtain ⟨re, sub⟩ := p
    by_cases hcov : covers S key re = true
    · have hboth : (fun ctx => (walkPatterns S walk key (Cursor.new s ptr) ((re, sub) :: patterns) ctx).2) =
          andThen (onRaw S walk sub (Cursor.new s ptr))
            fun ctx => (walkPatterns S walk key (Cursor.new s ptr) patterns ctx).2 := by
        funext ctx
        rw [walkPatterns, if_pos hcov, andThen]
        rcases onRaw S walk sub (Cursor.new s ptr) ctx with ⟨_ | _, ctx'⟩ <;> rfl
      rw [hboth]
      exact findsIn_andThen (onRaw_finds hfinds hsil hs hptr sub) ih
    · have hnext : (fun ctx => (walkPatterns S walk key (Cursor.new s ptr) ((re, sub) :: patterns) ctx).2) =
          fun ctx => (walkPatterns S walk key (Cursor.new s ptr) patterns ctx).2 := by
        funext ctx
        rw [walkPatterns, if_neg hcov]
      rw [hnext]
      exact ih

variable (base : String) (o : FastObject S.Regex (FastNode S.Regex)) (key : Bytes)

theorem memberRaw_finds : FindsIn input (memberRaw S walk o base key (Cursor.new s ptr)) v := by
  refine findsIn_andThen ?_ ?_
  · cases o.prop? key with
    | none => exact findsIn_of_deep fun ctx _ => .refl ctx
    | some sub => exact onRaw_finds hfinds hsil hs hptr sub
  · intro ctx cap hcap hok
    have hpats := walkPatterns_finds hfinds hsil hs hptr key o.patterns ctx cap hcap
    dsimp only at hok hpats ⊢
    rcases hrun : walkPatterns S walk key (Cursor.new s ptr) o.patterns ctx with ⟨matched, _ | _, ctx'⟩
    · rw [hrun] at hok
      cases hok
    · rw [hrun] at hok hpats
      obtain ⟨es, hshows, hes⟩ := hpats rfl
      dsimp only at hok hshows ⊢
      split at hok
      · rw [if_pos ‹_›]
        exact ⟨es, hshows, hes⟩
      · rw [if_neg ‹_›]
        unfold walkAdditional at hok ⊢
        cases hadd : o.additional with
        | allow => exact ⟨es, hshows, hes⟩
        | deny =>
          rw [hadd] at hok
          cases hok
        | schema sub =>
          rw [hadd] at hok
          obtain ⟨es', hshows', hes'⟩ :=
            onRaw_finds hfinds hsil hs hptr sub ctx' _ (hcap.shows hshows) hok
          exact ⟨es ++ es', hshows.trans hshows', hes.append hes' fun _ => .inl⟩

end

section

variable {S : Oracles} {walk : FastNode S.Regex → Cursor → Ctx → Walk} {input : Bytes}
variable (hfinds : ∀ sub v, Finds input (walk sub) v (Reaches sub v)) (hsil : Walks walk)

include hfinds hsil

variable (base : String) (o : FastObject S.Regex (FastNode S.Regex)) (key : Bytes) {v : Json}

/-- Without patterns the member is walked in place, with the one schema that applies to it; with
patterns it is walked from its slice, and nothing is due. -/
theorem memberValue_finds : Finds input (memberValue S walk o base key) v
    (fun t => ∃ sub, o.descends? key = some sub ∧ Reaches sub v t) := by
  intro c ctx cap s t hs ht hc hon hcap hok
  unfold memberValue at hok ⊢
  split at hok
  · next hpatterns =>
    rw [if_pos hpatterns]
    cases hp : o.prop? key with
    | some sub =>
      rw [hp] at hok
      refine (hfinds sub v).imp ?_ c ctx cap s t hs ht hc hon hcap hok
      rintro t ⟨sub', hsub, h⟩
      rw [FastObject.descends?, if_pos hpatterns, hp] at hsub
      cases hsub
      exact h
    | none =>
      rw [hp] at hok
      unfold walkAdditional at hok ⊢
      cases hadd : o.additional with
      | allow =>
        -- the value is skipped, and there is nothing to descend with
        rw [hadd] at hok
        refine skipWalk_finds.imp ?_ c ctx cap s t hs ht hc hon hcap hok
        rintro t ⟨sub, hsub, -⟩
        rw [FastObject.descends?, if_pos hpatterns, hp, hadd] at hsub
        cases hsub
      | deny =>
        rw [hadd] at hok
        cases hok
      | schema sub =>
        rw [hadd] at hok
        refine (hfinds sub v).imp ?_ c ctx cap s t hs ht hc hon hcap hok
        rintro t ⟨sub', hsub, h⟩
        rw [FastObject.descends?, if_pos hpatterns, hp, hadd] at hsub
        cases hsub
        exact h
  · next hpatterns =>
    rw [if_neg hpatterns]
    rcases hrun : c.skipValue ctx.depth with ⟨_ | _, c'⟩
    · rw [hrun] at hok
      cases hok
    · rw [hrun] at hok
      have heats := Cursor.skipValue_of_text hrun hs ht hc
      obtain ⟨hslice, hpre⟩ := hon.slice heats
      dsimp only at hok ⊢
      rw [hslice] at hok ⊢
      obtain ⟨es, hshows, hes⟩ := memberRaw_finds hfinds hsil hs hpre base o key ctx cap hcap hok
      refine ⟨heats, es, hshows, hes.imp ?_⟩
      rintro t ⟨sub, hsub, -⟩
      rw [FastObject.descends?, if_neg hpatterns] at hsub
      cases hsub

/-- A member shows what its value shows, and then the value, under the key. -/
theorem member_finds {ms : List (Bytes × Json)} {m : Bytes × Json} (hm : m ∈ ms) {c : Cursor}
    {ctx : Ctx} {cap : Capture} {s t : Bytes} (hs : IsText m.2 s) (ht : Ends m.2 s t)
    (hc : c.rest = s ++ t) (hon : OnInput input c) (hcap : ctx.Capturing cap)
    (hok : (member S walk o base (textOf m.1) c ctx).ok = true) :
    Eats c s (member S walk o base (textOf m.1) c ctx).c ∧
      ∃ es, ctx.Shows cap es (member S walk o base (textOf m.1) c ctx).ctx ∧
        Tells input (.obj ms) (MemberReaches o m) es := by
  have hin := hcap.enterKey (textOf m.1)
  have hvalue := memberValue_finds hfinds hsil base o (textOf m.1) c _ _ s t hs ht hc hon hin
  unfold member at hok ⊢
  dsimp only at hok ⊢
  rw [hon.ptr, Ctx.pushKey_eq hin.boolMode] at hok ⊢
  generalize memberValue S walk o base (textOf m.1) c (ctx.captureEnterKey 0 (textOf m.1)) = r
    at hok hvalue ⊢
  obtain ⟨heats, es, hshows, hes⟩ := hvalue hok
  have hall := hcap.exitKey (hshows.trans ((hin.shows hshows).recordValue c.pos r.c.pos))
  rw [Ctx.pop_eq (hcap.shows hall).boolMode]
  refine ⟨heats, _, hall, fun e he => ?_, fun t ht => ?_⟩
  · obtain ⟨e', he', rfl⟩ := List.mem_map.mp he
    refine Lies.member hm ?_
    rcases List.mem_append.mp he' with he' | he'
    · exact hes.lies e' he'
    · rw [List.mem_singleton.mp he']
      exact ⟨m.2, .here, hon.textAt hs heats⟩
  · rcases ht with rfl | ⟨sub, t', hsub, h, rfl⟩
    · exact ⟨_, List.mem_map_of_mem (List.mem_append_right _ List.mem_cons_self), rfl⟩
    · obtain ⟨e, he, rfl⟩ := hes.told t' ⟨sub, hsub, h⟩
      exact ⟨_, List.mem_map_of_mem (List.mem_append_left _ he), rfl⟩

/-- **The member loop.** Induction on the fuel; a bool-mode loop that passes has passed every
member. -/
theorem objectMembers_finds {all ms : List (Bytes × Json)} (n : Nat) (st : ObjState) {c : Cursor}
    {ctx : Ctx} {cap : Capture} {body t : Bytes} (hall : ∀ m ∈ ms, m ∈ all)
    (hbody : Members IsText ms body) (hc : c.rest = body ++ rbrace :: t) (hon : OnInput input c)
    (hcap : ctx.Capturing cap) (hok : (objectMembers S walk o base n st c ctx).ok = true) :
    Eats c (body ++ [rbrace]) (objectMembers S walk o base n st c ctx).c ∧
      ∃ es, ctx.Shows cap es (objectMembers S walk o base n st c ctx).ctx ∧
        Tells input (.obj all) (fun t => ∃ m ∈ ms, MemberReaches o m t) es := by
  induction n generalizing ms body st c ctx cap with
  | zero => cases hok
  | succ n ih =>
    obtain ⟨m, ms', sm, b, t', rfl, hmem, hcm, hb, hstop, hrest⟩ := members_head hbody hc
    obtain ⟨c₀, c₁, pre, s, w, hkey, hcolon, hs, hw, hval, hafter, hpre, rfl⟩ :=
      member_text hmem (fun v s h => h.starts) hb hcm
    have hmember := member_finds hfinds hsil base o (hall m List.mem_cons_self) hs
      (.inl (.ws_append hw hstop)) hval (hon.eats hpre) hcap
    -- In bool mode the member writes no error, which decides the early return below.
    have hread : (Castrum.member S walk o base (textOf m.1) c₁.skipWs ctx).ctx.errors = none :=
      (member_twins hsil ⟨fun _ _ _ => trivial, fun _ _ => trivial, fun _ _ => trivial⟩ base
        (textOf m.1) c₁.skipWs ctx ctx (Ctx.pair_plain hcap.boolMode)).twin.pair.plain
    rw [objectMembers, hkey] at hok ⊢
    simp only [hcolon] at hok ⊢
    generalize Castrum.member S walk o base (textOf m.1) c₁.skipWs ctx = r at hok hmember hread ⊢
    cases hrok : r.ok with
    -- A failed member ends the loop, so the loop cannot have passed.
    | false =>
      rw [hrok, if_pos (by simp [Ctx.isDetailed, hread])] at hok
      cases hok
    | true =>
      rw [hrok, if_neg (by simp)] at hok
      rw [if_neg (by simp)]
      simp only [if_true] at hok ⊢
      obtain ⟨heats, es, hshows, hes⟩ := hmember hrok
      obtain ⟨hwEats, hend⟩ := hafter r.c heats
      have hmemberEats := hpre.trans (heats.trans hwEats)
      -- Behind the member stands the closing brace, or a comma with the other members.
      rcases hrest with ⟨rfl, rfl, rfl, rfl⟩ | ⟨rfl, rest, hms, rfl, rfl⟩
      · simp only [Cursor.eat_complete hend]
        refine ⟨hmemberEats.trans (Cursor.eat_eq_true (Cursor.eat_complete hend)), es, ?_, hes.imp ?_⟩
        · rw [Ctx.report_eq hread]
          exact hshows
        · rintro t ⟨m', hm', h⟩
          rwa [List.mem_singleton.mp hm'] at h
      · simp only [Cursor.eat_of_ne hend (show comma ≠ rbrace by decide),
          Cursor.eat_complete hend] at hok ⊢
        have hcommaEats := hmemberEats.trans (Cursor.eat_eq_true (Cursor.eat_complete hend))
        obtain ⟨hloopEats, es', hshows', hes'⟩ := ih _ (fun x hx => hall x (List.mem_cons_of_mem _ hx))
          hms ((Cursor.eat_eq_true (Cursor.eat_complete hend)).rest_eq hend) (hon.eats hcommaEats)
          (hcap.shows hshows) hok
        refine ⟨?_, es ++ es', hshows.trans hshows', hes.append hes' ?_⟩
        · have := hcommaEats.trans hloopEats
          simpa [List.append_assoc] using this
        · rintro t ⟨m', hm', h⟩
          rcases List.mem_cons.mp hm' with rfl | hm'
          · exact .inl h
          · exact .inr ⟨m', hm', h⟩

theorem validateObject_finds {ms : List (Bytes × Json)} :
    Finds input (validateObject S walk o base) (.obj ms) (fun t => ∃ m ∈ ms, MemberReaches o m t) := by
  intro c ctx cap s t hs ht hc hon hcap hok
  obtain ⟨body, rfl, hbody⟩ := (isText_iff _ _).mp hs
  have hopen := Cursor.eat_complete (b := lbrace) (t := body ++ [rbrace] ++ t) hc
  have hopenEats := Cursor.eat_eq_true hopen
  simp only [validateObject, hopen] at hok ⊢
  rcases hbody with ⟨rfl, hws⟩ | hms
  · obtain ⟨heat, heats⟩ := Cursor.inside_closed (by decide) (Cursor.adv_rest hc) hws
    rw [heat]
    refine ⟨hopenEats.trans heats, [], ?_, .nil ?_⟩
    · dsimp only
      rw [Ctx.report_eq hcap.boolMode]
      exact .refl hcap
    · rintro t ⟨m, hm, -⟩
      exact absurd hm List.not_mem_nil
  · obtain ⟨w, body', hw, rfl, hms', hst⟩ := hms.strip
    obtain ⟨hne, hwEats, hrest, -, hglue⟩ :=
      Cursor.inside_starts (.inl rfl) (Cursor.adv_rest hc) hw hst
    rw [hne] at hok ⊢
    obtain ⟨heats, hloop⟩ := objectMembers_finds hfinds hsil base o _ o.init
      (fun m hm => hm) hms' hrest (hon.eats (hopenEats.trans hwEats)) hcap hok
    exact ⟨hopenEats.trans (hglue _ heats), hloop⟩

/-! ## Elements -/

variable (a : FastArray (FastNode S.Regex)) {x : Json}

omit hsil in
theorem elementValue_finds (idx : Nat) : Finds input (elementValue S walk a base idx) x
    (fun t => ∃ sub, a.schemaAt S idx = .schema sub ∧ Reaches sub x t) := by
  intro c ctx cap s t hs ht hc hon hcap hok
  unfold elementValue at hok ⊢
  cases hat : a.schemaAt S idx with
  | allow =>
    rw [hat] at hok
    refine skipWalk_finds.imp ?_ c ctx cap s t hs ht hc hon hcap hok
    rintro t ⟨sub, heq, -⟩
    cases heq
  | deny =>
    rw [hat] at hok
    cases hok
  | schema sub =>
    rw [hat] at hok
    unfold validateElement at hok ⊢
    dsimp only at hok ⊢
    rw [Ctx.pushIdx_eq hcap.boolMode] at hok ⊢
    obtain ⟨heats, es, hshows, hes⟩ := hfinds sub x c ctx cap s t hs ht hc hon hcap hok
    rw [Ctx.pop_eq (hcap.shows hshows).boolMode]
    refine ⟨heats, es, hshows, hes.imp ?_⟩
    rintro t ⟨sub', heq, h⟩
    cases heq
    exact h

omit hfinds in
/-- The checks on a parsed element: `uniqueItems` keeps the context, `contains` all of it but the depth,
and neither counts the element. -/
theorem containsItem_quiet (raw : Cursor) (st : ArrState) {ctx : Ctx} (h : ctx.errors = none) :
    (containsItem S walk a raw (uniqueItem S base raw st ctx).1 (uniqueItem S base raw st ctx).2).1.count =
        st.count ∧
      ctx.Deep
        (containsItem S walk a raw (uniqueItem S base raw st ctx).1 (uniqueItem S base raw st ctx).2).2 := by
  have hcount : (uniqueItem S base raw st ctx).1.count = st.count := by
    unfold uniqueItem
    split
    · rfl
    · split
      · rfl
      · split <;> rfl
  obtain ⟨-, -, hcontains, -, htwin⟩ := containsItem_twins (a := a) hsil
    ⟨fun _ _ _ => trivial, fun _ _ => trivial⟩ raw (uniqueItem S base raw st ctx).1 (Ctx.pair_plain h)
  rw [(uniqueItem_twins S base raw st h ctx).plain]
  exact ⟨hcontains.trans hcount, htwin.deep (.inr (by simp))⟩

/-- **The element loop.** Induction on the fuel; the count is that of the elements before, so element
`i` of those left has the schema of number `st.count + i`. The length is shown at the end. -/
theorem arrayElements_finds {all items : List Json} (n : Nat) (st : ArrState) {c : Cursor} {ctx : Ctx}
    {cap : Capture} {body t : Bytes} (hall : ∀ y ∈ items, y ∈ all)
    (hcount : all.length = st.count + items.length) (hbody : Elements IsText items body)
    (hstarts : Starts body) (hc : c.rest = body ++ rbracket :: t) (hon : OnInput input c)
    (hcap : ctx.Capturing cap) (hok : (arrayElements S walk a base n st c ctx).ok = true) :
    Eats c (body ++ [rbracket]) (arrayElements S walk a base n st c ctx).c ∧
      ∃ es, ctx.Shows cap es (arrayElements S walk a base n st c ctx).ctx ∧
        Tells input (.arr all) (fun t => t = ⟨[], .length⟩ ∨ ∃ i x sub, items[i]? = some x ∧
          a.schemaAt S (st.count + i) = .schema sub ∧ Reaches sub x t) es := by
  induction n generalizing items body st c ctx cap with
  | zero => cases hok
  | succ n ih =>
    obtain ⟨y, items', s, w, b, t', rfl, hs, hw, hb, hstop, hsplit, hrest⟩ :=
      elements_text (t := t) (fun v s h => h.starts) hbody hstarts
    rw [hsplit] at hc
    rw [arrayElements] at hok ⊢
    cases hover : a.overflow (st.count + 1) with
    | some fault =>
      rw [hover] at hok
      cases hok
    | none =>
      have helement := elementValue_finds hfinds base a (x := y) st.count c ctx cap s _ hs
        (.inl (.ws_append hw hstop)) hc hon hcap
      have hread : (elementValue S walk a base st.count c ctx).ctx.errors = none :=
        (elementValue_twins hsil ⟨fun _ _ _ => trivial, fun _ _ => trivial⟩ base st.count c ctx ctx
          (Ctx.pair_plain hcap.boolMode)).twin.pair.plain
      rw [hover] at hok
      dsimp only at hok ⊢
      generalize elementValue S walk a base st.count c ctx = r at hok helement hread ⊢
      cases hrok : r.ok with
      | false =>
        rw [hrok, if_pos (by simp [Ctx.isDetailed, hread])] at hok
        cases hok
      | true =>
        rw [hrok, if_neg (by simp)] at hok
        rw [if_neg (by simp)]
        simp only [if_true] at hok ⊢
        obtain ⟨heats, es, hshows, hes⟩ := helement hrok
        obtain ⟨hwEats, hend⟩ := Cursor.skipWs_before (heats.rest_eq hc) hw hb
        obtain ⟨hcounted, hcontains⟩ := containsItem_quiet hsil base a (r.c.slice c.pos)
          { st with count := st.count + 1, arrOk := st.arrOk && true } hread
        generalize containsItem S walk a _ _ _ = k at hok hcontains hcounted ⊢
        have hk := hshows.deep hcontains
        have hkCap := hcap.shows hk
        have helem : Tells input (.arr all)
            (fun t => ∃ sub, a.schemaAt S st.count = .schema sub ∧ Reaches sub y t) es :=
          hes.element (hall y List.mem_cons_self)
        have helemEats := heats.trans hwEats
        rw [List.length_cons] at hcount
        rcases hrest with ⟨rfl, rfl, rfl, rfl⟩ | ⟨rfl, w', rest, hw', hvs, hst₂, rfl, rfl⟩
        · simp only [Cursor.eat_complete hend]
          -- at the end the count is the length
          have hlast : k.1.count = all.length := hcounted.trans hcount.symm
          have hlength : Tells input (.arr all) (· = ⟨[], .length⟩) [([], .length k.1.count)] := by
            rw [hlast]
            exact .length all
          refine ⟨helemEats.trans (Cursor.eat_eq_true (Cursor.eat_complete hend)),
            es ++ [([], .length k.1.count)], ?_, helem.append hlength ?_⟩
          · rw [Ctx.report_eq hkCap.boolMode, hon.ptr]
            exact hk.trans (hkCap.recordLength k.1.count)
          · rintro t (rfl | ⟨i, x, sub, hx, hsub, h⟩)
            · exact .inr rfl
            · obtain ⟨rfl, rfl⟩ : i = 0 ∧ y = x := by simpa [List.getElem?_singleton] using hx
              exact .inl ⟨sub, hsub, h⟩
        · simp only [Cursor.eat_of_ne hend (show comma ≠ rbracket by decide),
            Cursor.eat_complete hend] at hok ⊢
          have hcommaEats := Cursor.eat_eq_true (Cursor.eat_complete hend)
          have hc₃ := hcommaEats.rest_eq hend
          have hwsEats := Cursor.skipWs_complete hc₃ hw' (hst₂.append _).head
          have hnextEats := (helemEats.trans hcommaEats).trans hwsEats
          obtain ⟨hloopEats, es', hshows', hes'⟩ := ih k.1
            (fun z hz => hall z (List.mem_cons_of_mem _ hz))
            (by rw [hcounted, hcount]; dsimp only; omega) hvs hst₂ (hwsEats.rest_eq hc₃)
            (hon.eats hnextEats) hkCap hok
          refine ⟨?_, es ++ es', hk.trans hshows', helem.append hes' ?_⟩
          · have := hnextEats.trans hloopEats
            simpa [List.append_assoc] using this
          · rintro t (rfl | ⟨i, x, sub, hx, hsub, h⟩)
            · exact .inr (.inl rfl)
            · cases i with
              | zero =>
                cases hx
                exact .inl ⟨sub, hsub, h⟩
              | succ i =>
                refine .inr (.inr ⟨i, x, sub, hx, ?_, h⟩)
                rw [hcounted, ← hsub]
                congr 1
                dsimp only
                omega

theorem validateArray_finds {items : List Json} :
    Finds input (validateArray S walk a base) (.arr items) (fun t => items ≠ [] ∧
      (t = ⟨[], .length⟩ ∨ ∃ i x sub, items[i]? = some x ∧ a.schemaAt S i = .schema sub ∧
        Reaches sub x t)) := by
  intro c ctx cap s t hs ht hc hon hcap hok
  obtain ⟨body, rfl, hbody⟩ := (isText_iff _ _).mp hs
  have hopen := Cursor.eat_complete (b := lbracket) (t := body ++ [rbracket] ++ t) hc
  have hopenEats := Cursor.eat_eq_true hopen
  simp only [validateArray, hopen] at hok ⊢
  rcases hbody with ⟨rfl, hws⟩ | hel
  · obtain ⟨heat, heats⟩ := Cursor.inside_closed (by decide) (Cursor.adv_rest hc) hws
    rw [heat]
    refine ⟨hopenEats.trans heats, [], ?_, .nil fun t h => h.1 rfl⟩
    dsimp only
    rw [Ctx.report_eq hcap.boolMode]
    exact .refl hcap
  · obtain ⟨w, body', hw, rfl, hel', hst⟩ := hel.strip (fun v s h => h.starts)
    obtain ⟨hne, hwEats, hrest, -, hglue⟩ :=
      Cursor.inside_starts (.inr rfl) (Cursor.adv_rest hc) hw hst
    rw [hne] at hok ⊢
    obtain ⟨heats, hloop⟩ := arrayElements_finds hfinds hsil base a _ a.init
      (fun y hy => hy) (by simp [FastArray.init]) hel' hst hrest
      (hon.eats (hopenEats.trans hwEats)) hcap hok
    obtain ⟨es, hshows, hes⟩ := hloop
    refine ⟨hopenEats.trans (hglue _ heats), es, hshows, hes.imp ?_⟩
    rintro t ⟨-, rfl | ⟨i, x, sub, hx, hsub, h⟩⟩
    · exact .inl rfl
    · refine .inr ⟨i, x, sub, hx, ?_, h⟩
      rw [← hsub, FastArray.init, Nat.zero_add]

/-! ## One level -/

omit hfinds hsil in
theorem validateLiteral_finds (tok : Bytes) (htok : ∀ s, IsText v s → s = tok) :
    Finds input (validateLiteral base tok) v NoneDue := by
  intro c ctx cap s t hs ht hc _ hcap _
  obtain rfl := htok s hs
  simp only [validateLiteral, Cursor.eatToken_complete hc]
  exact ⟨Eats.of_rest hc, [], .refl hcap, .nil fun _ => id⟩

omit hfinds hsil in
/-- A scalar is not descended into. -/
theorem not_reaches_scalar {node : FastNode S.Regex} (hobj : ∀ ms, v ≠ .obj ms)
    (harr : ∀ items, v ≠ .arr items) (t : TargetPath) : ¬ Reaches node v t := by
  intro h
  cases h with
  | member => exact hobj _ rfl
  | under => exact hobj _ rfl
  | length => exact harr _ rfl
  | element => exact harr _ rfl

/-- One case for each kind of value; a scalar shows nothing. -/
theorem validateKind_finds (node : FastNode S.Regex) :
    Finds input (validateKind S walk node) v (Reaches node v) := by
  intro c ctx cap s t hs ht hc hon hcap hok
  rw [validateKind_eq hs hc] at hok ⊢
  -- what a scalar reports
  have hreport : ∀ fault, ctx.Shows cap [] (ctx.report node.base fault).2 := by
    intro fault
    rw [Ctx.report_eq hcap.boolMode]
    exact .refl hcap
  cases v with
  | null =>
    exact (validateLiteral_finds (v := .null) node.base nullTok fun s hs => (isText_iff _ s).mp hs).imp
      (not_reaches_scalar (by simp) (by simp)) c ctx cap s t hs ht hc hon hcap hok
  | bool x =>
    cases x with
    | true =>
      exact (validateLiteral_finds (v := .bool true) node.base trueTok fun s hs => (isText_iff _ s).mp hs).imp
        (not_reaches_scalar (by simp) (by simp)) c ctx cap s t hs ht hc hon hcap hok
    | false =>
      exact (validateLiteral_finds (v := .bool false) node.base falseTok fun s hs => (isText_iff _ s).mp hs).imp
        (not_reaches_scalar (by simp) (by simp)) c ctx cap s t hs ht hc hon hcap hok
  | num tok =>
    obtain ⟨rfl, htok⟩ := (isText_iff _ _).mp hs
    obtain ⟨i, hnum⟩ := Cursor.number_complete hc htok ht
    rw [Json.byHead, hnum]
    exact ⟨Eats.of_rest hc, [], hreport _,
      .nil (not_reaches_scalar (by simp) (by simp))⟩
  | str raw =>
    obtain ⟨rfl, hraw⟩ := (isText_iff _ _).mp hs
    have hrun := Cursor.rawString_complete (c := c) (t := t) (by rw [hc]; simp) hraw
    rw [Json.byHead, hrun]
    exact ⟨(Cursor.rawString_sound hrun).2, [], hreport _,
      .nil (not_reaches_scalar (by simp) (by simp))⟩
  | arr items =>
    rw [Json.byHead] at hok ⊢
    cases ha : node.arr with
    | none =>
      rw [ha] at hok
      refine skipWalk_finds.imp (fun t h => ?_) c ctx cap s t hs ht hc hon hcap hok
      obtain ⟨a, ha', -⟩ := h.of_arr
      rw [ha] at ha'
      cases ha'
    | some a =>
      rw [ha] at hok
      refine (validateArray_finds hfinds hsil node.base a).imp (fun t h => ?_) c ctx cap s t hs ht hc
        hon hcap hok
      obtain ⟨a', ha', hdue⟩ := h.of_arr
      obtain rfl := Option.some.inj (ha.symm.trans ha')
      exact hdue
  | obj ms =>
    rw [Json.byHead] at hok ⊢
    cases ho : node.obj with
    | none =>
      rw [ho] at hok
      refine skipWalk_finds.imp (fun t h => ?_) c ctx cap s t hs ht hc hon hcap hok
      obtain ⟨o, ho', -⟩ := h.of_obj
      rw [ho] at ho'
      cases ho'
    | some o =>
      rw [ho] at hok
      refine (validateObject_finds hfinds hsil node.base o).imp (fun t h => ?_) c ctx cap s t hs ht hc
        hon hcap hok
      obtain ⟨o', ho', hdue⟩ := h.of_obj
      obtain rfl := Option.some.inj (ho.symm.trans ho')
      exact hdue

theorem validateStructure_finds (node : FastNode S.Regex) :
    Finds input (validateStructure S walk node) v (Reaches node v) := by
  intro c ctx cap s t hs ht hc hon hcap hok
  have hkind := validateKind_finds hfinds hsil node c ctx cap s t hs ht hc hon hcap
  unfold validateStructure at hok ⊢
  generalize validateKind S walk node c ctx = k at hok hkind ⊢
  dsimp only at hok ⊢
  cases hkok : k.ok with
  | false =>
    rw [hkok] at hok
    cases hok
  | true =>
    rw [hkok] at hok
    simp only [if_true] at hok ⊢
    obtain ⟨heats, es, hshows, hes⟩ := hkind hkok
    obtain ⟨hslice, hpre⟩ := hon.slice heats
    rw [hslice] at hok ⊢
    obtain ⟨es', hshows', hes'⟩ :=
      validateCombRaw_finds hfinds hsil hs hpre node k.ctx _ (hcap.shows hshows) hok
    exact ⟨heats, es ++ es', hshows.trans hshows', hes.append hes' fun _ => .inl⟩

/-- The value is walked from its own slice, which captures at the root of the input only. -/
theorem validateValue_finds (value : ValueConstraint) (node : FastNode S.Regex) :
    Finds input (validateValue S walk value node) v NoneDue := by
  intro c ctx cap s t hs ht hc hon hcap hok
  unfold validateValue at hok ⊢
  rcases hrun : c.skipValue ctx.depth with ⟨_ | _, c'⟩
  · rw [hrun] at hok
    cases hok
  have heats := Cursor.skipValue_of_text hrun hs ht hc
  obtain ⟨hslice, hpre⟩ := hon.slice heats
  rw [hrun] at hok
  dsimp only at hok ⊢
  rw [hslice] at hok ⊢
  cases hval : S.fromSlice (Cursor.new s c.pos).data with
  | none =>
    rw [hval] at hok
    cases hok
  | some val =>
    rw [hval] at hok
    dsimp only at hok ⊢
    by_cases hacc : value.accepts val = true
    · rw [if_pos hacc] at hok ⊢
      refine ⟨heats, findsIn_andThen ?_ ?_ ctx cap hcap hok⟩
      · refine findsIn_slice ((validateKind_finds hfinds hsil node).imp fun _ => False.elim)
          (fun c ctx ctx' hp => ?_) hs hpre
        obtain ⟨ht, hends⟩ := validateKind_twins hsil (fun _ _ => trivial) c ctx ctx' hp
        exact ⟨ht.imp id fun _ => trivial, hends⟩
      · exact validateCombRaw_finds hfinds hsil hs hpre node
    · rw [if_neg hacc] at hok
      cases hok

theorem validateInner_finds (node : FastNode S.Regex) :
    Finds input (validateInner S walk node) v (Reaches node v) := by
  intro c ctx cap s t hs ht hc hon hcap hok
  have hws := Cursor.skipWs_of_head (c := c) (by rw [hc]; exact (hs.starts.append t).head)
  unfold validateInner at hok ⊢
  -- Each exit before the structure fails, and a node with a value keyword captures nothing.
  split at hok
  · cases hok
  · rw [if_neg ‹_›]
    dsimp only at hok ⊢
    rw [hws] at hok ⊢
    cases hpeek : c.peek with
    | none =>
      rw [hpeek] at hok
      cases hok
    | some b =>
      rw [hpeek] at hok
      dsimp only at hok ⊢
      cases hfault : node.typeFault b with
      | some fault =>
        rw [hfault] at hok
        cases hok
      | none =>
        rw [hfault] at hok
        dsimp only at hok ⊢
        cases hvalue : node.value with
        | some value =>
          rw [hvalue] at hok
          refine (validateValue_finds hfinds hsil value node).imp (fun t h => ?_) c ctx cap s t hs ht hc
            hon hcap hok
          rw [h.value_eq] at hvalue
          cases hvalue
        | none =>
          rw [hvalue] at hok
          exact validateStructure_finds hfinds hsil node c ctx cap s t hs ht hc hon hcap hok

end

/-- **The walk.** Induction on the levels left. -/
theorem validateLevels_finds (S : Oracles) (input : Bytes) (n : Nat) (node : FastNode S.Regex)
    (v : Json) : Finds input (validateLevels S n node) v (Reaches node v) := by
  induction n generalizing node v with
  | zero =>
    intro c ctx cap s t _ _ _ _ _ hok
    cases hok
  | succ n ih =>
    intro c ctx cap s t hs ht hc hon hcap hok
    rw [validateLevels] at hok ⊢
    dsimp only at hok ⊢
    split at hok
    · rw [if_pos ‹_›]
      obtain ⟨heats, es, hshows, hes⟩ := validateInner_finds ih (validateLevels_walks S n) node c _ cap
        s t hs ht hc hon (hcap.deeper _) hok
      refine ⟨heats, es, ?_, hes⟩
      exact hshows.after_deep.deep ⟨_, rfl⟩
    · cases hok

/-! ## What a validation hands out -/

/-- Every walk skips the whitespace in front of its value. -/
theorem validateLevels_skipWs (S : Oracles) (n : Nat) (node : FastNode S.Regex) (c : Cursor) (ctx : Ctx)
    (hok : (validateLevels S n node c ctx).ok = true) :
    validateLevels S n node c ctx = validateLevels S n node c.skipWs ctx := by
  obtain ⟨ws, hws, heats, hhead⟩ := Cursor.skipWs_spec c
  cases n with
  | zero => cases hok
  | succ n =>
    rw [validateLevels] at hok
    rw [validateLevels, validateLevels]
    dsimp only at hok ⊢
    split at hok
    · rw [if_pos ‹_›, if_pos ‹_›]
      unfold validateInner at hok ⊢
      split at hok
      · cases hok
      · rw [if_neg ‹_›, if_neg ‹_›, Cursor.skipWs_of_head hhead]
    · cases hok

/-- A walk that passes over a whole document shows what lies in it. -/
theorem validate_shows {S : Oracles} {node : FastNode S.Regex} {bytes : Bytes} {ctx : Ctx}
    {cap : Capture} (hcap : ctx.Capturing cap)
    (hok : (validate S node (Cursor.new bytes 0) ctx).ok = true)
    (hend : (validate S node (Cursor.new bytes 0) ctx).c.skipWs.pos = bytes.length) :
    ∃ v es, IsDocument v bytes ∧ ctx.Shows cap es (validate S node (Cursor.new bytes 0) ctx).ctx ∧
      Tells bytes v (Reaches node v) es := by
  rw [validate] at hok hend ⊢
  have hread := ((validateLevels_walks S _ node trivial _ _ _ (Ctx.pair_plain hcap.boolMode)).ends
    hok).2
  have hroot := validateLevels_skipWs S _ node _ _ hok
  have hfinds := validateLevels_finds S bytes (maxDepth - ctx.depth) node
  rw [hroot] at hok hread hend ⊢
  -- the document, from what was read and what is left behind it
  obtain ⟨w₁, s, v, hw₁, hs, -, heats, -⟩ := hread
  obtain ⟨w₂, hw₂, hrest, -⟩ := Cursor.skipWs_spec
    (validateLevels S (maxDepth - ctx.depth) node (Cursor.new bytes 0).skipWs ctx).c
  have hall := heats.trans hrest
  have hnil : (validateLevels S (maxDepth - ctx.depth) node (Cursor.new bytes 0).skipWs
      ctx).c.skipWs.rest = [] := by
    rw [Cursor.rest, hend, hall.data_eq]
    exact List.drop_length
  have hbytes : bytes = w₁ ++ (s ++ w₂) := by
    have hsplit := hall.1
    rw [hnil, Cursor.rest_new, List.append_nil, List.append_assoc] at hsplit
    exact hsplit
  have hws := Cursor.skipWs_complete (c := Cursor.new bytes 0) (t := s ++ w₂) hbytes hw₁
    (hs.starts.append w₂).head
  have hends : Cursor.Ends v s w₂ := by
    refine .inl ?_
    rw [← List.append_nil w₂]
    exact .ws_append hw₂ .nil
  have hon : OnInput bytes (Cursor.new bytes 0) := ⟨rfl, List.prefix_rfl⟩
  obtain ⟨-, hshows⟩ := hfinds v _ ctx cap s w₂ hs hends (hws.rest_eq hbytes) (hon.eats hws) hcap hok
  obtain ⟨es, hshows, hes⟩ := hshows
  exact ⟨v, es, ⟨w₁, s, w₂, hbytes, hw₁, hs, hw₂⟩, hshows, hes⟩

/-- A passing validation has shown its capture what lies in the document. -/
theorem validateWithCapture_shows {S : Oracles} {node : FastNode S.Regex} {bytes : Bytes}
    {targets : List TargetPath} (h : (validateWithCapture S node bytes targets).1 = true) :
    ∃ v es, IsDocument v bytes ∧
      (validateWithCapture S node bytes targets).2 = (Capture.new targets).play es ∧
        Tells bytes v (Reaches node v) es := by
  have hcap : ({ Ctx.boolMode with capture := some (Capture.new targets), inputPtr := some 0 } :
      Ctx).Capturing (Capture.new targets) := ⟨rfl, rfl, rfl, rfl, List.cons_ne_nil _ _⟩
  obtain ⟨hok, hend⟩ := Bool.and_eq_true_iff.mp h
  obtain ⟨v, es, hdoc, ⟨d, hctx⟩, hes⟩ := validate_shows hcap hok (beq_iff_eq.mp hend)
  refine ⟨v, es, hdoc, ?_, hes⟩
  unfold validateWithCapture
  dsimp only at hctx ⊢
  rw [hctx]
  rfl

/-- **What a target of a passing validation finds.** A target that a later one repeats finds nothing.
The last one finds what lies in the document under its keys, and does find it when the walk comes by. -/
theorem validateWithCapture_shown (S : Oracles) (node : FastNode S.Regex) (bytes : Bytes)
    (targets : List TargetPath) (h : (validateWithCapture S node bytes targets).1 = true) :
    ∃ v, IsDocument v bytes ∧ ∀ (i : Nat) (t : TargetPath), targets[i]? = some t →
      let found := (validateWithCapture S node bytes targets).2.shown i t.kind
      (∀ s, found = some s → IsLast targets i t ∧ s.kind = t.kind ∧ Lies bytes v (t.steps, s)) ∧
        (IsLast targets i t → Reaches node v t → found.isSome = true) := by
  obtain ⟨v, es, hdoc, hplay, hes⟩ := validateWithCapture_shows h
  refine ⟨v, hdoc, fun i t ht => ?_⟩
  dsimp only
  rw [hplay, Capture.shown_new ht]
  constructor
  · intro s hs
    split at hs
    · next howner =>
      obtain ⟨e, hfind, rfl⟩ := Option.map_eq_some_iff.mp hs
      have htarget : Event.target e = t := by simpa using List.find?_some hfind
      rw [← htarget] at howner ⊢
      exact ⟨owner_eq_some_iff.mp howner, rfl, hes.lies e (List.mem_of_find?_eq_some hfind)⟩
    · cases hs
  · intro hlast hreach
    rw [if_pos (owner_eq_some_iff.mpr hlast), Capture.firstShown, Option.isSome_map,
      List.find?_isSome]
    obtain ⟨e, he, htarget⟩ := hes.told t hreach
    exact ⟨e, he, by simpa using htarget⟩

end Castrum
