import Mathlib.Data.List.Basic
import Mathlib.Tactic

/-!
# Castrum — writing into a fixed buffer

A slice `out` with a write position `pos` is split there: what has been written, and the room
behind it with whatever it held before. A write that does not fit is a panic, `none`; so a sequence
of writes either puts all its bytes, or fails as the one write of all of them would.

* `Out.put_put` — two writes are one;
* `Out.put_eq_some_iff` — a write that fits changes nothing but the bytes it covers;
* `Out.patch_append` — a field that was written earlier is filled in;
* `placed_placed` / `placed_patch` — the same for a buffer that is indexed directly.
-/

namespace Castrum

/-- A slice of `α` with a write position: `out[..pos]` and `out[pos..]`. -/
structure Out (α : Type) where
  written : List α
  room : List α
  deriving DecidableEq, Repr

namespace Out

variable {α : Type}

/-- A slice, to be written from its start. -/
def new (out : List α) : Out α := { written := [], room := out }

/-- The whole slice as it is now. -/
def bytes (o : Out α) : List α := o.written ++ o.room

/-- The write position. -/
def pos (o : Out α) : Nat := o.written.length

/-- Copy `w` to the write position and step over it. -/
def put (o : Out α) (w : List α) : Option (Out α) :=
  if w.length ≤ o.room.length then
    some { written := o.written ++ w, room := o.room.drop w.length }
  else none

theorem put_of_le {o : Out α} {w : List α} (h : w.length ≤ o.room.length) :
    o.put w = some { written := o.written ++ w, room := o.room.drop w.length } := if_pos h

theorem put_of_lt {o : Out α} {w : List α} (h : o.room.length < w.length) : o.put w = none :=
  if_neg (by omega)

@[simp] theorem put_nil (o : Out α) : o.put [] = some o := by
  rw [put_of_le (Nat.zero_le _), List.append_nil]
  rfl

theorem put_eq_some_iff {o o' : Out α} {w : List α} :
    o.put w = some o' ↔
      w.length ≤ o.room.length ∧ o'.written = o.written ++ w ∧ o'.room = o.room.drop w.length := by
  unfold put
  split
  · next h =>
    rw [and_iff_right h, Option.some.injEq]
    constructor
    · rintro rfl
      exact ⟨rfl, rfl⟩
    · intro heq
      cases o'
      obtain ⟨h₁, h₂⟩ := heq
      dsimp only at h₁ h₂
      rw [h₁, h₂]
  · next h => exact iff_of_false nofun fun hn => h hn.1

/-- **Two writes are one.** -/
theorem put_put (o : Out α) (w v : List α) : (o.put w).bind (·.put v) = o.put (w ++ v) := by
  by_cases hw : w.length ≤ o.room.length
  · rw [put_of_le hw, Option.bind_some]
    by_cases hv : v.length ≤ (o.room.drop w.length).length
    · rw [put_of_le hv, put_of_le (by rw [List.length_drop] at hv; rw [List.length_append]; omega)]
      simp [List.drop_drop]
    · rw [put_of_lt (Nat.lt_of_not_le hv),
        put_of_lt (by rw [List.length_drop] at hv; rw [List.length_append]; omega)]
  · rw [put_of_lt (by omega), put_of_lt (by rw [List.length_append]; omega)]
    rfl

theorem put_eq_none_iff {o : Out α} {w : List α} : o.put w = none ↔ o.room.length < w.length := by
  unfold put
  split
  · next h => exact iff_of_false nofun (by omega)
  · next h => exact iff_of_true rfl (by omega)

/-- A write into the sub-slice behind the write position. -/
theorem put_eq_map_new (o : Out α) (w : List α) :
    o.put w = ((new o.room).put w).map fun part =>
      { written := o.written ++ part.written, room := part.room } := by
  unfold put new
  dsimp only
  split <;> rfl

/-- Two writes with more to come. -/
theorem put_bind_put {β : Type} (o : Out α) (w v : List α) (k : Out α → Option β) :
    ((o.put w).bind fun o => (o.put v).bind k) = (o.put (w ++ v)).bind k := by
  rw [← put_put, Option.bind_assoc]

/-- `copy_within`: `len` elements from `start` on are copied to the write position. -/
def copyWithin (o : Out α) (start len : Nat) : Option (Out α) :=
  o.put ((o.bytes.drop start).take len)

/-- What is copied from before a write was there before it. -/
theorem put_bind_copyWithin {β : Type} (o : Out α) {start len : Nat}
    (h : start + len ≤ o.written.length) (w : List α) (k : Out α → Option β) :
    ((o.put w).bind fun o => (o.copyWithin start len).bind k) =
      (o.put (w ++ (o.bytes.drop start).take len)).bind k := by
  have hslice : ∀ tail : List α, ((o.written ++ tail).drop start).take len =
      (o.written.drop start).take len := by
    intro tail
    rw [List.drop_append_of_le_length (by omega), List.take_append_of_le_length (by
      rw [List.length_drop]
      omega)]
  rw [← put_bind_put]
  cases hput : o.put w with
  | none => rfl
  | some o' =>
    obtain ⟨-, hwritten, -⟩ := put_eq_some_iff.mp hput
    show (o'.copyWithin start len).bind k = (o'.put _).bind k
    rw [copyWithin, bytes, bytes, hwritten, List.append_assoc, hslice, hslice]

/-- Overwrite a part of what has been written, from index `i` on. -/
def patch (o : Out α) (i : Nat) (w : List α) : Option (Out α) :=
  if i + w.length ≤ o.written.length then
    some { o with written := o.written.take i ++ (w ++ o.written.drop (i + w.length)) }
  else none

theorem patch_append (before behind room : List α) {field w : List α} (h : w.length = field.length) :
    patch { written := before ++ (field ++ behind), room := room } before.length w =
      some { written := before ++ (w ++ behind), room := room } := by
  rw [patch, if_pos (by simp only [List.length_append]; omega)]
  simp [h, List.drop_append]

/-- **A field filled in later** might as well have been written at once. -/
theorem put_patch (o : Out α) {field w behind : List α} (h : field.length = w.length) :
    (o.put (field ++ behind)).bind (·.patch o.pos w) = o.put (w ++ behind) := by
  by_cases hfit : (w ++ behind).length ≤ o.room.length
  · have hlen : (field ++ behind).length = (w ++ behind).length := by
      rw [List.length_append, List.length_append, h]
    rw [put_of_le hfit, put_of_le (by omega), Option.bind_some, hlen]
    exact patch_append _ _ _ h.symm
  · rw [put_of_lt (Nat.lt_of_not_le hfit), put_of_lt (by
      rw [List.length_append] at hfit ⊢
      omega)]
    rfl

end Out

/-! ## Overwriting -/

section

variable {α : Type} {out : List α} {pos : Nat}

/-- `text` written over what was at `pos`. -/
def placed (out : List α) (pos : Nat) (text : List α) : List α :=
  out.take pos ++ (text ++ out.drop (pos + text.length))

theorem length_placed {text : List α} (h : pos + text.length ≤ out.length) :
    (placed out pos text).length = out.length := by
  rw [placed, List.length_append, List.length_append, List.length_take, List.length_drop]
  omega

@[simp] theorem placed_nil (out : List α) (pos : Nat) : placed out pos [] = out :=
  List.take_append_drop pos out

/-- A text written right behind another one. -/
theorem placed_placed (hpos : pos ≤ out.length) (a b : List α) :
    placed (placed out pos a) (pos + a.length) b = placed out pos (a ++ b) := by
  have htake : (out.take pos ++ a).length = pos + a.length := by
    rw [List.length_append, List.length_take_of_le hpos]
  have hassoc : placed out pos a = (out.take pos ++ a) ++ out.drop (pos + a.length) :=
    (List.append_assoc _ _ _).symm
  rw [placed, hassoc, ← htake, List.take_left, ← List.drop_drop, List.drop_left, List.drop_drop,
    htake, placed, List.length_append, List.append_assoc, List.append_assoc, Nat.add_assoc]

/-- Writing what is there already. -/
theorem placed_self (out : List α) (pos n : Nat) : placed out pos ((out.drop pos).take n) = out := by
  rcases Nat.le_total n (out.drop pos).length with h | h
  · rw [placed, List.length_take_of_le h, ← List.drop_drop, List.take_append_drop,
      List.take_append_drop]
  · have hnil : out.drop (pos + (out.length - pos)) = [] := List.drop_of_length_le (by omega)
    rw [List.take_of_length_le h, placed, List.length_drop, hnil, List.append_nil,
      List.take_append_drop]

/-- What is there already can be written again. -/
theorem placed_eq_self_iff {text : List α} : placed out pos text = out ↔ text <+: out.drop pos := by
  rw [placed, List.prefix_iff_eq_append, ← List.drop_drop]
  constructor
  · intro h
    have hsplit : out.take pos ++ (text ++ (out.drop pos).drop text.length) =
        out.take pos ++ out.drop pos := by rw [h, List.take_append_drop]
    exact List.append_cancel_left hsplit
  · intro h
    rw [h, List.take_append_drop]

theorem take_placed (hpos : pos ≤ out.length) (text : List α) :
    (placed out pos text).take (pos + text.length) = out.take pos ++ text := by
  have hlength : (out.take pos ++ text).length = pos + text.length := by
    rw [List.length_append, List.length_take_of_le hpos]
  rw [placed, ← List.append_assoc, List.take_left' hlength]

theorem drop_placed (hpos : pos ≤ out.length) (text : List α) (n : Nat) :
    (placed out pos text).drop (pos + n) = (text ++ out.drop (pos + text.length)).drop n := by
  rw [← List.drop_drop, placed, List.drop_left' (List.length_take_of_le hpos)]

/-- A field in the middle of a text, filled in after the text was written. -/
theorem placed_patch (hpos : pos ≤ out.length) {field w : List α} (h : w.length = field.length)
    (a b : List α) :
    placed (placed out pos (a ++ (field ++ b))) (pos + a.length) w =
      placed out pos (a ++ (w ++ b)) := by
  have htake : (out.take pos ++ a).length = pos + a.length := by
    rw [List.length_append, List.length_take_of_le hpos]
  have hassoc : placed out pos (a ++ (field ++ b)) = (out.take pos ++ a) ++
      (field ++ (b ++ out.drop (pos + (a ++ (field ++ b)).length))) := by
    simp only [placed, List.append_assoc]
  have hlength : (a ++ (field ++ b)).length = (a ++ (w ++ b)).length := by
    simp only [List.length_append, h]
  rw [placed, hassoc, ← htake, List.take_left, ← List.drop_drop, List.drop_left, h, List.drop_left,
    hlength]
  simp only [placed, List.append_assoc]

end

/-! ## Writing on

A writer that keeps a position in a buffer and never goes back, but to fill in a field it has left
open. -/

section

variable {α : Type} {r r' r'' : Nat × List α} {w v : List α}

/-- From `r` to `r'` the writer has written `w` behind what was there. -/
structure Appends (r r' : Nat × List α) (w : List α) : Prop where
  next : r'.1 = r.1 + w.length
  le : r'.1 ≤ r'.2.length
  take : r'.2.take r'.1 = r.2.take r.1 ++ w

namespace Appends

theorem refl (h : r.1 ≤ r.2.length) : Appends r r [] := ⟨rfl, h, (List.append_nil _).symm⟩

theorem trans (h : Appends r r' w) (h' : Appends r' r'' v) : Appends r r'' (w ++ v) where
  next := by rw [h'.next, h.next, List.length_append, Nat.add_assoc]
  le := h'.le
  take := by rw [h'.take, h.take, List.append_assoc]

/-- The writer may have moved to another buffer that starts with the same bytes. -/
theorem of_take {pos : Nat} {buf buf' : List α} (hmoved : buf'.take pos = buf.take pos)
    (h : Appends (pos, buf') r w) : Appends (pos, buf) r w :=
  ⟨h.next, h.le, by rw [h.take, hmoved]⟩

theorem placed {pos : Nat} {buf text : List α} (h : pos + text.length ≤ buf.length) :
    Appends (pos, buf) (pos + text.length, Castrum.placed buf pos text) text :=
  ⟨rfl, by rw [length_placed h]; exact h, take_placed (by omega) text⟩

/-- **A field that is filled in last**: the text goes behind its room, then the field into it. -/
theorem behind_gap {pos : Nat} {buf field text : List α}
    (h : pos + field.length + text.length ≤ buf.length) :
    Appends (pos, buf) (pos + field.length + text.length,
      Castrum.placed (Castrum.placed buf (pos + field.length) text) pos field) (field ++ text) := by
  let gap := (buf.drop pos).take field.length
  have hpos : pos ≤ buf.length := by omega
  have hgap : gap.length = field.length := by
    rw [List.length_take_of_le (by rw [List.length_drop]; omega)]
  -- the text behind the gap is the gap, as it was, and the text
  have hbehind : Castrum.placed buf (pos + field.length) text =
      Castrum.placed buf pos (gap ++ text) := by
    rw [← placed_placed hpos gap text, placed_self, hgap]
  have hpatch : Castrum.placed (Castrum.placed buf pos ([] ++ (gap ++ text)))
      (pos + ([] : List α).length) field = Castrum.placed buf pos ([] ++ (field ++ text)) :=
    placed_patch hpos hgap.symm [] text
  rw [List.nil_append, List.nil_append, List.length_nil, Nat.add_zero] at hpatch
  have hlen : pos + field.length + text.length = pos + (field ++ text).length := by
    rw [List.length_append, Nat.add_assoc]
  rw [hbehind, hpatch, hlen]
  exact Appends.placed (hlen ▸ h)

end Appends

end

/-! ## Failures -/

/-- How a computation can end without a result: it reports an error, or it panics. -/
inductive Failure (ε : Type) where
  | fail (e : ε)
  | panic
  deriving DecidableEq, Repr

/-- `ok_or`: what is missing is the error `e`. -/
def orFail {ε α : Type} (e : ε) : Option α → Except ε α
  | some a => .ok a
  | none => .error e

@[simp] theorem orFail_some {ε α : Type} (e : ε) (a : α) : orFail e (some a) = .ok a := rfl

@[simp] theorem orFail_none {ε α : Type} (e : ε) : orFail e (none : Option α) = .error e := rfl

theorem orFail_eq_ok_iff {ε α : Type} {e : ε} {x : Option α} {a : α} :
    orFail e x = .ok a ↔ x = some a := by
  cases x with
  | none => exact iff_of_false nofun nofun
  | some b => rw [orFail_some, Except.ok.injEq, Option.some.injEq]

theorem orFail_eq_error_iff {ε α : Type} {e e' : ε} {x : Option α} :
    orFail e x = .error e' ↔ x = none ∧ e = e' := by
  cases x with
  | none => rw [orFail_none, Except.error.injEq, and_iff_right rfl]
  | some a => exact iff_of_false nofun fun h => nomatch h.1

theorem ok_bind {ε α β : Type} (a : α) (f : α → Except ε β) : (Except.ok a >>= f) = f a := rfl

/-- A computation that succeeds has succeeded in its first step. -/
theorem bind_eq_ok_iff {ε α β : Type} {x : Except ε α} {f : α → Except ε β} {r : β} :
    (x >>= f) = .ok r ↔ ∃ a, x = .ok a ∧ f a = .ok r := by
  cases x with
  | error e => exact iff_of_false nofun nofun
  | ok a =>
    show f a = .ok r ↔ _
    simp only [Except.ok.injEq, exists_eq_left']

/-- A computation that fails has failed in its first step or behind it. -/
theorem bind_eq_error_iff {ε α β : Type} {x : Except ε α} {f : α → Except ε β} {e : ε} :
    (x >>= f) = .error e ↔ x = .error e ∨ ∃ a, x = .ok a ∧ f a = .error e := by
  cases x with
  | error e' =>
    show Except.error e' = .error e ↔ _
    simp
  | ok a =>
    show f a = .error e ↔ _
    simp

end Castrum
