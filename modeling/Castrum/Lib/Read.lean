import Mathlib.Data.List.Basic
import Mathlib.Tactic

/-!
# Castrum — reading a stream in pieces

A reader hands out the bytes behind it in pieces: a read into `n > 0` places gives at least one byte and
at most `n`, and nothing only at the end. How the pieces are cut is up to the reader. What a loop of
reads collects does not depend on it.

* `Reader.Delivers` — a state of a reader has exactly these bytes behind it;
* `Reader.Yields` — and behind them the end, or a failure;
* `Reader.fill_yields` — filling a buffer gives the first bytes;
* `Reader.readToEnd_yields` — reading to the end, up to a limit, gives all of them.
-/

namespace Castrum

/-- A source of bytes: a state, and reads into a number of places. `none` is a failure. -/
structure Reader (β : Type) where
  State : Type
  read : State → Nat → Option (List β × State)

namespace Reader

variable {β : Type} (R : Reader β)

/-- From `s` on, the reads hand out the bytes `p`, in pieces of the reader's choice. -/
def Delivers (s : R.State) (p : List β) : Prop :=
  ∃ I : R.State → List β → Prop, I s p ∧ ∀ s p n, I s p → 0 < n →
    ∃ piece rest s', R.read s n = some (piece, s') ∧ p = piece ++ rest ∧ piece.length ≤ n ∧
      (piece = [] → p = []) ∧ I s' rest

variable {R}

variable (R)

/-- From `s` on, the reads hand out the bytes `p`, and then they fail or come to the end. -/
def Yields (s : R.State) (p : List β) (fails : Bool) : Prop :=
  ∃ I : R.State → List β → Prop, I s p ∧ ∀ s p n, I s p → 0 < n →
    (p = [] ∧ fails = true ∧ R.read s n = none) ∨
    (p = [] ∧ fails = false ∧ ∃ s', R.read s n = some ([], s') ∧ I s' []) ∨
    ∃ piece rest s', piece ≠ [] ∧ p = piece ++ rest ∧ piece.length ≤ n ∧
      R.read s n = some (piece, s') ∧ I s' rest

variable {R}

theorem Delivers.yields {s : R.State} {p : List β} (h : R.Delivers s p) : R.Yields s p false := by
  obtain ⟨I, hI, hstep⟩ := h
  refine ⟨I, hI, fun s p n hI hn => .inr ?_⟩
  obtain ⟨piece, rest, s', hread, happend, hle, hend, hI'⟩ := hstep s p n hI hn
  by_cases hpiece : piece = []
  · have hnil := hend hpiece
    rw [hpiece] at hread
    rw [hnil, hpiece] at happend
    exact .inl ⟨hnil, rfl, s', hread, happend ▸ hI'⟩
  · exact .inr ⟨piece, rest, s', hpiece, happend, hle, hread, hI'⟩

/-- What one read leads to: a failure, the end, or a piece and a state that yields the rest. -/
inductive Reads (s : R.State) (n : Nat) : List β → Bool → Prop where
  | fails (hread : R.read s n = none) : Reads s n [] true
  | ends (s' : R.State) (hread : R.read s n = some ([], s')) (hrest : R.Yields s' [] false) :
      Reads s n [] false
  | piece (piece rest : List β) (s' : R.State) (failure : Bool) (hne : piece.length ≠ 0)
      (hle : piece.length ≤ n) (hread : R.read s n = some (piece, s'))
      (hrest : R.Yields s' rest failure) : Reads s n (piece ++ rest) failure

theorem Yields.read {s : R.State} {p : List β} {fails : Bool} (h : R.Yields s p fails) {n : Nat}
    (hn : 0 < n) : Reads s n p fails := by
  obtain ⟨I, hI, hstep⟩ := h
  rcases hstep s p n hI hn with ⟨rfl, rfl, hread⟩ | ⟨rfl, rfl, s', hread, hI'⟩ |
    ⟨piece, rest, s', hne, rfl, hle, hread, hI'⟩
  · exact .fails hread
  · exact .ends s' hread ⟨I, hI', hstep⟩
  · exact .piece piece rest s' fails (fun hzero => hne (List.length_eq_zero_iff.mp hzero)) hle hread
      ⟨I, hI', hstep⟩

/-- A slice is read from its front, as far as there are places. -/
def slice (β : Type) : Reader β where
  State := List β
  read s n := some (s.take n, s.drop n)

theorem slice_delivers (p : List β) : (slice β).Delivers p p := by
  refine ⟨fun (s : List β) q => s = q, rfl, fun (s : List β) q n heq hn => ?_⟩
  refine ⟨s.take n, s.drop n, s.drop n, rfl, ?_, List.length_take_le n s, fun hnil => ?_, rfl⟩
  · exact heq.symm.trans (List.take_append_drop n s).symm
  · exact heq.symm.trans ((List.take_eq_nil_iff.mp hnil).resolve_left (by omega))

/-! ## Filling a buffer -/

variable (R)

/-- Read until `cap` places are filled or the stream ends, in at most `fuel` reads. -/
def fill (cap : Nat) : Nat → R.State → List β → Option (List β × R.State)
  | 0, s, written => some (written, s)
  | fuel + 1, s, written =>
    if written.length < cap then
      match R.read s (cap - written.length) with
      | none => none
      | some (piece, s') =>
        if piece.length = 0 then some (written, s') else fill cap fuel s' (written ++ piece)
    else some (written, s)

variable {R}

/-- **What is filled in does not depend on the pieces**: as many bytes as there are places, and the reader
goes on behind them. A failure shows where there are more places than bytes. -/
theorem fill_yields {cap fuel : Nat} {s : R.State} {p written : List β} {fails : Bool}
    (h : R.Yields s p fails) (hfuel : cap ≤ written.length + fuel) :
    (fails = true ∧ p.length < cap - written.length ∧ R.fill cap fuel s written = none) ∨
    ((fails = true → cap - written.length ≤ p.length) ∧
      ∃ s', R.fill cap fuel s written = some (written ++ p.take (cap - written.length), s') ∧
        R.Yields s' (p.drop (cap - written.length)) fails) := by
  -- nothing is read into a full buffer
  have hfull : ∀ (fuel : Nat) (s : R.State) (p written : List β), R.Yields s p fails →
      cap ≤ written.length → R.fill cap fuel s written = some (written, s) →
      (fails = true → cap - written.length ≤ p.length) ∧
      ∃ s', R.fill cap fuel s written = some (written ++ p.take (cap - written.length), s') ∧
        R.Yields s' (p.drop (cap - written.length)) fails := by
    intro fuel s p written h hle hfill
    have hzero : cap - written.length = 0 := by omega
    rw [hzero, List.take_zero, List.append_nil, List.drop_zero]
    exact ⟨fun _ => Nat.zero_le _, s, hfill, h⟩
  induction fuel generalizing s p written with
  | zero => exact .inr (hfull 0 s p written h (by omega) rfl)
  | succ fuel ih =>
    by_cases hroom : written.length < cap
    · rw [fill, if_pos hroom]
      cases h.read (Nat.sub_pos_of_lt hroom) with
      | fails hread =>
        rw [hread]
        exact .inl ⟨rfl, Nat.sub_pos_of_lt hroom, rfl⟩
      | ends s' hread hrest =>
        rw [hread, List.take_nil, List.append_nil, List.drop_nil]
        exact .inr ⟨nofun, s', rfl, hrest⟩
      | piece piece rest s' _ hne hle hread hrest =>
        rw [hread]
        dsimp only
        rw [if_neg hne]
        have hlength : (written ++ piece).length = written.length + piece.length :=
          List.length_append
        have hsub : cap - (written ++ piece).length = cap - written.length - piece.length := by
          rw [hlength]
          omega
        have hnext := ih hrest (by rw [hlength]; omega)
        rw [hsub] at hnext
        rw [List.length_append]
        rcases hnext with ⟨hfails, hlt, hfill⟩ | ⟨hfits, s'', hfill, hafter⟩
        · exact .inl ⟨hfails, by omega, hfill⟩
        · refine .inr ⟨fun hfails => ?_, s'', ?_, ?_⟩
          · have := hfits hfails
            omega
          · rw [hfill, List.take_append, List.take_of_length_le hle, List.append_assoc]
          · rw [List.drop_append, List.drop_of_length_le hle, List.nil_append]
            exact hafter
    · refine .inr (hfull (fuel + 1) s p written h (by omega) ?_)
      rw [fill, if_neg hroom]

/-! ## Reading to the end -/

variable (R)

/-- Read until the stream ends or `limit` bytes are there, into the room `room` that the collected bytes
leave for the next read. -/
def readToEnd (room : Nat → Nat) (limit : Nat) : Nat → R.State → List β → Option (List β)
  | 0, _, written => some written
  | fuel + 1, s, written =>
    if written.length < limit then
      match R.read s (min (room written.length + 1) (limit - written.length)) with
      | none => none
      | some (piece, s') =>
        if piece.length = 0 then some written else readToEnd room limit fuel s' (written ++ piece)
    else some written

variable {R}

/-- **What is read to the end** are the bytes up to the limit. A failure shows where the limit is behind it. -/
theorem readToEnd_yields (room : Nat → Nat) {limit fuel : Nat} {s : R.State} {p written : List β}
    {fails : Bool} (h : R.Yields s p fails) (hfuel : limit ≤ written.length + fuel) :
    R.readToEnd room limit fuel s written =
      if fails = true ∧ p.length < limit - written.length then none
      else some (written ++ p.take (limit - written.length)) := by
  induction fuel generalizing s p written with
  | zero =>
    have hzero : limit - written.length = 0 := by omega
    rw [hzero, List.take_zero, List.append_nil, if_neg (fun h => absurd h.2 (Nat.not_lt_zero _))]
    rfl
  | succ fuel ih =>
    rw [readToEnd]
    by_cases hroom : written.length < limit
    · rw [if_pos hroom]
      -- however the vector grows, there is a place for the next piece
      have hplaces : 0 < min (room written.length + 1) (limit - written.length) := by omega
      cases h.read hplaces with
      | fails hread =>
        rw [hread, if_pos ⟨rfl, Nat.sub_pos_of_lt hroom⟩]
      | ends s' hread hrest =>
        rw [hread, if_neg (fun h => nomatch h.1), List.take_nil, List.append_nil]
        rfl
      | piece piece rest s' _ hne hle hread hrest =>
        rw [hread]
        dsimp only
        rw [if_neg hne]
        have hlength : (written ++ piece).length = written.length + piece.length :=
          List.length_append
        have hsub : limit - (written ++ piece).length = limit - written.length - piece.length := by
          rw [hlength]
          omega
        have hfits : piece.length ≤ limit - written.length := by omega
        have hiff : rest.length < limit - written.length - piece.length ↔
            (piece ++ rest).length < limit - written.length := by
          rw [List.length_append]
          omega
        rw [ih hrest (by rw [hlength]; omega), hsub, List.take_append, List.take_of_length_le hfits,
          List.append_assoc]
        simp only [hiff]
    · have hzero : limit - written.length = 0 := by omega
      rw [if_neg hroom, hzero, List.take_zero, List.append_nil,
        if_neg (fun h => absurd h.2 (Nat.not_lt_zero _))]

end Reader

end Castrum
