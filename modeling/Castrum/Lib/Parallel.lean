import Mathlib.Data.List.Basic
import Mathlib.Tactic.Common

/-!
# Castrum — independent tasks under any schedule

A parallel loop is a list of tasks, each with a state of its own and the work that is left to do on
it. A schedule names the task that moves next, any number of times and in any order; whoever has work
left when the schedule ends finishes it. The tasks share nothing, so no schedule can be told from
another.

* `runTasks_eq` — every schedule gives what each task gives alone;
* `parMap_eq` — a parallel map with its results in order;
* `runFallible_eq` — workers that can fail, one by one;
* `chunksOf` — the slices of a buffer that the tasks of a loop over it own.
-/

namespace Castrum

section

variable {σ α β : Type}

/-- The task at `i` does its next piece of work, if it has one. -/
def stepTask (step : σ → α → σ) (tasks : List (σ × List α)) (i : Nat) : List (σ × List α) :=
  tasks.modify i fun task =>
    match task with
    | (s, []) => (s, [])
    | (s, a :: as) => (step s a, as)

/-- Follow the schedule, then finish what is left. -/
def runTasks (step : σ → α → σ) (schedule : List Nat) (tasks : List (σ × List α)) : List σ :=
  (schedule.foldl (stepTask step) tasks).map fun task => task.2.foldl step task.1

/-- A step is work that its own task would have done anyway. -/
theorem map_stepTask (step : σ → α → σ) (tasks : List (σ × List α)) (i : Nat) :
    (stepTask step tasks i).map (fun task => task.2.foldl step task.1) =
      tasks.map fun task => task.2.foldl step task.1 := by
  apply List.ext_getElem?
  intro j
  rw [stepTask, List.getElem?_map, List.getElem?_map, List.getElem?_modify]
  cases tasks[j]? with
  | none => simp
  | some task =>
    obtain ⟨s, as⟩ := task
    by_cases hij : i = j
    · cases as with
      | nil => simp [hij]
      | cons a as => simp [hij]
    · simp [hij]

/-- **No schedule can be told from another**: each task ends where it would end alone. -/
theorem runTasks_eq (step : σ → α → σ) (schedule : List Nat) (tasks : List (σ × List α)) :
    runTasks step schedule tasks = tasks.map fun task => task.2.foldl step task.1 := by
  unfold runTasks
  induction schedule generalizing tasks with
  | nil => rfl
  | cons i schedule ih => rw [List.foldl_cons, ih, map_stepTask]

/-- `par_iter().map(f).collect()`: one slot for each item, filled in any order. -/
def parMap (f : α → β) (schedule : List Nat) (items : List α) : List β :=
  (runTasks (fun _ item => some (f item)) schedule (items.map fun item => (none, [item]))).filterMap id

theorem parMap_eq (f : α → β) (schedule : List Nat) (items : List α) :
    parMap f schedule items = items.map f := by
  rw [parMap, runTasks_eq, List.map_map]
  induction items with
  | nil => rfl
  | cons item items ih => exact congrArg (f item :: ·) ih

variable {ε : Type}

/-- Workers that can fail: one that has failed leaves its work undone, and the loop fails with it. -/
def runFallible (step : σ → α → Except ε σ) (schedule : List Nat) (tasks : List (σ × List α)) :
    Except ε (List σ) :=
  (runTasks (fun s a => s >>= fun s => step s a) schedule
    (tasks.map fun task => ((.ok task.1 : Except ε σ), task.2))).mapM id

theorem foldl_bind_error (step : σ → α → Except ε σ) (as : List α) (e : ε) :
    as.foldl (fun s a => s >>= fun s => step s a) (.error e : Except ε σ) = .error e := by
  induction as with
  | nil => rfl
  | cons a as ih => exact ih

theorem foldl_bind_ok (step : σ → α → Except ε σ) (as : List α) (s : σ) :
    as.foldl (fun s a => s >>= fun s => step s a) (.ok s : Except ε σ) = as.foldlM step s := by
  induction as generalizing s with
  | nil => rfl
  | cons a as ih =>
    rw [List.foldl_cons, List.foldlM_cons]
    show as.foldl _ (step s a) = _
    cases step s a with
    | error e => exact foldl_bind_error step as e
    | ok s' => exact ih s'

/-- Each worker ends, or fails, as it would alone. -/
theorem runFallible_eq (step : σ → α → Except ε σ) (schedule : List Nat)
    (tasks : List (σ × List α)) :
    runFallible step schedule tasks = tasks.mapM fun task => task.2.foldlM step task.1 := by
  rw [runFallible, runTasks_eq, List.map_map]
  induction tasks with
  | nil => rfl
  | cons task tasks ih =>
    rw [List.map_cons, List.mapM_cons, List.mapM_cons, ih]
    show (List.foldl _ (Except.ok task.1) task.2 >>= _) = _
    rw [foldl_bind_ok]

end

section

variable {α : Type}

/-- Slices of `size` elements, the last of them perhaps shorter; `n` bounds their number. -/
def chunksOf (size : Nat) : Nat → List α → List (List α)
  | 0, _ => []
  | n + 1, xs => if xs = [] then [] else xs.take size :: chunksOf size n (xs.drop size)

/-- `par_chunks_mut(size)`. -/
def parChunksMut (size : Nat) (xs : List α) : List (List α) := chunksOf size xs.length xs

/-- **The loop over the slices of a buffer.** If cutting a buffer after its first slice cuts the
result there too, with the next slice under the next number, the results of the slices make up the
result of the buffer. -/
theorem flatMap_chunksOf {β : Type} {size : Nat} (part : Nat → List α → List β)
    (whole : Nat → List α → List β) (hnil : ∀ k, whole k [] = [])
    (hcut : ∀ k xs, xs ≠ [] → whole k xs = part k (xs.take size) ++ whole (k + 1) (xs.drop size))
    (hsize : 0 < size) (k : Nat) {n : Nat} {xs : List α} (hn : xs.length ≤ n) :
    ((chunksOf size n xs).zipIdx k).flatMap (fun chunk => part chunk.2 chunk.1) = whole k xs := by
  induction n generalizing xs k with
  | zero =>
    obtain rfl : xs = [] := List.eq_nil_of_length_eq_zero (Nat.le_zero.mp hn)
    exact (hnil k).symm
  | succ n ih =>
    rw [chunksOf]
    by_cases hxs : xs = []
    · rw [if_pos hxs, hxs, hnil]
      rfl
    · have hdrop : (xs.drop size).length ≤ n := by
        rw [List.length_drop]
        omega
      rw [if_neg hxs, List.zipIdx_cons, List.flatMap_cons, ih (k + 1) hdrop, hcut k xs hxs]

/-- The loop over the slices of a buffer, where a slice can fail. -/
theorem mapM_chunksOf {ε β : Type} {size : Nat} (part : Nat → List α → Except ε (List β))
    (whole : Nat → List α → Except ε (List β)) (hnil : ∀ k, whole k [] = .ok [])
    (hcut : ∀ k xs, xs ≠ [] → whole k xs =
      part k (xs.take size) >>= fun first =>
        (whole (k + 1) (xs.drop size)).map fun rest => first ++ rest)
    (hsize : 0 < size) (k : Nat) {n : Nat} {xs : List α} (hn : xs.length ≤ n) :
    (((chunksOf size n xs).zipIdx k).mapM fun chunk => part chunk.2 chunk.1).map List.flatten =
      whole k xs := by
  induction n generalizing xs k with
  | zero =>
    obtain rfl : xs = [] := List.eq_nil_of_length_eq_zero (Nat.le_zero.mp hn)
    exact (hnil k).symm
  | succ n ih =>
    rw [chunksOf]
    by_cases hxs : xs = []
    · rw [if_pos hxs, hxs, hnil]
      rfl
    · have hdrop : (xs.drop size).length ≤ n := by
        rw [List.length_drop]
        omega
      rw [if_neg hxs, List.zipIdx_cons, List.mapM_cons, hcut k xs hxs, ← ih (k + 1) hdrop]
      cases part k (xs.take size) with
      | error e => rfl
      | ok first =>
        show Except.map List.flatten (List.mapM _ _ >>= _) = Except.map _ (Except.map _ (List.mapM _ _))
        cases List.mapM (fun chunk => part chunk.2 chunk.1)
            ((chunksOf size n (xs.drop size)).zipIdx (k + 1)) with
        | error e => rfl
        | ok rest => rfl

end

end Castrum
