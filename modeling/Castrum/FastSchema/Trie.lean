import Castrum.FastSchema.Capture
import Mathlib.Data.List.Basic
import Mathlib.Tactic

/-!
# Castrum — what a capture finds

A capture is shown member values and array lengths, each under the keys that lead to it. The trie
says which target such a path and kind belong to, and the first thing shown of a target is kept.

* `Capture.play` — a capture that is shown a list of things;
* `exitKey_play` — what is shown between `enter_key` and `exit_key` is shown one key further up;
* `trie_new` — the trie of a list of targets, by the paths of its nodes;
* `shown_play` — a target finds the first thing shown of it, if no later target is the same.
-/

namespace Castrum

/-! ## Showing -/

/-- A range of the input, or a number of elements. -/
inductive Shown where
  | value (start stop : Nat)
  | length (count : Nat)
  deriving DecidableEq

def Shown.kind : Shown → CaptureKind
  | .value _ _ => .value
  | .length _ => .length

/-- Something shown, and the keys that lead to it. -/
abbrev Event := List Bytes × Shown

/-- The target that asks for an event. -/
def Event.target (e : Event) : TargetPath := ⟨e.1, e.2.kind⟩

def Event.under (key : Bytes) (e : Event) : Event := (key :: e.1, e.2)

def TrieNode.target (node : TrieNode) : CaptureKind → Option Nat
  | .value => node.valueTarget
  | .length => node.lengthTarget

/-- One step down the trie. -/
def trieStep (arena : List TrieNode) (top : Nat × Bool) (key : Bytes) : Nat × Bool :=
  if top.2 = false then (top.1, false)
  else
    match (nodeAt arena top.1).children.lookup key with
    | some next => (next, true)
    | none => (top.1, false)

namespace Capture

def top (cap : Capture) : Nat × Bool := cap.stack.getLast?.getD (0, true)

/-- Note something shown of target `ti`, the first time only. -/
def keep (cap : Capture) (ti : Nat) (s : Shown) : Capture :=
  if cap.matched.getD ti false then cap
  else
    match s with
    | .value start stop =>
      { cap with matched := cap.matched.set ti true, ranges := cap.ranges.set ti (start, stop) }
    | .length count =>
      { cap with matched := cap.matched.set ti true, lengths := cap.lengths.set ti count }

/-- `record_value` and `record_length`, at a node of the trie. -/
def recordAt (cap : Capture) (top : Nat × Bool) (s : Shown) : Capture :=
  if top.2 = false then cap
  else
    match (nodeAt cap.arena top.1).target s.kind with
    | none => cap
    | some ti => cap.keep ti s

/-- Show one thing, under keys below the current node. -/
def playOne (cap : Capture) (e : Event) : Capture :=
  cap.recordAt (e.1.foldl (trieStep cap.arena) cap.top) e.2

/-- Show one thing after another. -/
def play (cap : Capture) (es : List Event) : Capture := es.foldl playOne cap

variable {cap : Capture} {es : List Event} {key : Bytes}

theorem enterKey_eq (key : Bytes) : cap.enterKey key =
    { cap with stack := cap.stack ++ [trieStep cap.arena cap.top key] } := by
  unfold enterKey trieStep top
  dsimp only
  split
  · rfl
  · cases (nodeAt cap.arena (cap.stack.getLast?.getD (0, true)).1).children.lookup key with
    | none => rfl
    | some next => rfl

theorem keep_setStack (ti : Nat) (s : Shown) (st : List (Nat × Bool)) :
    ({ cap with stack := st }).keep ti s = { cap.keep ti s with stack := st } := by
  cases s <;> unfold keep <;> dsimp only <;> split <;> rfl

theorem keep_arena (ti : Nat) (s : Shown) : (cap.keep ti s).arena = cap.arena := by
  cases s <;> unfold keep <;> dsimp only <;> split <;> rfl

theorem recordAt_arena (top : Nat × Bool) (s : Shown) : (cap.recordAt top s).arena = cap.arena := by
  unfold recordAt
  split
  · rfl
  · split
    · rfl
    · exact keep_arena _ s

theorem recordAt_setStack (top : Nat × Bool) (s : Shown) (st : List (Nat × Bool)) :
    ({ cap with stack := st }).recordAt top s = { cap.recordAt top s with stack := st } := by
  unfold recordAt
  dsimp only
  split
  · rfl
  · split
    · rfl
    · exact keep_setStack _ s st

theorem recordAt_stack (top : Nat × Bool) (s : Shown) : (cap.recordAt top s).stack = cap.stack := by
  have h : cap.recordAt top s = { cap.recordAt top s with stack := cap.stack } :=
    recordAt_setStack top s cap.stack
  rw [h]

theorem play_stack : (cap.play es).stack = cap.stack := by
  induction es generalizing cap with
  | nil => rfl
  | cons e es ih =>
    change ((cap.playOne e).play es).stack = cap.stack
    rw [ih, playOne, recordAt_stack]

/-- The stack matters only by its top. -/
theorem play_setStack {st : List (Nat × Bool)}
    (h : st.getLast?.getD (0, true) = trieStep cap.arena cap.top key) :
    ({ cap with stack := st }).play es =
      { cap.play (es.map (Event.under key)) with stack := st } := by
  induction es generalizing cap with
  | nil => rfl
  | cons e es ih =>
    have hone : ({ cap with stack := st }).playOne e =
        { cap.playOne (e.under key) with stack := st } := by
      rw [playOne, recordAt_setStack]
      change { cap.recordAt (e.1.foldl (trieStep cap.arena) (st.getLast?.getD (0, true))) e.2 with
        stack := st } = _
      rw [h]
      rfl
    have hnext : st.getLast?.getD (0, true) =
        trieStep (cap.playOne (e.under key)).arena (cap.playOne (e.under key)).top key := by
      rw [h, playOne, recordAt_arena, top, top, recordAt_stack]
    change (({ cap with stack := st }).playOne e).play es = _
    rw [hone, ih hnext]
    rfl

/-- **What is shown between entering and leaving a key** is shown under that key. -/
theorem exitKey_play (h : cap.stack ≠ []) :
    ((cap.enterKey key).play es).exitKey = cap.play (es.map (Event.under key)) := by
  have hlen : 1 < (cap.stack ++ [trieStep cap.arena cap.top key]).length := by
    have := List.length_pos_iff.mpr h
    rw [List.length_append, List.length_singleton]
    omega
  have htop : (cap.stack ++ [trieStep cap.arena cap.top key]).getLast?.getD (0, true) =
      trieStep cap.arena cap.top key := by
    rw [List.getLast?_concat]
    rfl
  rw [enterKey_eq, play_setStack htop, exitKey]
  dsimp only
  rw [if_pos hlen, List.dropLast_concat]
  have hstack : (cap.play (es.map (Event.under key))).stack = cap.stack := play_stack
  rw [← hstack]

theorem recordValue_eq (h : cap.stack ≠ []) (start stop : Nat) :
    cap.recordValue start stop = cap.play [([], .value start stop)] := by
  change _ = cap.recordAt cap.top (.value start stop)
  unfold recordValue recordAt top
  rw [List.getLast?_eq_some_getLast h]
  rfl

theorem recordLength_eq (h : cap.stack ≠ []) (count : Nat) :
    cap.recordLength count = cap.play [([], .length count)] := by
  change _ = cap.recordAt cap.top (.length count)
  unfold recordLength recordAt top
  rw [List.getLast?_eq_some_getLast h]
  rfl

end Capture

/-! ## The trie -/

/-- The trie by the paths of its nodes; `own` is the target that asks for what is shown there. -/
structure TrieOf (arena : List TrieNode) (paths : List (List Bytes))
    (own : TargetPath → Option Nat) : Prop where
  length_eq : arena.length = paths.length
  root : paths[0]? = some []
  nodup : paths.Nodup
  closed : ∀ p k, p ++ [k] ∈ paths → p ∈ paths
  child : ∀ {n p}, paths[n]? = some p → ∀ k m,
    (nodeAt arena n).children.lookup k = some m ↔ paths[m]? = some (p ++ [k])
  target : ∀ {n p}, paths[n]? = some p → ∀ kind, (nodeAt arena n).target kind = own ⟨p, kind⟩
  steps_mem : ∀ {q i}, own q = some i → q.steps ∈ paths

theorem getElem?_concat_eq_some {α : Type} {xs : List α} {x y : α} {m : Nat} :
    (xs ++ [x])[m]? = some y ↔ xs[m]? = some y ∨ (m = xs.length ∧ x = y) := by
  obtain hlt | heq | hgt := Nat.lt_trichotomy m xs.length
  · rw [List.getElem?_append_left hlt]
    simp [hlt.ne]
  · subst heq
    simp
  · rw [List.getElem?_eq_none (by rw [List.length_append, List.length_singleton]; omega),
      List.getElem?_eq_none hgt.le]
    simp [hgt.ne']

section Trie

variable {arena : List TrieNode} {paths : List (List Bytes)} {own : TargetPath → Option Nat}
  {n : Nat} {p : List Bytes}

theorem trieOf_empty : TrieOf [TrieNode.new] [[]] fun _ => none where
  length_eq := rfl
  root := rfl
  nodup := List.nodup_singleton _
  closed p k h := by
    have := List.mem_singleton.mp h
    simp at this
  child {n p} h k m := by
    have hnode : nodeAt [TrieNode.new] n = TrieNode.new := by
      cases n <;> rfl
    rw [hnode]
    constructor
    · intro hlookup
      cases hlookup
    · intro hm
      have := List.mem_singleton.mp (List.mem_of_getElem? hm)
      simp at this
  target {n p} h kind := by cases n <;> cases kind <;> rfl
  steps_mem h := by cases h

/-- A node other than those that were there. -/
theorem nodeAt_extend {node : TrieNode} (hn : n < arena.length) (i : Nat) :
    nodeAt (arena.set n node ++ [TrieNode.new]) i = if i = n then node else nodeAt arena i := by
  unfold nodeAt
  rw [List.getD_eq_getElem?_getD, List.getD_eq_getElem?_getD]
  obtain hlt | hge := Nat.lt_or_ge i arena.length
  · rw [List.getElem?_append_left (by rw [List.length_set]; exact hlt), List.getElem?_set]
    by_cases hi : n = i
    · subst hi
      simp [hlt]
    · simp [hi, Ne.symm hi]
  · have hi : i ≠ n := by omega
    have hnone : arena[i]? = none := List.getElem?_eq_none hge
    rw [if_neg hi, hnone, List.getElem?_append_right (by rw [List.length_set]; exact hge)]
    cases i - (arena.set n node).length <;> simp

theorem TrieOf.lt_length (h : TrieOf arena paths own) (hn : paths[n]? = some p) :
    n < arena.length := by
  rw [h.length_eq]
  exact (List.getElem?_eq_some_iff.mp hn).1

/-- Nodes are known by their paths. -/
theorem TrieOf.unique (h : TrieOf arena paths own) {m : Nat} (hn : paths[n]? = some p)
    (hm : paths[m]? = some p) : m = n := by
  obtain ⟨hnlt, hn⟩ := List.getElem?_eq_some_iff.mp hn
  obtain ⟨hmlt, hm⟩ := List.getElem?_eq_some_iff.mp hm
  exact (List.Nodup.getElem_inj_iff h.nodup).mp (hm.trans hn.symm)

/-- One step down a new branch. -/
theorem TrieOf.extend (h : TrieOf arena paths own) (hn : paths[n]? = some p) {key : Bytes}
    (hnone : (nodeAt arena n).children.lookup key = none) :
    TrieOf (arena.set n { nodeAt arena n with
      children := (nodeAt arena n).children ++ [(key, arena.length)] } ++ [TrieNode.new])
      (paths ++ [p ++ [key]]) own := by
  have hlt := h.lt_length hn
  have hnew : p ++ [key] ∉ paths := by
    intro hmem
    obtain ⟨m, hm⟩ := List.mem_iff_getElem?.mp hmem
    rw [(h.child hn key m).mpr hm] at hnone
    cases hnone
  have howner : ∀ kind, own ⟨p ++ [key], kind⟩ = none := by
    intro kind
    cases hown : own ⟨p ++ [key], kind⟩ with
    | none => rfl
    | some i => exact absurd (h.steps_mem hown) hnew
  refine ⟨?_, ?_, ?_, ?_, ?_, ?_, ?_⟩
  · rw [List.length_append, List.length_append, List.length_set, h.length_eq]
    rfl
  · exact getElem?_concat_eq_some.mpr (.inl h.root)
  · exact List.nodup_append.mpr ⟨h.nodup, List.nodup_singleton _, by
      intro a ha b hb hab
      rw [List.mem_singleton.mp hb] at hab
      exact hnew (hab ▸ ha)⟩
  · intro q k hmem
    rcases List.mem_append.mp hmem with hmem | hmem
    · exact List.mem_append_left _ (h.closed q k hmem)
    · obtain ⟨rfl, _⟩ := List.append_inj' (List.mem_singleton.mp hmem) rfl
      exact List.mem_append_left _ (List.mem_of_getElem? hn)
  · intro i q hi k m
    rw [nodeAt_extend hlt]
    rcases getElem?_concat_eq_some.mp hi with hi | ⟨rfl, rfl⟩
    · by_cases hin : i = n
      · -- the node that was given a child
        subst hin
        obtain rfl := Option.some.inj (hn.symm.trans hi)
        rw [if_pos rfl, List.lookup_append]
        by_cases hk : k = key
        · subst hk
          rw [hnone, Option.none_or]
          constructor
          · intro hlookup
            rw [List.lookup_cons_self] at hlookup
            cases hlookup
            exact getElem?_concat_eq_some.mpr (.inr ⟨h.length_eq, rfl⟩)
          · intro hm
            rcases getElem?_concat_eq_some.mp hm with hm | ⟨rfl, _⟩
            · exact absurd (List.mem_of_getElem? hm) hnew
            · rw [List.lookup_cons_self, h.length_eq]
        · have hother : List.lookup k [(key, arena.length)] = none := by
            rw [List.lookup_cons, beq_false_of_ne hk]
            rfl
          rw [hother, Option.or_none, h.child hi, getElem?_concat_eq_some]
          constructor
          · exact .inl
          · intro hm
            refine hm.resolve_right fun hm => hk ?_
            have := List.append_cancel_left hm.2
            cases this
            rfl
      · rw [if_neg hin, h.child hi, getElem?_concat_eq_some]
        constructor
        · exact .inl
        · intro hm
          refine hm.resolve_right fun hm => hin ?_
          obtain ⟨hpq, _⟩ := List.append_inj' hm.2 rfl
          exact h.unique hn (hpq ▸ hi)
    · -- the new node has no children, and no path goes on behind it
      have hin : paths.length ≠ n := by
        rw [← h.length_eq]
        omega
      have hdefault : nodeAt arena paths.length = TrieNode.new := by
        unfold nodeAt
        rw [List.getD_eq_getElem?_getD, List.getElem?_eq_none h.length_eq.le]
        rfl
      rw [if_neg hin, hdefault]
      constructor
      · intro hlookup
        cases hlookup
      · intro hm
        rcases getElem?_concat_eq_some.mp hm with hm | ⟨_, hm⟩
        · exact absurd (h.closed _ _ (List.mem_of_getElem? hm)) hnew
        · have := congrArg List.length hm
          simp at this
  · intro i q hi kind
    rw [nodeAt_extend hlt]
    rcases getElem?_concat_eq_some.mp hi with hi | ⟨rfl, rfl⟩
    · split
      next hin =>
        subst hin
        rw [← h.target hi kind]
        cases kind <;> rfl
      next => exact h.target hi kind
    · have hin : paths.length ≠ n := by
        rw [← h.length_eq]
        omega
      rw [if_neg hin, howner, nodeAt, List.getD_eq_getElem?_getD,
        List.getElem?_eq_none h.length_eq.le]
      cases kind <;> rfl
  · intro q i hown
    exact List.mem_append_left _ (h.steps_mem hown)

theorem TrieOf.addStep (h : TrieOf arena paths own) (hn : paths[n]? = some p) (key : Bytes) :
    ∃ paths', TrieOf (addStep arena n key).1 paths' own ∧
      paths'[(Castrum.addStep arena n key).2]? = some (p ++ [key]) := by
  unfold Castrum.addStep
  cases hlookup : (nodeAt arena n).children.lookup key with
  | some m => exact ⟨paths, h, (h.child hn key m).mp hlookup⟩
  | none =>
    refine ⟨_, h.extend hn hlookup, ?_⟩
    exact getElem?_concat_eq_some.mpr (.inr ⟨h.length_eq, rfl⟩)

theorem TrieOf.addSteps (h : TrieOf arena paths own) (hn : paths[n]? = some p)
    (keys : List Bytes) : ∃ paths', TrieOf (addSteps arena n keys).1 paths' own ∧
      paths'[(Castrum.addSteps arena n keys).2]? = some (p ++ keys) := by
  induction keys generalizing arena paths n p with
  | nil =>
    refine ⟨paths, h, ?_⟩
    rw [List.append_nil]
    exact hn
  | cons key keys ih =>
    obtain ⟨paths₁, h₁, hn₁⟩ := h.addStep hn key
    obtain ⟨paths₂, h₂, hn₂⟩ := ih h₁ hn₁
    refine ⟨paths₂, h₂, ?_⟩
    rw [List.append_assoc] at hn₂
    exact hn₂

/-- Of targets that are the same the last one wins. -/
theorem TrieOf.addTarget (h : TrieOf arena paths own) (ti : Nat) (t : TargetPath) :
    ∃ paths', TrieOf (addTarget arena ti t) paths'
      fun q => if q = t then some ti else own q := by
  obtain ⟨paths₁, h₁, hr⟩ := h.addSteps h.root t.steps
  rw [List.nil_append] at hr
  obtain ⟨r, hr₀⟩ : ∃ r, r = Castrum.addSteps arena 0 t.steps := ⟨_, rfl⟩
  rw [← hr₀] at h₁ hr
  have hlt := h₁.lt_length hr
  -- one node changes, and only by its target
  have hnodes : ∃ node : TrieNode, Castrum.addTarget arena ti t = r.1.set r.2 node ∧
      node.children = (nodeAt r.1 r.2).children ∧
      ∀ kind, node.target kind = if kind = t.kind then some ti else (nodeAt r.1 r.2).target kind := by
    unfold Castrum.addTarget
    dsimp only
    rw [← hr₀]
    cases t.kind with
    | value => exact ⟨_, rfl, rfl, fun kind => by cases kind <;> rfl⟩
    | length => exact ⟨_, rfl, rfl, fun kind => by cases kind <;> rfl⟩
  obtain ⟨node, hset, hchildren, htarget⟩ := hnodes
  have hnodeAt : ∀ i, nodeAt (r.1.set r.2 node) i = if i = r.2 then node else nodeAt r.1 i := by
    intro i
    unfold nodeAt
    rw [List.getD_eq_getElem?_getD, List.getD_eq_getElem?_getD, List.getElem?_set]
    by_cases hi : r.2 = i
    · subst hi
      simp [hlt]
    · simp [hi, Ne.symm hi]
  refine ⟨paths₁, ?_⟩
  rw [hset]
  refine ⟨?_, h₁.root, h₁.nodup, h₁.closed, ?_, ?_, ?_⟩
  · rw [List.length_set]
    exact h₁.length_eq
  · intro i q hi k m
    rw [hnodeAt, ← h₁.child hi]
    split
    next hir =>
      rw [hchildren, hir]
    next => rfl
  · intro i q hi kind
    rw [hnodeAt]
    by_cases hir : i = r.2
    · subst hir
      obtain rfl := Option.some.inj (hr.symm.trans hi)
      rw [if_pos rfl, htarget, h₁.target hi]
      by_cases hkind : kind = t.kind
      · rw [if_pos hkind, if_pos (by rw [hkind])]
      · rw [if_neg hkind, if_neg fun h => hkind (congrArg TargetPath.kind h)]
    · have hne : (⟨q, kind⟩ : TargetPath) ≠ t := by
        intro h
        apply hir
        apply h₁.unique hr
        rw [hi, ← h]
      rw [if_neg hir, if_neg hne, h₁.target hi]
  · intro q i hown
    split at hown
    next hq =>
      rw [hq]
      exact List.mem_of_getElem? hr
    next => exact h₁.steps_mem hown

/-- The target that a node of the trie is the end of. -/
def ownerFrom (own : TargetPath → Option Nat) (ti : Nat) :
    List TargetPath → TargetPath → Option Nat
  | [], q => own q
  | t :: ts, q => ownerFrom (fun q => if q = t then some ti else own q) (ti + 1) ts q

def owner (targets : List TargetPath) : TargetPath → Option Nat := ownerFrom (fun _ => none) 0 targets

theorem TrieOf.addTargets (h : TrieOf arena paths own) (ti : Nat) (ts : List TargetPath) :
    ∃ paths', TrieOf (addTargets arena ti ts) paths' (ownerFrom own ti ts) := by
  induction ts generalizing arena paths own ti with
  | nil => exact ⟨paths, h⟩
  | cons t ts ih =>
    obtain ⟨paths₁, h₁⟩ := h.addTarget ti t
    exact ih h₁ (ti + 1)

/-- **The trie of a list of targets.** -/
theorem trie_new (targets : List TargetPath) :
    ∃ paths, TrieOf (Capture.new targets).arena paths (owner targets) :=
  trieOf_empty.addTargets 0 targets

/-- Target `i` is `t`, and no later one is. -/
def IsLast (targets : List TargetPath) (i : Nat) (t : TargetPath) : Prop :=
  targets[i]? = some t ∧ ∀ j, i < j → targets[j]? ≠ some t

theorem isLast_succ {t q : TargetPath} {ts : List TargetPath} {j : Nat} :
    IsLast (t :: ts) (j + 1) q ↔ IsLast ts j q := by
  constructor
  · intro h
    refine ⟨h.1, fun l hl => ?_⟩
    exact h.2 (l + 1) (by omega)
  · intro h
    refine ⟨h.1, fun l hl => ?_⟩
    cases l with
    | zero => omega
    | succ l => exact h.2 l (by omega)

theorem isLast_zero {t q : TargetPath} {ts : List TargetPath} :
    IsLast (t :: ts) 0 q ↔ q = t ∧ q ∉ ts := by
  constructor
  · intro h
    refine ⟨(Option.some.inj h.1).symm, fun hmem => ?_⟩
    obtain ⟨l, hl⟩ := List.mem_iff_getElem?.mp hmem
    exact h.2 (l + 1) (by omega) hl
  · intro h
    refine ⟨congrArg some h.1.symm, fun l hl hmem => ?_⟩
    cases l with
    | zero => omega
    | succ l => exact h.2 (List.mem_of_getElem? hmem)

theorem ownerFrom_eq_some_iff {ti i : Nat} {ts : List TargetPath} {q : TargetPath} :
    ownerFrom own ti ts q = some i ↔
      (∃ j, i = ti + j ∧ IsLast ts j q) ∨ (q ∉ ts ∧ own q = some i) := by
  induction ts generalizing own ti with
  | nil => simp [ownerFrom, IsLast]
  | cons t ts ih =>
    rw [ownerFrom, ih]
    -- the first target owns `q` until a later one that is `q` takes it over
    constructor
    · rintro (⟨j, rfl, hj⟩ | ⟨hq, hown⟩)
      · exact .inl ⟨j + 1, by omega, isLast_succ.mpr hj⟩
      · by_cases hqt : q = t
        · rw [if_pos hqt, Option.some.injEq] at hown
          exact .inl ⟨0, by omega, isLast_zero.mpr ⟨hqt, hq⟩⟩
        · rw [if_neg hqt] at hown
          exact .inr ⟨by simp [hqt, hq], hown⟩
    · rintro (⟨j, rfl, hj⟩ | ⟨hq, hown⟩)
      · cases j with
        | zero =>
          obtain ⟨hqt, hq⟩ := isLast_zero.mp hj
          exact .inr ⟨hq, by rw [if_pos hqt]; rfl⟩
        | succ j => exact .inl ⟨j, by omega, isLast_succ.mp hj⟩
      · rw [List.mem_cons, not_or] at hq
        obtain ⟨hqt, hq⟩ := hq
        exact .inr ⟨hq, by rw [if_neg hqt, hown]⟩

theorem owner_eq_some_iff {targets : List TargetPath} {q : TargetPath} {i : Nat} :
    owner targets q = some i ↔ IsLast targets i q := by
  rw [owner, ownerFrom_eq_some_iff]
  simp

/-- Down the trie from a node. -/
theorem TrieOf.follow (h : TrieOf arena paths own) (hn : paths[n]? = some p) (keys : List Bytes) :
    (∃ m, keys.foldl (trieStep arena) (n, true) = (m, true) ∧ paths[m]? = some (p ++ keys)) ∨
      ((keys.foldl (trieStep arena) (n, true)).2 = false ∧ p ++ keys ∉ paths) := by
  -- behind a dead end there is nothing alive, and no path
  have hdead : ∀ (keys : List Bytes) (m : Nat), (keys.foldl (trieStep arena) (m, false)).2 = false := by
    intro keys
    induction keys with
    | nil => exact fun _ => rfl
    | cons key keys ih => exact fun m => ih m
  have hclosed : ∀ keys q, q ∉ paths → q ++ keys ∉ paths := by
    intro keys
    induction keys with
    | nil =>
      intro q hq
      rwa [List.append_nil]
    | cons key keys ih =>
      intro q hq
      have := ih (q ++ [key]) fun hmem => hq (h.closed q key hmem)
      rwa [List.append_assoc] at this
  induction keys generalizing n p with
  | nil =>
    refine .inl ⟨n, rfl, ?_⟩
    rw [List.append_nil]
    exact hn
  | cons key keys ih =>
    rw [List.foldl_cons]
    cases hlookup : (nodeAt arena n).children.lookup key with
    | some m =>
      have hstep : trieStep arena (n, true) key = (m, true) := by
        rw [trieStep, if_neg (by simp), hlookup]
      have := ih ((h.child hn key m).mp hlookup)
      rw [List.append_assoc] at this
      rw [hstep]
      exact this
    | none =>
      have hstep : trieStep arena (n, true) key = (n, false) := by
        rw [trieStep, if_neg (by simp), hlookup]
      have hnew : p ++ [key] ∉ paths := by
        intro hmem
        obtain ⟨m, hm⟩ := List.mem_iff_getElem?.mp hmem
        rw [(h.child hn key m).mpr hm] at hlookup
        cases hlookup
      have := hclosed keys (p ++ [key]) hnew
      rw [List.append_assoc] at this
      rw [hstep]
      exact .inr ⟨hdead keys n, this⟩

end Trie

/-! ## What is found -/

namespace Capture

variable {cap : Capture} {paths : List (List Bytes)} {own : TargetPath → Option Nat}
  {es : List Event} {e : Event}

/-- Something shown goes to the target that asks for it. -/
theorem playOne_eq (h : TrieOf cap.arena paths own) (htop : cap.top = (0, true)) :
    cap.playOne e = match own e.target with
      | none => cap
      | some ti => cap.keep ti e.2 := by
  rw [playOne, htop]
  rcases h.follow h.root e.1 with ⟨m, hm, hpath⟩ | ⟨hdead, hpath⟩
  · rw [hm, recordAt, if_neg (by simp), h.target hpath]
    rfl
  · have hnone : own e.target = none := by
      cases hown : own e.target with
      | none => rfl
      | some i => exact absurd (h.steps_mem hown) hpath
    rw [hnone, recordAt, if_pos hdead]

/-- What target `i` has found. -/
def shown (cap : Capture) (i : Nat) : CaptureKind → Option Shown
  | .value => (cap.valueRange i).map fun r => .value r.1 r.2
  | .length => (cap.length i).map .length

/-- There is room for `n` targets. -/
structure Sized (cap : Capture) (n : Nat) : Prop where
  matched : cap.matched.length = n
  ranges : cap.ranges.length = n
  lengths : cap.lengths.length = n

theorem Sized.keep {n : Nat} (h : cap.Sized n) (ti : Nat) (s : Shown) : (cap.keep ti s).Sized n := by
  unfold Capture.keep
  split
  · exact h
  · cases s with
    | value start stop =>
      exact ⟨List.length_set.trans h.matched, List.length_set.trans h.ranges, h.lengths⟩
    | length count =>
      exact ⟨List.length_set.trans h.matched, h.ranges, List.length_set.trans h.lengths⟩

variable {n i : Nat} (h : cap.Sized n)

include h

theorem shown_eq_none_iff (hi : i < n) (kind : CaptureKind) :
    cap.shown i kind = none ↔ cap.matched.getD i false = false := by
  have hr : i < cap.ranges.length := by rw [h.ranges]; exact hi
  have hl : i < cap.lengths.length := by rw [h.lengths]; exact hi
  cases kind with
  | value =>
    rw [shown, valueRange]
    cases cap.matched.getD i false <;> simp [hr]
  | length =>
    rw [shown, length]
    cases cap.matched.getD i false <;> simp [hl]

theorem shown_keep_self (hi : i < n) (s : Shown) :
    (cap.keep i s).shown i s.kind = (cap.shown i s.kind).or (some s) := by
  have hm : i < cap.matched.length := by rw [h.matched]; exact hi
  have hr : i < cap.ranges.length := by rw [h.ranges]; exact hi
  have hl : i < cap.lengths.length := by rw [h.lengths]; exact hi
  cases hmatched : cap.matched.getD i false with
  | true =>
    have hsome : (cap.shown i s.kind).isSome := by
      rw [Option.isSome_iff_ne_none, ne_eq, shown_eq_none_iff h hi, hmatched]
      simp
    obtain ⟨s', hs'⟩ := Option.isSome_iff_exists.mp hsome
    have hkeep : cap.keep i s = cap := by
      unfold keep
      rw [if_pos hmatched]
    rw [hkeep, hs', Option.some_or]
  | false =>
    rw [(shown_eq_none_iff h hi s.kind).mpr hmatched, Option.none_or]
    unfold keep
    rw [if_neg (by rw [hmatched]; exact Bool.false_ne_true)]
    cases s with
    | value start stop => simp [shown, Shown.kind, valueRange, hm, hr]
    | length count => simp [shown, Shown.kind, length, hm, hl]

omit h in
theorem shown_keep_ne {ti : Nat} (hti : ti ≠ i) (s : Shown) (kind : CaptureKind) :
    (cap.keep ti s).shown i kind = cap.shown i kind := by
  unfold keep
  split
  · rfl
  · have hmatched : (cap.matched.set ti true).getD i false = cap.matched.getD i false := by
      rw [List.getD_eq_getElem?_getD, List.getD_eq_getElem?_getD, List.getElem?_set_ne hti]
    cases s <;> cases kind <;> dsimp only [shown, valueRange, length] <;>
      simp only [hmatched, List.getElem?_set_ne hti]

omit h in
/-- The first thing shown of a target. -/
def firstShown (es : List Event) (t : TargetPath) : Option Shown :=
  (es.find? fun e => decide (e.target = t)).map Prod.snd

/-- **A target finds the first thing shown of it**, if the trie leads to it. Induction on what is
shown; the invariant is the trie, which showing leaves as it is. -/
theorem shown_play {t : TargetPath} (htrie : TrieOf cap.arena paths own) (htop : cap.top = (0, true))
    (hown : ∀ q j, own q = some j → j = i → q = t) (hi : i < n) :
    (cap.play es).shown i t.kind =
      (cap.shown i t.kind).or (if own t = some i then firstShown es t else none) := by
  induction es generalizing cap with
  | nil =>
    have hnone : (if own t = some i then firstShown [] t else none) = none := by
      split <;> rfl
    rw [hnone, Option.or_none]
    rfl
  | cons e es ih =>
    change ((cap.playOne e).play es).shown i t.kind = _
    rw [playOne_eq htrie htop]
    cases howner : own e.target with
    | none =>
      -- nobody's target: if it were this one, the trie would not lead to it
      dsimp only
      rw [ih h htrie htop]
      congr 1
      split
      next hlast =>
        have hne : e.target ≠ t := by
          intro he
          rw [he, hlast] at howner
          cases howner
        rw [firstShown, firstShown, List.find?_cons_of_neg (by simpa using hne)]
      next => rfl
    | some ti =>
      dsimp only
      have harena : (cap.keep ti e.2).arena = cap.arena := keep_arena ti e.2
      have hstack : (cap.keep ti e.2).top = (0, true) := by
        have hst : cap.keep ti e.2 = { cap.keep ti e.2 with stack := cap.stack } :=
          keep_setStack ti e.2 cap.stack
        rw [top, hst]
        exact htop
      rw [ih (h.keep ti e.2) (harena ▸ htrie) hstack]
      by_cases hti : ti = i
      · -- this target: what is kept first stays
        have he : e.target = t := hown _ _ howner hti
        subst hti
        have hkind : t.kind = e.2.kind := by rw [← he]; rfl
        rw [hkind, shown_keep_self h hi, ← he, if_pos howner, if_pos howner, Option.or_assoc,
          Option.some_or]
        congr 1
        rw [firstShown, List.find?_cons_of_pos (by simp)]
        rfl
      · rw [shown_keep_ne hti]
        congr 1
        split
        next hlast =>
          have hne : e.target ≠ t := by
            intro he
            rw [he, hlast, Option.some.injEq] at howner
            exact hti howner.symm
          rw [firstShown, firstShown, List.find?_cons_of_neg (by simpa using hne)]
        next => rfl

omit h in
/-- **What a capture of a list of targets finds.** -/
theorem shown_new {targets : List TargetPath} {t : TargetPath} (ht : targets[i]? = some t) :
    ((new targets).play es).shown i t.kind =
      if owner targets t = some i then firstShown es t else none := by
  obtain ⟨paths, htrie⟩ := trie_new targets
  have hsized : (new targets).Sized targets.length :=
    ⟨List.length_map _, List.length_map _, List.length_map _⟩
  have hi : i < targets.length := (List.getElem?_eq_some_iff.mp ht).1
  have hnone : (new targets).shown i t.kind = none := by
    rw [shown_eq_none_iff hsized hi]
    simp [new, List.getD, hi]
  rw [shown_play hsized htrie rfl ?_ hi, hnone, Option.none_or]
  intro q j hq hj
  rw [hj] at hq
  have := (owner_eq_some_iff.mp hq).1
  exact Option.some.inj (this.symm.trans ht)

end Capture

end Castrum
