import Castrum.Ingress.RateLimit
import Castrum.Lib.Runs

/-!
# Castrum — the limiters of a process (`rust/ingress/rate_limit.rs`)

Instances with the same configuration share a limiter, so that no client has more than one budget. The
registry of these limiters is an LRU map that is never let to evict: once it is full, a new configuration is
refused. A limiter in turn keeps its counters in LRU maps, which do evict.

* `checkAlone` — what a call does to the counter of its key, and to no other;
* `answers_eq_alone` — the outcomes of a key, while its shard has room for the keys it sees;
* `Inv.step` — the limiter of a configuration is for ever the one first made, with all its calls;
* `shared_budget` — each key has one budget under each configuration.
-/

namespace Castrum

namespace KeyedRateLimiter

/-! ## One key

The outcomes of a key that has a limiter to itself. A limiter with room for the keys of the shard
gives each of them these outcomes. -/

/-- What a limiter does for a key that it has counted so far with `c`. -/
def checkAlone (limit : UInt32) (windowMs : UInt64) (c : Option Counter) (nowMs : UInt64) :
    RateOutcome × Option Counter :=
  if limit = 0 then
    ({ allowed := false, remaining := 0, resetMs := saturatingAdd nowMs windowMs }, c)
  else if limit = UInt32.ofNat (2 ^ 32 - 1) then
    ({ allowed := true, remaining := UInt32.ofNat (2 ^ 32 - 1),
       resetMs := saturatingAdd nowMs windowMs }, c)
  else
    let r := checkCounter limit (max windowMs 1) nowMs
      (c.getD { windowStart := nowMs, prev := 0, curr := 0 })
    (r.1, some r.2)

/-- The outcomes for a key that has a limiter to itself. -/
def alone (limit : UInt32) (windowMs : UInt64) : Option Counter → List UInt64 → List (UInt64 × RateOutcome)
  | _, [] => []
  | c, nowMs :: rest =>
    let r := checkAlone limit windowMs c nowMs
    (nowMs, r.1) :: alone limit windowMs r.2 rest

variable {M : Type → Type → Nat → Type} [LruMap M]

/-- The outcomes of some calls. -/
def answers : KeyedRateLimiter M → List Call → List (Call × RateOutcome)
  | _, [] => []
  | l, call :: calls =>
    (call, (l.checkKey call.key call.nowMs).1) :: answers (l.checkKey call.key call.nowMs).2 calls

/-- Those of one key. -/
def answersTo (key : UInt64) (answers : List (Call × RateOutcome)) : List (UInt64 × RateOutcome) :=
  (answers.filter (·.1.key = key)).map fun a => (a.1.nowMs, a.2)

/-- The clock values of the calls of a key. -/
def timesOf (key : UInt64) (calls : List Call) : List UInt64 :=
  (calls.filter (·.key = key)).map (·.nowMs)

section

variable {l : KeyedRateLimiter M} {key nowMs : UInt64}

/-- **A call of the key.** -/
theorem checkKey_alone (l : KeyedRateLimiter M) (key nowMs : UInt64) :
    ((l.checkKey key nowMs).1, (l.checkKey key nowMs).2.counter? key) =
      checkAlone l.limit l.windowMs (l.counter? key) nowMs := by
  unfold checkKey checkAlone
  split
  · rfl
  · split
    · rfl
    · unfold counter?
      dsimp only
      rw [Function.update_self, LruMap.get?_getOrInsertMut_self l.shard_pos]
      rfl

/-- **A call of another key**, while there is room for it. -/
theorem counter?_checkKey_of_room {key' : UInt64} (hne : key' ≠ key)
    (hroom : shardOf key' = shardOf key → LruMap.Room (l.shards (shardOf key)) key) :
    (l.checkKey key nowMs).2.counter? key' = l.counter? key' := by
  unfold checkKey
  split
  · rfl
  · split
    · rfl
    · unfold counter?
      dsimp only
      by_cases hshard : shardOf key' = shardOf key
      · rw [hshard, Function.update_self]
        exact LruMap.get?_touch_of_room (hroom hshard) hne _
      · rw [Function.update_of_ne hshard]

@[simp] theorem maxPerShard_checkKey : (l.checkKey key nowMs).2.maxPerShard = l.maxPerShard := by
  unfold checkKey
  split
  · rfl
  · split <;> rfl

/-- The keys of a shard behind a call. -/
theorem mem_keys_checkKey {shard : Fin shardCount} {k : UInt64}
    (h : k ∈ LruMap.keys ((l.checkKey key nowMs).2.shards shard)) :
    k ∈ LruMap.keys (l.shards shard) ∨ (k = key ∧ shard = shardOf key) := by
  by_cases hzero : l.limit = 0
  · rw [show l.checkKey key nowMs = _ from if_pos hzero] at h
    exact .inl h
  by_cases hmax : l.limit = UInt32.ofNat (2 ^ 32 - 1)
  · rw [show l.checkKey key nowMs = _ from (if_neg hzero).trans (if_pos hmax)] at h
    exact .inl h
  rw [show l.checkKey key nowMs = _ from (if_neg hzero).trans (if_neg hmax)] at h
  dsimp only at h
  by_cases hshard : shard = shardOf key
  · subst hshard
    rw [Function.update_self] at h
    exact (LruMap.mem_keys_touch h).symm.imp_right fun hk => ⟨hk, rfl⟩
  · rw [Function.update_of_ne hshard] at h
    exact .inl h

/-- What a key gets alone is what it gets from a limiter that sees no other. -/
theorem alone_eq_answers (key : UInt64) (times : List UInt64) :
    alone l.limit l.windowMs (l.counter? key) times = answersTo key (l.answers (times.map (⟨key, ·⟩))) := by
  induction times generalizing l with
  | nil => rfl
  | cons nowMs times ih =>
    have hone := checkKey_alone l key nowMs
    rw [Prod.mk.injEq] at hone
    have hih := ih (l := (l.checkKey key nowMs).2)
    rw [limit_checkKey, windowMs_checkKey] at hih
    rw [alone, ← hone.1, ← hone.2, hih]
    simp [answersTo, answers]

/-- The keys that some calls bring to a shard. -/
def keysIn (shard : Fin shardCount) (calls : List Call) : List UInt64 :=
  (calls.map (·.key)).filter (shardOf · = shard)

/-- **Other keys do not matter**, while the shard has room for the few that it sees. -/
theorem answers_eq_alone (key : UInt64) (calls : List Call) {few : List UInt64}
    (hfew : few.length ≤ l.maxPerShard) (hkeys : LruMap.keys (l.shards (shardOf key)) ⊆ few)
    (hcalls : keysIn (shardOf key) calls ⊆ few) :
    answersTo key (l.answers calls) = alone l.limit l.windowMs (l.counter? key) (timesOf key calls) := by
  induction calls generalizing l with
  | nil => rfl
  | cons call calls ih =>
    -- The keys of the shard stay within the few, whoever is checked.
    have hrest : keysIn (shardOf key) calls ⊆ few := by
      intro k hk
      refine hcalls ?_
      rw [keysIn, List.map_cons, List.filter_cons]
      split
      · exact List.mem_cons_of_mem _ hk
      · exact hk
    have hmem : shardOf call.key = shardOf key → call.key ∈ few := by
      intro hshard
      exact hcalls (List.mem_filter.mpr ⟨List.mem_map_of_mem List.mem_cons_self, by simpa using hshard⟩)
    have hkeys' : LruMap.keys ((l.checkKey call.key call.nowMs).2.shards (shardOf key)) ⊆ few := by
      intro k hk
      rcases mem_keys_checkKey hk with hk | ⟨rfl, hshard⟩
      · exact hkeys hk
      · exact hmem hshard.symm
    have hroom : few.length ≤ (l.checkKey call.key call.nowMs).2.maxPerShard := by
      rwa [maxPerShard_checkKey]
    have hih := ih hroom hkeys' hrest
    rw [limit_checkKey, windowMs_checkKey] at hih
    by_cases hkey : call.key = key
    · have hone := checkKey_alone l key call.nowMs
      rw [Prod.mk.injEq] at hone
      have htimes : timesOf key (call :: calls) = call.nowMs :: timesOf key calls := by
        simp [timesOf, hkey]
      have hanswers : answersTo key (l.answers (call :: calls)) =
          (call.nowMs, (l.checkKey call.key call.nowMs).1) ::
            answersTo key ((l.checkKey call.key call.nowMs).2.answers calls) := by
        simp [answersTo, answers, hkey]
      rw [hanswers, htimes, alone, hih, hkey, hone.1, hone.2]
    · have htimes : timesOf key (call :: calls) = timesOf key calls := by simp [timesOf, hkey]
      have hanswers : answersTo key (l.answers (call :: calls)) =
          answersTo key ((l.checkKey call.key call.nowMs).2.answers calls) := by
        simp [answersTo, answers, hkey]
      -- Another key of the shard finds room, so it evicts nobody.
      have hcounter : (l.checkKey call.key call.nowMs).2.counter? key = l.counter? key := by
        refine counter?_checkKey_of_room (Ne.symm hkey) fun hshard => ?_
        refine LruMap.room_of_subset hfew ?_ (hmem hshard.symm)
        rw [← hshard]
        exact hkeys
      rw [hanswers, htimes, hih, hcounter]

theorem answers_concat (l : KeyedRateLimiter M) (calls : List Call) (call : Call) :
    l.answers (calls ++ [call]) =
      l.answers calls ++ [(call, ((l.run calls).checkKey call.key call.nowMs).1)] := by
  induction calls generalizing l with
  | nil => rfl
  | cons c calls ih =>
    rw [List.cons_append, answers, ih]
    rfl

theorem run_concat (l : KeyedRateLimiter M) (calls : List Call) (call : Call) :
    l.run (calls ++ [call]) = ((l.run calls).checkKey call.key call.nowMs).2 :=
  List.foldl_concat ..

/-- The checks of a limiter, and one more. -/
theorem checks_concat {fresh : KeyedRateLimiter M} {checks : List (Call × RateOutcome)}
    (hl : l = fresh.run (checks.map Prod.fst)) (h : checks = fresh.answers (checks.map Prod.fst)) (call : Call) :
    (l.checkKey call.key call.nowMs).2 =
        fresh.run ((checks ++ [(call, (l.checkKey call.key call.nowMs).1)]).map Prod.fst) ∧
      checks ++ [(call, (l.checkKey call.key call.nowMs).1)] =
        fresh.answers ((checks ++ [(call, (l.checkKey call.key call.nowMs).1)]).map Prod.fst) := by
  rw [List.map_append, List.map_singleton, run_concat, answers_concat, ← h, ← hl]
  exact ⟨rfl, rfl⟩

end

end KeyedRateLimiter

/-! ## The process

Configurations share limiters by their three numbers; other limiters stand alone. Every call is
logged with its answer, so that what holds of all calls can be said of the log. -/

structure LimiterKey where
  limit : UInt32
  windowMs : UInt32
  maxEntries : Nat
  deriving DecidableEq

def maxSharedLimiters : Nat := 16

def resolvedEntries (maxEntries : Option Nat) : Nat :=
  min (maxEntries.getD defaultMaxEntries) maxEntriesCap

/-- The limiters of a process, which handles point to, and those that configurations share. -/
structure Limiters (M : Type → Type → Nat → Type) where
  limiters : List (KeyedRateLimiter M)
  shared : M LimiterKey Nat maxSharedLimiters

namespace Limiters

inductive Act where
  /-- `shared_limiter`. -/
  | sharedLimiter (limit windowMs : UInt32) (maxEntries : Option Nat)
  /-- The constructor of `RateLimiter`. -/
  | newLimiter (limit windowMs : UInt32) (maxEntries : Option Nat)
  /-- `check_key` of a limiter. -/
  | check (handle : Nat) (key nowMs : UInt64)

inductive Answer where
  | handle (h : Nat)
  | refused
  | outcome (o : RateOutcome)

variable {M : Type → Type → Nat → Type} [LruMap M]

/-- A call with its answer; there is no call on a limiter that was not handed out. -/
def call (s : Limiters M) : Act → Option (Answer × Limiters M)
  | .sharedLimiter limit windowMs maxEntries =>
    let resolved := resolvedEntries maxEntries
    let key := ⟨limit, windowMs, resolved⟩
    match LruMap.get? s.shared key with
    | some existing => some (.handle existing, { s with shared := LruMap.touch s.shared key existing })
    | none =>
      if maxSharedLimiters ≤ (LruMap.entries s.shared).length then some (.refused, s)
      else some (.handle s.limiters.length,
        { limiters := s.limiters ++ [.new limit windowMs (some resolved)]
          shared := LruMap.touch s.shared key s.limiters.length })
  | .newLimiter limit windowMs maxEntries =>
    some (.handle s.limiters.length, { s with limiters := s.limiters ++ [.new limit windowMs maxEntries] })
  | .check handle key nowMs =>
    s.limiters[handle]?.map fun l =>
      (.outcome (l.checkKey key nowMs).1, { s with limiters := s.limiters.set handle (l.checkKey key nowMs).2 })

/-- A process, and the calls that it has answered. -/
structure Logged (M : Type → Type → Nat → Type) where
  state : Limiters M
  log : List (Act × Answer)

def Logged.new : Logged M := ⟨⟨[], LruMap.empty⟩, []⟩

def Logged.step (s : Logged M) (act : Act) : Option (Logged M) :=
  (s.state.call act).map fun r => ⟨r.2, s.log ++ [(act, r.1)]⟩

/-- The limiter that a call asks for. -/
def Act.fresh : Act → Option (KeyedRateLimiter M)
  | .sharedLimiter limit windowMs maxEntries => some (.new limit windowMs (some (resolvedEntries maxEntries)))
  | .newLimiter limit windowMs maxEntries => some (.new limit windowMs maxEntries)
  | .check .. => none

/-- The configuration that a call asks a limiter for. -/
def Act.config : Act → Option LimiterKey
  | .sharedLimiter limit windowMs maxEntries => some ⟨limit, windowMs, resolvedEntries maxEntries⟩
  | _ => none

/-- A check of a limiter, and its outcome. -/
def checked (handle : Nat) : Act × Answer → Option (KeyedRateLimiter.Call × RateOutcome)
  | (.check h key nowMs, .outcome o) => if h = handle then some (⟨key, nowMs⟩, o) else none
  | _ => none

/-- All checks of a limiter. -/
def checksOf (handle : Nat) (log : List (Act × Answer)) : List (KeyedRateLimiter.Call × RateOutcome) :=
  log.filterMap (checked handle)

/-- The limiters that were not made to be shared. -/
def standalone : Act × Answer → Option Nat
  | (.newLimiter .., .handle h) => some h
  | _ => none

/-- What the log says of the limiters. -/
structure Inv (s : Logged M) : Prop where
  shared_lt : ∀ key h, LruMap.get? s.state.shared key = some h → h < s.state.limiters.length
  shared_inj : ∀ key key' h, LruMap.get? s.state.shared key = some h →
    LruMap.get? s.state.shared key' = some h → key = key'
  shared_made : ∀ (key : LimiterKey) (h : Nat), LruMap.get? s.state.shared key = some h → ∃ maxEntries,
    (Act.sharedLimiter key.limit key.windowMs maxEntries, Answer.handle h) ∈ s.log ∧
      resolvedEntries maxEntries = key.maxEntries
  handed : ∀ limit windowMs maxEntries h,
    (Act.sharedLimiter limit windowMs maxEntries, Answer.handle h) ∈ s.log →
    LruMap.get? s.state.shared ⟨limit, windowMs, resolvedEntries maxEntries⟩ = some h
  refused : ∀ limit windowMs maxEntries, (Act.sharedLimiter limit windowMs maxEntries, Answer.refused) ∈ s.log →
    (LruMap.entries s.state.shared).length = maxSharedLimiters ∧
      LruMap.get? s.state.shared ⟨limit, windowMs, resolvedEntries maxEntries⟩ = none
  own : (s.log.filterMap standalone).Nodup
  own_lt : ∀ h ∈ s.log.filterMap standalone, h < s.state.limiters.length
  own_shared : ∀ h ∈ s.log.filterMap standalone, ∀ key, LruMap.get? s.state.shared key ≠ some h
  limiters : ∀ (h : Nat) (l : KeyedRateLimiter M), s.state.limiters[h]? = some l → ∃ fresh,
    l = KeyedRateLimiter.run fresh ((checksOf h s.log).map Prod.fst) ∧
    checksOf h s.log = KeyedRateLimiter.answers fresh ((checksOf h s.log).map Prod.fst) ∧
    ∀ act, (act, Answer.handle h) ∈ s.log → act.fresh = some fresh
  handles_lt : ∀ act h, (act, Answer.handle h) ∈ s.log → h < s.state.limiters.length
  checked_lt : ∀ h, checksOf h s.log ≠ [] → h < s.state.limiters.length

theorem inv_new : Inv (Logged.new : Logged M) where
  shared_lt := fun key h hget => by simp [Logged.new] at hget
  shared_inj := fun key key' h hget => by simp [Logged.new] at hget
  shared_made := fun key h hget => by simp [Logged.new] at hget
  handed := fun _ _ _ _ hmem => by cases hmem
  refused := fun _ _ _ hmem => by cases hmem
  own := List.nodup_nil
  own_lt := fun h hmem => by cases hmem
  own_shared := fun h hmem => by cases hmem
  limiters := fun h l hl => by cases hl
  handles_lt := fun _ _ hmem => by cases hmem
  checked_lt := fun h hne => absurd rfl hne

section

variable {s s' : Logged M}

theorem checksOf_concat (h : Nat) (log : List (Act × Answer)) (a : Act × Answer) :
    checksOf h (log ++ [a]) = checksOf h log ++ (checked h a).toList := by
  rw [checksOf, checksOf, List.filterMap_append, List.filterMap_cons, List.filterMap_nil]
  cases checked h a <;> rfl

theorem mem_log {log : List (Act × Answer)} {act act' : Act} {a a' : Answer} :
    (act, a) ∈ log ++ [(act', a')] ↔ (act, a) ∈ log ∨ act = act' ∧ a = a' := by
  rw [List.mem_append, List.mem_singleton, Prod.mk.injEq]

theorem config_eq_some {act : Act} {key : LimiterKey} (h : act.config = some key) :
    ∃ maxEntries, act = .sharedLimiter key.limit key.windowMs maxEntries ∧
      resolvedEntries maxEntries = key.maxEntries := by
  cases act with
  | sharedLimiter limit windowMs maxEntries =>
    obtain rfl := Option.some.inj h
    exact ⟨maxEntries, rfl, rfl⟩
  | newLimiter => cases h
  | check => cases h

/-- An answer that changes nothing: the limiter that the configuration has, or none where it has none and
there is no room for one. -/
theorem Inv.answered (h : Inv s) {shared : M LimiterKey Nat maxSharedLimiters}
    (hsame : ∀ key, LruMap.get? shared key = LruMap.get? s.state.shared key)
    (hlength : (LruMap.entries shared).length = (LruMap.entries s.state.shared).length)
    {limit windowMs : UInt32} {maxEntries : Option Nat} {a : Answer}
    (ha : (a = .refused ∧ (LruMap.entries s.state.shared).length = maxSharedLimiters ∧
        LruMap.get? s.state.shared ⟨limit, windowMs, resolvedEntries maxEntries⟩ = none) ∨
      ∃ i, a = .handle i ∧ LruMap.get? s.state.shared ⟨limit, windowMs, resolvedEntries maxEntries⟩ = some i) :
    Inv ⟨{ s.state with shared := shared }, s.log ++ [(.sharedLimiter limit windowMs maxEntries, a)]⟩ := by
  have hown : (s.log ++ [(Act.sharedLimiter limit windowMs maxEntries, a)]).filterMap standalone =
      s.log.filterMap standalone := by simp [standalone]
  have hchecks : ∀ i, checksOf i (s.log ++ [(Act.sharedLimiter limit windowMs maxEntries, a)]) =
      checksOf i s.log := fun i => by rw [checksOf_concat]; exact List.append_nil _
  -- A handle in the log is an old one, or the one just given.
  have hhandle : ∀ {act : Act} {i : Nat},
      (act, Answer.handle i) ∈ s.log ++ [(Act.sharedLimiter limit windowMs maxEntries, a)] →
        (act, Answer.handle i) ∈ s.log ∨ act = .sharedLimiter limit windowMs maxEntries ∧
          LruMap.get? s.state.shared ⟨limit, windowMs, resolvedEntries maxEntries⟩ = some i := by
    intro act i hi
    refine (mem_log.mp hi).imp_right ?_
    rintro ⟨rfl, rfl⟩
    rcases ha with ⟨hno, -⟩ | ⟨i', hi', hget⟩
    · cases hno
    · cases hi'
      exact ⟨rfl, hget⟩
  refine ⟨?_, ?_, fun key i hi => ?_, fun limit' windowMs' maxEntries' i hi => ?_,
    fun limit' windowMs' maxEntries' hi => ?_, ?_, ?_, ?_, fun i l hl => ?_, fun act i hi => ?_, fun i hne => ?_⟩
  · simp only [hsame]
    exact h.shared_lt
  · simp only [hsame]
    exact h.shared_inj
  · simp only [hsame] at hi
    obtain ⟨entries, hact, hentries⟩ := h.shared_made key i hi
    exact ⟨entries, List.mem_append_left _ hact, hentries⟩
  · simp only [hsame]
    rcases hhandle hi with hi | ⟨hact, hget⟩
    · exact h.handed _ _ _ _ hi
    · cases hact
      exact hget
  · simp only [hsame, hlength]
    rcases mem_log.mp hi with hi | ⟨hact, rfl⟩
    · exact h.refused _ _ _ hi
    · cases hact
      rcases ha with ⟨-, hfull⟩ | ⟨i, hno, -⟩
      · exact hfull
      · cases hno
  · rw [hown]
    exact h.own
  · rw [hown]
    exact h.own_lt
  · simp only [hown, hsame]
    exact h.own_shared
  · rw [hchecks]
    obtain ⟨fresh, hrun, hanswers, hacts⟩ := h.limiters i l hl
    refine ⟨fresh, hrun, hanswers, fun act hi => ?_⟩
    rcases hhandle hi with hi | ⟨rfl, hget⟩
    · exact hacts act hi
    · obtain ⟨entries, hact, hentries⟩ := h.shared_made _ _ hget
      rw [← hacts _ hact]
      simp only [Act.fresh, hentries]
  · rcases hhandle hi with hi | ⟨-, hget⟩
    · exact h.handles_lt act i hi
    · exact h.shared_lt _ _ hget
  · rw [hchecks] at hne
    exact h.checked_lt i hne

/-- The limiters, where one is made and handed out. -/
theorem Inv.limiters_made (h : Inv s) {act : Act} {fresh : KeyedRateLimiter M} (hfresh : act.fresh = some fresh)
    {log : List (Act × Answer)} (hlog : log = s.log ++ [(act, Answer.handle s.state.limiters.length)])
    (hchecks : ∀ i, checksOf i log = checksOf i s.log) (i : Nat) (l : KeyedRateLimiter M)
    (hl : (s.state.limiters ++ [fresh])[i]? = some l) :
    ∃ fresh, l = KeyedRateLimiter.run fresh ((checksOf i log).map Prod.fst) ∧
      checksOf i log = KeyedRateLimiter.answers fresh ((checksOf i log).map Prod.fst) ∧
      ∀ act, (act, Answer.handle i) ∈ log → act.fresh = some fresh := by
  rw [hchecks, hlog]
  rcases Nat.lt_or_ge i s.state.limiters.length with hi | hi
  · obtain ⟨first, hrun, hanswers, hacts⟩ := h.limiters i l ((List.getElem?_append_left hi).symm.trans hl)
    refine ⟨first, hrun, hanswers, fun a ha => ?_⟩
    rcases mem_log.mp ha with ha | ⟨-, ha⟩
    · exact hacts a ha
    · rw [Answer.handle.injEq] at ha
      omega
  · rw [List.getElem?_append_right hi] at hl
    obtain ⟨hlt, hget⟩ := List.getElem?_eq_some_iff.mp hl
    rw [List.length_singleton] at hlt
    rw [List.getElem_singleton] at hget
    subst hget
    -- the limiter has not been checked, and its handle is new
    have hempty : checksOf i s.log = [] := by
      by_contra hne
      exact absurd (h.checked_lt i hne) (Nat.not_lt.mpr hi)
    rw [hempty]
    refine ⟨fresh, rfl, rfl, fun a ha => ?_⟩
    rcases mem_log.mp ha with ha | ⟨rfl, -⟩
    · exact absurd (h.handles_lt a i ha) (Nat.not_lt.mpr hi)
    · exact hfresh

/-- A limiter is made: a standalone one, or one for a configuration that has none. -/
theorem Inv.made (h : Inv s) {act : Act} {fresh : KeyedRateLimiter M} (hfresh : act.fresh = some fresh)
    {shared : M LimiterKey Nat maxSharedLimiters}
    (hread : ∀ key, LruMap.get? shared key =
      if act.config = some key then some s.state.limiters.length else LruMap.get? s.state.shared key)
    (hnone : ∀ key, act.config = some key → LruMap.get? s.state.shared key = none)
    (hrefused : ∀ limit windowMs maxEntries,
      (Act.sharedLimiter limit windowMs maxEntries, Answer.refused) ∈ s.log →
      (LruMap.entries shared).length = maxSharedLimiters ∧
        LruMap.get? shared ⟨limit, windowMs, resolvedEntries maxEntries⟩ = none) :
    Inv ⟨⟨s.state.limiters ++ [fresh], shared⟩, s.log ++ [(act, .handle s.state.limiters.length)]⟩ := by
  have hown : (s.log ++ [(act, Answer.handle s.state.limiters.length)]).filterMap standalone =
      s.log.filterMap standalone ++ (standalone (act, .handle s.state.limiters.length)).toList := by
    rw [List.filterMap_append, List.filterMap_cons, List.filterMap_nil]
    cases standalone (act, .handle s.state.limiters.length) <;> rfl
  have hnew : ∀ i ∈ (standalone (act, .handle s.state.limiters.length)).toList,
      i = s.state.limiters.length ∧ act.config = none := by
    cases act <;> simp [standalone, Act.config]
  have hchecks : ∀ i, checksOf i (s.log ++ [(act, Answer.handle s.state.limiters.length)]) =
      checksOf i s.log := by
    intro i
    rw [checksOf_concat, show checked i (act, .handle s.state.limiters.length) = none by cases act <;> rfl]
    exact List.append_nil _
  have hlength : (s.state.limiters ++ [fresh]).length = s.state.limiters.length + 1 := List.length_append
  refine ⟨fun key i hi => ?_, fun key key' i hi hi' => ?_, fun key i hi => ?_,
    fun limit windowMs maxEntries i ha => ?_, fun limit windowMs maxEntries ha => ?_, ?_, fun i hi => ?_,
    fun i hi key hkey => ?_, h.limiters_made hfresh rfl hchecks, fun act i ha => ?_, fun i hne => ?_⟩
  · rw [hlength]
    rw [hread] at hi
    split at hi
    · rw [← Option.some.inj hi]
      exact Nat.lt_succ_self _
    · exact Nat.lt_succ_of_lt (h.shared_lt key i hi)
  · -- the new handle is the only one of its number
    rw [hread] at hi hi'
    split at hi
    · next heq =>
      split at hi'
      · next heq' => exact Option.some.inj (heq.symm.trans heq')
      · rw [← Option.some.inj hi] at hi'
        exact absurd (h.shared_lt key' _ hi') (Nat.lt_irrefl _)
    · split at hi'
      · rw [← Option.some.inj hi'] at hi
        exact absurd (h.shared_lt key _ hi) (Nat.lt_irrefl _)
      · exact h.shared_inj key key' i hi hi'
  · rw [hread] at hi
    split at hi
    · next heq =>
      obtain ⟨entries, rfl, hentries⟩ := config_eq_some heq
      rw [← Option.some.inj hi]
      exact ⟨entries, List.mem_append_right _ List.mem_cons_self, hentries⟩
    · obtain ⟨entries, hact, hentries⟩ := h.shared_made key i hi
      exact ⟨entries, List.mem_append_left _ hact, hentries⟩
  · dsimp only
    rw [hread]
    rcases mem_log.mp ha with ha | ⟨rfl, hi⟩
    · have hold := h.handed _ _ _ _ ha
      rw [if_neg fun heq => by rw [hnone _ heq] at hold; cases hold]
      exact hold
    · rw [Answer.handle.inj hi]
      exact if_pos rfl
  · rcases mem_log.mp ha with ha | ⟨-, ha⟩
    · exact hrefused _ _ _ ha
    · cases ha
  · rw [hown]
    refine List.nodup_append.mpr ⟨h.own, by cases standalone _ <;> simp, fun i hi j hj hij => ?_⟩
    rw [hij, (hnew j hj).1] at hi
    exact Nat.lt_irrefl _ (h.own_lt _ hi)
  · rw [hlength]
    rw [hown] at hi
    rcases List.mem_append.mp hi with hi | hi
    · exact Nat.lt_succ_of_lt (h.own_lt i hi)
    · rw [(hnew i hi).1]
      exact Nat.lt_succ_self _
  · rw [hown] at hi
    dsimp only at hkey
    rw [hread] at hkey
    rcases List.mem_append.mp hi with hi | hi
    · split at hkey
      · rw [← Option.some.inj hkey] at hi
        exact Nat.lt_irrefl _ (h.own_lt _ hi)
      · exact h.own_shared i hi key hkey
    · obtain ⟨rfl, hconfig⟩ := hnew i hi
      rw [hconfig] at hkey
      exact Nat.lt_irrefl _ (h.shared_lt key _ hkey)
  · rw [hlength]
    rcases mem_log.mp ha with ha | ⟨-, ha⟩
    · exact Nat.lt_succ_of_lt (h.handles_lt act i ha)
    · rw [Answer.handle.inj ha]
      exact Nat.lt_succ_self _
  · rw [hlength]
    rw [hchecks] at hne
    exact Nat.lt_succ_of_lt (h.checked_lt i hne)

/-- A limiter for a configuration: the one it has, a new one while there is room, or none. -/
theorem Inv.sharedLimiter (h : Inv s) {limit windowMs : UInt32} {maxEntries : Option Nat}
    (hs : s.step (.sharedLimiter limit windowMs maxEntries) = some s') : Inv s' := by
  obtain ⟨⟨answer, state⟩, hcall, rfl⟩ := Option.map_eq_some_iff.mp hs
  unfold call at hcall
  dsimp only at hcall
  cases hget : LruMap.get? s.state.shared ⟨limit, windowMs, resolvedEntries maxEntries⟩ with
  | some existing =>
    rw [hget] at hcall
    obtain ⟨rfl, rfl⟩ := Prod.mk.inj (Option.some.inj hcall)
    have hkey : (⟨limit, windowMs, resolvedEntries maxEntries⟩ : LimiterKey) ∈ LruMap.keys s.state.shared := by
      by_contra hnot
      rw [LruMap.get?_eq_none_iff.mpr hnot] at hget
      cases hget
    -- a use of what is there changes no entry
    refine h.answered (fun key => ?_) (LruMap.length_touch_of_mem hkey existing) (.inr ⟨existing, rfl, hget⟩)
    rw [LruMap.get?_touch (.inl hkey)]
    split
    · next heq => rw [heq, hget]
    · rfl
  | none =>
    rw [hget] at hcall
    dsimp only at hcall
    split at hcall
    · next hfull =>
      obtain ⟨rfl, rfl⟩ := Prod.mk.inj (Option.some.inj hcall)
      have hlength := Nat.le_antisymm (LruMap.length_le s.state.shared) hfull
      exact h.answered (fun _ => rfl) rfl (.inl ⟨rfl, hlength, hget⟩)
    · next hroom =>
      obtain ⟨rfl, rfl⟩ := Prod.mk.inj (Option.some.inj hcall)
      refine h.made rfl (fun key => ?_) (fun key heq => ?_) fun limit windowMs maxEntries ha => ?_
      · rw [LruMap.get?_touch (.inr (Nat.lt_of_not_le hroom))]
        simp only [Act.config, Option.some.injEq, eq_comm]
      · rw [← Option.some.inj heq]
        exact hget
      · -- nothing was refused while there was room
        exact absurd (h.refused _ _ _ ha).1.ge hroom

/-- A standalone limiter. -/
theorem Inv.newLimiter (h : Inv s) {limit windowMs : UInt32} {maxEntries : Option Nat}
    (hs : s.step (.newLimiter limit windowMs maxEntries) = some s') : Inv s' := by
  obtain ⟨⟨answer, state⟩, hcall, rfl⟩ := Option.map_eq_some_iff.mp hs
  obtain ⟨rfl, rfl⟩ := Prod.mk.inj (Option.some.inj hcall)
  exact h.made rfl (fun _ => rfl) (fun _ heq => by cases heq) h.refused

/-- The limiters, where one was called: it has run over one call more. -/
theorem Inv.limiters_checked (h : Inv s) {handle : Nat} {l : KeyedRateLimiter M}
    (hl : s.state.limiters[handle]? = some l) (key nowMs : UInt64) {log : List (Act × Answer)}
    (hlog : log = s.log ++ [(.check handle key nowMs, .outcome (l.checkKey key nowMs).1)]) (i : Nat)
    (x : KeyedRateLimiter M) (hx : (s.state.limiters.set handle (l.checkKey key nowMs).2)[i]? = some x) :
    ∃ fresh, x = KeyedRateLimiter.run fresh ((checksOf i log).map Prod.fst) ∧
      checksOf i log = KeyedRateLimiter.answers fresh ((checksOf i log).map Prod.fst) ∧
      ∀ act, (act, Answer.handle i) ∈ log → act.fresh = some fresh := by
  -- a check hands out no handle
  have hmem : ∀ {act : Act}, (act, Answer.handle i) ∈ log → (act, Answer.handle i) ∈ s.log := by
    intro act ha
    rw [hlog] at ha
    rcases mem_log.mp ha with ha | ⟨-, ha⟩
    · exact ha
    · cases ha
  have hchecks : checksOf i log = checksOf i s.log ++
      if handle = i then [(⟨key, nowMs⟩, (l.checkKey key nowMs).1)] else [] := by
    rw [hlog, checksOf_concat, checked]
    split <;> rfl
  by_cases hhandle : handle = i
  · subst hhandle
    obtain ⟨fresh, hrun, hanswers, hacts⟩ := h.limiters handle l hl
    rw [List.getElem?_set_self (List.getElem?_eq_some_iff.mp hl).1] at hx
    obtain ⟨hrun', hanswers'⟩ := KeyedRateLimiter.checks_concat hrun hanswers ⟨key, nowMs⟩
    rw [hchecks, if_pos rfl]
    exact ⟨fresh, (Option.some.inj hx).symm.trans hrun', hanswers', fun act ha => hacts act (hmem ha)⟩
  · rw [List.getElem?_set_ne hhandle] at hx
    rw [hchecks, if_neg hhandle, List.append_nil]
    obtain ⟨fresh, hrun, hanswers, hacts⟩ := h.limiters i x hx
    exact ⟨fresh, hrun, hanswers, fun act ha => hacts act (hmem ha)⟩

/-- A call of a limiter. -/
theorem Inv.check (h : Inv s) {handle : Nat} {key nowMs : UInt64}
    (hs : s.step (.check handle key nowMs) = some s') : Inv s' := by
  obtain ⟨⟨answer, state⟩, hcall, rfl⟩ := Option.map_eq_some_iff.mp hs
  obtain ⟨l, hl, heq⟩ := Option.map_eq_some_iff.mp hcall
  rw [Prod.mk.injEq] at heq
  obtain ⟨rfl, rfl⟩ := heq
  have hi := (List.getElem?_eq_some_iff.mp hl).1
  -- Only a check is logged, so the other entries are the old ones.
  have hmem : ∀ {act : Act} {a : Answer}, (act, a) ∈ s.log ++
      [(Act.check handle key nowMs, Answer.outcome (l.checkKey key nowMs).1)] →
      (∀ o, a ≠ .outcome o) → (act, a) ∈ s.log :=
    fun ha hne => (mem_log.mp ha).resolve_right fun heq => hne _ heq.2
  have hown : (s.log ++ [(Act.check handle key nowMs, Answer.outcome (l.checkKey key nowMs).1)]).filterMap
      standalone = s.log.filterMap standalone := by
    simp [standalone]
  refine ⟨?_, h.shared_inj, ?_, ?_, ?_, ?_, ?_, ?_, h.limiters_checked hl key nowMs rfl, ?_, ?_⟩
  · intro key h' hget
    rw [List.length_set]
    exact h.shared_lt key h' hget
  · intro key i hget
    obtain ⟨entries, hact, hentries⟩ := h.shared_made key i hget
    exact ⟨entries, List.mem_append_left _ hact, hentries⟩
  · exact fun limit windowMs maxEntries i hi =>
      h.handed limit windowMs maxEntries i (hmem hi fun _ hc => by cases hc)
  · exact fun limit windowMs maxEntries hi =>
      h.refused limit windowMs maxEntries (hmem hi fun _ hc => by cases hc)
  · rw [hown]
    exact h.own
  · rw [hown, List.length_set]
    exact h.own_lt
  · rw [hown]
    exact h.own_shared
  · intro act i ha
    rw [List.length_set]
    exact h.handles_lt act i (hmem ha fun _ hc => by cases hc)
  · intro i hne
    rw [List.length_set]
    rw [checksOf_concat] at hne
    by_cases hhandle : handle = i
    · exact hhandle ▸ hi
    · refine h.checked_lt i ?_
      simpa [checked, hhandle] using hne

/-- **Every state reached.** -/
theorem inv_of_exec {acts : List Act} (h : exec Logged.step Logged.new acts = some s) : Inv s := by
  refine (Run.of_exec acts h).invariant inv_new fun t act u ht _ hstep => ?_
  cases act with
  | sharedLimiter limit windowMs maxEntries => exact ht.sharedLimiter hstep
  | newLimiter limit windowMs maxEntries => exact ht.newLimiter hstep
  | check handle key nowMs => exact ht.check hstep

end

/-! ## Budgets

The invariant in terms of the log only, with no word on the state. -/

/-- What holds of all calls and their answers. -/
structure OneBudget (s : Logged M) : Prop where
  /-- A configuration has one limiter, and no other configuration has it. -/
  same_iff : ∀ {limit windowMs limit' windowMs' : UInt32} {maxEntries maxEntries' : Option Nat} {i i' : Nat},
    (Act.sharedLimiter limit windowMs maxEntries, Answer.handle i) ∈ s.log →
    (Act.sharedLimiter limit' windowMs' maxEntries', Answer.handle i') ∈ s.log →
    (i = i' ↔ limit = limit' ∧ windowMs = windowMs' ∧
      resolvedEntries maxEntries = resolvedEntries maxEntries')
  /-- A configuration that was refused has none, and there are as many others as may be. -/
  refused : ∀ {limit windowMs : UInt32} {maxEntries : Option Nat},
    (Act.sharedLimiter limit windowMs maxEntries, Answer.refused) ∈ s.log →
    ∃ others : List LimiterKey, others.Nodup ∧ others.length = maxSharedLimiters ∧
      ⟨limit, windowMs, resolvedEntries maxEntries⟩ ∉ others ∧
      ∀ key ∈ others, ∃ entries i, (Act.sharedLimiter key.limit key.windowMs entries, Answer.handle i) ∈ s.log ∧
        resolvedEntries entries = key.maxEntries
  /-- One that was handed a limiter is never refused. -/
  kept : ∀ {limit windowMs : UInt32} {maxEntries maxEntries' : Option Nat} {i : Nat},
    (Act.sharedLimiter limit windowMs maxEntries, Answer.handle i) ∈ s.log →
    resolvedEntries maxEntries = resolvedEntries maxEntries' →
    (Act.sharedLimiter limit windowMs maxEntries', Answer.refused) ∉ s.log
  /-- A standalone limiter is shared with nobody. -/
  own : (s.log.filterMap standalone).Nodup ∧ ∀ i ∈ s.log.filterMap standalone,
    ∀ limit windowMs maxEntries, (Act.sharedLimiter limit windowMs maxEntries, Answer.handle i) ∉ s.log
  /-- The outcomes of a key are those that it would have had alone, if its shard had room: those that the
  limiter, as it was made, gives to the calls of this key. -/
  outcomes : ∀ {act : Act} {i : Nat} {fresh : KeyedRateLimiter M}, (act, Answer.handle i) ∈ s.log →
    act.fresh = some fresh → ∀ key, (KeyedRateLimiter.keysIn (KeyedRateLimiter.shardOf key)
      ((checksOf i s.log).map Prod.fst)).dedup.length ≤ fresh.maxPerShard →
    KeyedRateLimiter.answersTo key (checksOf i s.log) = KeyedRateLimiter.alone fresh.limit fresh.windowMs none
      (KeyedRateLimiter.timesOf key ((checksOf i s.log).map Prod.fst)) ∧
    KeyedRateLimiter.answersTo key (checksOf i s.log) = KeyedRateLimiter.answersTo key
      (fresh.answers ((KeyedRateLimiter.timesOf key ((checksOf i s.log).map Prod.fst)).map (⟨key, ·⟩)))

/-- A limiter that was made has no counter yet. -/
theorem keys_fresh {act : Act} {fresh : KeyedRateLimiter M} (h : act.fresh = some fresh) :
    ∀ shard, LruMap.keys (fresh.shards shard) = [] := by
  intro shard
  cases act with
  | check => cases h
  | sharedLimiter | newLimiter =>
    obtain rfl := Option.some.inj h
    exact LruMap.keys_empty

/-- **One budget for a key and a configuration.** Over any calls of a process, in any order: all instances of
a configuration have the same limiter, from the first to the last, and no other configuration or standalone
limiter has it; a configuration is refused, and its budget never reset, once there are sixteen others. A key
has the outcomes of its own calls, whatever the other keys did, while no more keys of its shard were seen than
the shard can hold. -/
theorem shared_budget {acts : List Act} {s : Logged M} (h : exec Logged.step Logged.new acts = some s) :
    OneBudget s := by
  have hinv := inv_of_exec h
  refine ⟨fun {limit windowMs limit' windowMs' maxEntries maxEntries' i i'} hi hi' => ?_, fun hrefused => ?_,
    fun hi hentries hrefused => ?_, ⟨hinv.own, fun i hi limit windowMs maxEntries ha => ?_⟩,
    fun {act i fresh} hact hfresh key hfew => ?_⟩
  · have hget := hinv.handed _ _ _ _ hi
    have hget' := hinv.handed _ _ _ _ hi'
    constructor
    · rintro rfl
      have hkey := hinv.shared_inj _ _ i hget hget'
      rwa [LimiterKey.mk.injEq] at hkey
    · rintro ⟨rfl, rfl, hentries⟩
      rw [hentries, hget'] at hget
      exact (Option.some.inj hget).symm
  -- A refusal tells that the map of the limiters is full, and its keys are sixteen configurations
  -- that were handed out.
  · obtain ⟨hfull, hnone⟩ := hinv.refused _ _ _ hrefused
    refine ⟨LruMap.keys s.state.shared, LruMap.nodup s.state.shared, ?_,
      LruMap.get?_eq_none_iff.mp hnone, fun key hkey => ?_⟩
    · rw [LruMap.length_keys]
      exact hfull
    · cases hget : LruMap.get? s.state.shared key with
      | none => exact absurd hkey (LruMap.get?_eq_none_iff.mp hget)
      | some i =>
        obtain ⟨entries, hact, hentries⟩ := hinv.shared_made key i hget
        exact ⟨entries, i, hact, hentries⟩
  · have hget := hinv.handed _ _ _ _ hi
    rw [hentries, (hinv.refused _ _ _ hrefused).2] at hget
    cases hget
  · exact hinv.own_shared i hi _ (hinv.handed _ _ _ _ ha)
  · have hlt := hinv.handles_lt act i hact
    obtain ⟨first, hrun, hanswers, hacts⟩ := hinv.limiters i _ (List.getElem?_eq_getElem hlt)
    obtain rfl : fresh = first := Option.some.inj (hfresh.symm.trans (hacts act hact))
    -- A fresh limiter has no counter, so the key starts alone.
    have hnone : fresh.counter? key = none := by
      rw [KeyedRateLimiter.counter?, LruMap.get?_eq_none_iff, keys_fresh hfresh]
      exact List.not_mem_nil
    have halone := KeyedRateLimiter.answers_eq_alone key ((checksOf i s.log).map Prod.fst) hfew
      (by rw [keys_fresh hfresh]; exact List.nil_subset _) fun k hk => List.mem_dedup.mpr hk
    rw [← hanswers] at halone
    exact ⟨hnone ▸ halone, halone.trans (KeyedRateLimiter.alone_eq_answers key _)⟩

/-- Two instances of one configuration, and two requests of a client that has one in a window. -/
def twoInstances : List Act :=
  [.sharedLimiter 1 1000 none, .sharedLimiter 1 1000 (some 100000), .check 0 7 0, .check 0 7 1]

theorem shared_budget_two : ∃ s : Logged Lru, exec Logged.step Logged.new twoInstances = some s ∧
    KeyedRateLimiter.answersTo 7 (checksOf 0 s.log) = [(0, ⟨true, 0, 1000⟩), (1, ⟨false, 0, 1000⟩)] ∧
    KeyedRateLimiter.answersTo 7 (checksOf 0 s.log) = KeyedRateLimiter.alone 1 1000 none [0, 1] := by
  have hruns : (exec Logged.step (Logged.new : Logged Lru) twoInstances).map (·.log) =
      some [(.sharedLimiter 1 1000 none, .handle 0), (.sharedLimiter 1 1000 (some 100000), .handle 0),
        (.check 0 7 0, .outcome ⟨true, 0, 1000⟩), (.check 0 7 1, .outcome ⟨false, 0, 1000⟩)] := rfl
  obtain ⟨s, hs, hlog⟩ := Option.map_eq_some_iff.mp hruns
  have hact : (Act.sharedLimiter 1 1000 none, Answer.handle 0) ∈ s.log := by
    rw [hlog]
    exact List.mem_cons_self
  have halone := ((shared_budget hs).outcomes hact rfl 7 (by rw [hlog]; decide)).1
  refine ⟨s, hs, ?_, ?_⟩
  · rw [hlog]
    rfl
  · rw [hlog] at halone ⊢
    exact halone

end Limiters

end Castrum
