import Castrum.Lib.Lru
import Mathlib.Data.List.Count
import Mathlib.Tactic

/-!
# Castrum — the sliding-window rate limiter (`rust/ingress/rate_limit.rs`)

Each key has a counter of the window it is in and of the one before. A request is admitted while
the current count plus the previous one, weighted by how much of it the sliding window still
covers, is below the limit. The counters live in 256 bounded LRU maps.

* `Bounded` — the counters against the log of all admissions: what is stored is what was
  admitted in the current window, and no window has admitted more than the limit;
* `Spaced` — for a clock that does not go back: the windows of the log start at least a window
  apart, and every admission lies inside its own;
* `checkKey_bounded` — both, over every run of calls.
-/

namespace Castrum

/-! ## Saturating arithmetic -/

def saturatingSub (a b : UInt64) : UInt64 := if b ≤ a then a - b else 0

def saturatingAdd (a b : UInt64) : UInt64 :=
  if a.toNat + b.toNat < 2 ^ 64 then a + b else UInt64.ofNat (2 ^ 64 - 1)

def saturatingMul (a b : UInt64) : UInt64 :=
  if a.toNat * b.toNat < 2 ^ 64 then a * b else UInt64.ofNat (2 ^ 64 - 1)

def saturatingAdd32 (a b : UInt32) : UInt32 :=
  if a.toNat + b.toNat < 2 ^ 32 then a + b else UInt32.ofNat (2 ^ 32 - 1)

@[simp] theorem toNat_saturatingSub (a b : UInt64) :
    (saturatingSub a b).toNat = a.toNat - b.toNat := by
  unfold saturatingSub
  split
  · next h => exact UInt64.toNat_sub_of_le _ _ h
  · next h =>
    rw [UInt64.le_iff_toNat_le] at h
    show 0 = _
    omega

theorem toNat_saturatingAdd {a b : UInt64} (h : a.toNat + b.toNat < 2 ^ 64) :
    (saturatingAdd a b).toNat = a.toNat + b.toNat := by
  rw [saturatingAdd, if_pos h, UInt64.toNat_add, Nat.mod_eq_of_lt h]

theorem toNat_saturatingMul {a b : UInt64} (h : a.toNat * b.toNat < 2 ^ 64) :
    (saturatingMul a b).toNat = a.toNat * b.toNat := by
  rw [saturatingMul, if_pos h, UInt64.toNat_mul, Nat.mod_eq_of_lt h]

theorem toNat_saturatingAdd32 {a b : UInt32} (h : a.toNat + b.toNat < 2 ^ 32) :
    (saturatingAdd32 a b).toNat = a.toNat + b.toNat := by
  rw [saturatingAdd32, if_pos h, UInt32.toNat_add, Nat.mod_eq_of_lt h]

/-! ## The counters -/

structure Counter where
  windowStart : UInt64
  prev : UInt32
  curr : UInt32
  deriving DecidableEq, Repr

structure RateOutcome where
  allowed : Bool
  remaining : UInt32
  resetMs : UInt64
  deriving DecidableEq, Repr

def advanceWindow (c : Counter) (nowMs window : UInt64) : Counter :=
  let elapsed := saturatingSub nowMs c.windowStart
  if elapsed < window then c
  else
    let doubleWindow := saturatingMul window 2
    if doubleWindow ≤ elapsed then
      { windowStart := nowMs, prev := 0, curr := 0 }
    else
      { windowStart := saturatingAdd c.windowStart window, prev := c.curr, curr := 0 }

/-- The sliding-window estimate, in `u128`: a product of a `u32` and a `u64` does not overflow. -/
def weighted (c : Counter) (nowMs window : UInt64) : Nat :=
  let elapsed := saturatingSub nowMs c.windowStart
  let overlap := saturatingSub window (min elapsed window)
  c.prev.toNat * overlap.toNat / window.toNat + c.curr.toNat

/-- What `check_key` does to the counter of the key, under the lock. -/
def checkCounter (limit : UInt32) (window nowMs : UInt64) (c : Counter) : RateOutcome × Counter :=
  let c := advanceWindow c nowMs window
  let w := weighted c nowMs window
  let reset := saturatingAdd c.windowStart window
  if w < limit.toNat then
    ({ allowed := true, remaining := UInt32.ofNat (limit.toNat - (w + 1)), resetMs := reset },
      { c with curr := saturatingAdd32 c.curr 1 })
  else
    ({ allowed := false, remaining := 0, resetMs := reset }, c)

/-! ## The limiter -/

def shardCount : Nat := 256

def maxEntriesCap : Nat := 4000000

def defaultMaxEntries : Nat := 100000

/-- The limiter, less the `seed` that only names the keys, over any maps `M` with the laws of LRU
maps. -/
structure KeyedRateLimiter (M : Type → Type → Nat → Type) where
  limit : UInt32
  windowMs : UInt64
  maxPerShard : Nat
  shards : Fin shardCount → M UInt64 Counter maxPerShard
  window_pos : 0 < windowMs.toNat
  window_lt : windowMs.toNat < 2 ^ 32
  shard_pos : 0 < maxPerShard

def KeyedRateLimiter.new {M : Type → Type → Nat → Type} [LruMap M] (limit windowMs : UInt32)
    (maxEntries : Option Nat) : KeyedRateLimiter M where
  limit := limit
  windowMs := (max windowMs 1).toUInt64
  maxPerShard := max (min (maxEntries.getD defaultMaxEntries) maxEntriesCap / shardCount) 64
  shards := fun _ => LruMap.empty
  window_pos := by
    rw [UInt32.toNat_toUInt64]
    show 0 < (if windowMs ≤ 1 then 1 else windowMs).toNat
    split
    · decide
    · next h =>
      rw [UInt32.le_iff_toNat_le] at h
      exact Nat.lt_trans Nat.one_pos (Nat.lt_of_not_le h)
  window_lt := by
    rw [UInt32.toNat_toUInt64]
    exact UInt32.toNat_lt _
  shard_pos := by omega

namespace KeyedRateLimiter

variable {M : Type → Type → Nat → Type} [LruMap M]

/-- `key & shard_mask`. -/
def shardOf (key : UInt64) : Fin shardCount := ⟨key.toNat % shardCount, Nat.mod_lt _ (by decide)⟩

/-- The counter stored for a key. -/
def counter? (l : KeyedRateLimiter M) (key : UInt64) : Option Counter :=
  LruMap.get? (l.shards (shardOf key)) key

def checkKey (l : KeyedRateLimiter M) (key nowMs : UInt64) : RateOutcome × KeyedRateLimiter M :=
  if l.limit = 0 then
    ({ allowed := false, remaining := 0, resetMs := saturatingAdd nowMs l.windowMs }, l)
  else if l.limit = UInt32.ofNat (2 ^ 32 - 1) then
    ({ allowed := true, remaining := UInt32.ofNat (2 ^ 32 - 1),
       resetMs := saturatingAdd nowMs l.windowMs }, l)
  else
    let window := max l.windowMs 1
    let r := LruMap.getOrInsertMut (l.shards (shardOf key)) key
      { windowStart := nowMs, prev := 0, curr := 0 } (checkCounter l.limit window nowMs)
    (r.1, { l with shards := Function.update l.shards (shardOf key) r.2 })

end KeyedRateLimiter

/-! ## One call -/

section

variable {limit : UInt32} {window : UInt64} (nowMs : UInt64) (c : Counter)

/-- Everything `advance_window` can do. No sum saturates: the window that is entered has begun. -/
theorem advanceWindow_cases (hpos : 0 < window.toNat) (hlt : window.toNat < 2 ^ 32) :
    (advanceWindow c nowMs window = c ∧ nowMs.toNat < c.windowStart.toNat + window.toNat) ∨
    ((advanceWindow c nowMs window).windowStart.toNat = c.windowStart.toNat + window.toNat ∧
      (advanceWindow c nowMs window).prev = c.curr ∧ (advanceWindow c nowMs window).curr = 0 ∧
      c.windowStart.toNat + window.toNat ≤ nowMs.toNat ∧
      nowMs.toNat < c.windowStart.toNat + 2 * window.toNat) ∨
    (advanceWindow c nowMs window = { windowStart := nowMs, prev := 0, curr := 0 } ∧
      c.windowStart.toNat + 2 * window.toNat ≤ nowMs.toNat) := by
  have hmul : (saturatingMul window 2).toNat = window.toNat * 2 :=
    toNat_saturatingMul (b := 2) (by show window.toNat * 2 < _; omega)
  have hnow := UInt64.toNat_lt nowMs
  unfold advanceWindow
  simp only [UInt64.lt_iff_toNat_lt, UInt64.le_iff_toNat_le, toNat_saturatingSub, hmul]
  split
  · next h => exact .inl ⟨rfl, by omega⟩
  · next h =>
    split
    · next h₂ => exact .inr (.inr ⟨rfl, by omega⟩)
    · next h₂ => exact .inr (.inl ⟨toNat_saturatingAdd (by omega), rfl, rfl, by omega, by omega⟩)

/-- Everything a call does to the counter it finds, once the window is current. -/
theorem checkCounter_cases (window : UInt64) (hmax : limit.toNat < 2 ^ 32 - 1) :
    ((checkCounter limit window nowMs c).1.allowed = true ∧
      (checkCounter limit window nowMs c).2 =
        { advanceWindow c nowMs window with
          curr := (checkCounter limit window nowMs c).2.curr } ∧
      (checkCounter limit window nowMs c).2.curr.toNat =
        (advanceWindow c nowMs window).curr.toNat + 1 ∧
      (checkCounter limit window nowMs c).2.curr.toNat ≤ limit.toNat) ∨
    ((checkCounter limit window nowMs c).1.allowed = false ∧
      (checkCounter limit window nowMs c).2 = advanceWindow c nowMs window) := by
  unfold checkCounter
  dsimp only
  split
  · next h =>
    have hcurr : (advanceWindow c nowMs window).curr.toNat < limit.toNat :=
      Nat.lt_of_le_of_lt (Nat.le_add_left ..) h
    have hadd : (saturatingAdd32 (advanceWindow c nowMs window).curr 1).toNat =
        (advanceWindow c nowMs window).curr.toNat + 1 :=
      toNat_saturatingAdd32 (b := 1) (by show _ + 1 < _; omega)
    exact .inl ⟨rfl, rfl, hadd, by dsimp only; omega⟩
  · exact .inr ⟨rfl, rfl⟩

end

namespace KeyedRateLimiter

variable {M : Type → Type → Nat → Type} {l : KeyedRateLimiter M} {key nowMs : UInt64}

theorem max_windowMs (l : KeyedRateLimiter M) : max l.windowMs 1 = l.windowMs := by
  show (if l.windowMs ≤ 1 then 1 else l.windowMs) = l.windowMs
  split
  · next h =>
    rw [UInt64.le_iff_toNat_le, show (1 : UInt64).toNat = 1 from rfl] at h
    have hpos := l.window_pos
    exact UInt64.toNat_inj.mp (by show 1 = _; omega)
  · rfl

/-- A limiter that counts: its limit is neither of the two sentinels. -/
def Counts (l : KeyedRateLimiter M) : Prop := l.limit ≠ 0 ∧ l.limit ≠ UInt32.ofNat (2 ^ 32 - 1)

theorem Counts.limit_lt (h : l.Counts) : l.limit.toNat < 2 ^ 32 - 1 := by
  have hne : l.limit.toNat ≠ 2 ^ 32 - 1 := fun he => h.2 (UInt32.toNat_inj.mp he)
  have hlt := UInt32.toNat_lt l.limit
  omega

variable [LruMap M]

@[simp] theorem limit_checkKey : (l.checkKey key nowMs).2.limit = l.limit := by
  unfold checkKey
  split
  · rfl
  · split <;> rfl

@[simp] theorem windowMs_checkKey : (l.checkKey key nowMs).2.windowMs = l.windowMs := by
  unfold checkKey
  split
  · rfl
  · split <;> rfl

/-- The counter a call of the key starts from: the stored one, or a new window. -/
def found (l : KeyedRateLimiter M) (key nowMs : UInt64) : Counter :=
  (l.counter? key).getD { windowStart := nowMs, prev := 0, curr := 0 }

/-- **A call of the key** is `checkCounter` on the counter found. -/
theorem checkKey_self (key nowMs : UInt64) (h : l.Counts) :
    (l.checkKey key nowMs).1 = (checkCounter l.limit l.windowMs nowMs (l.found key nowMs)).1 ∧
      (l.checkKey key nowMs).2.counter? key =
        some (checkCounter l.limit l.windowMs nowMs (l.found key nowMs)).2 := by
  unfold checkKey
  rw [if_neg h.1, if_neg h.2]
  dsimp only
  rw [l.max_windowMs]
  refine ⟨rfl, ?_⟩
  unfold counter?
  dsimp only
  rw [Function.update_self]
  exact LruMap.get?_getOrInsertMut_self l.shard_pos _ _ _ _

/-- **A call of another key** leaves the counter alone, or evicts it. -/
theorem counter?_checkKey_of_ne (nowMs : UInt64) {key' : UInt64} (hne : key' ≠ key) :
    (l.checkKey key nowMs).2.counter? key' = l.counter? key' ∨
      (l.checkKey key nowMs).2.counter? key' = none := by
  unfold checkKey
  split
  · exact .inl rfl
  · split
    · exact .inl rfl
    · unfold counter?
      dsimp only
      by_cases hshard : shardOf key' = shardOf key
      · rw [hshard, Function.update_self]
        exact LruMap.get?_getOrInsertMut_of_ne _ hne _ _
      · rw [Function.update_of_ne hshard]
        exact .inl rfl

/-! ## Runs -/

structure Call where
  key : UInt64
  nowMs : UInt64
  deriving DecidableEq, Repr

/-- The limiter after a sequence of calls. -/
def run (l : KeyedRateLimiter M) (calls : List Call) : KeyedRateLimiter M :=
  calls.foldl (fun l call => (l.checkKey call.key call.nowMs).2) l

/-- An admitted request: its clock value, and the start of the counter window it was counted in. -/
structure Admission where
  nowMs : UInt64
  windowStart : Option UInt64
  deriving DecidableEq, Repr

/-- What a call adds to the log of `key`. -/
def admission (l : KeyedRateLimiter M) (key : UInt64) (call : Call) : List Admission :=
  let r := l.checkKey call.key call.nowMs
  if call.key = key ∧ r.1.allowed = true then
    [{ nowMs := call.nowMs, windowStart := (r.2.counter? key).map (·.windowStart) }]
  else []

/-- The log of `key`: its admitted requests, in order. -/
def admissions (key : UInt64) : KeyedRateLimiter M → List Call → List Admission
  | _, [] => []
  | l, call :: calls =>
    l.admission key call ++ admissions key (l.checkKey call.key call.nowMs).2 calls

/-- No call of the sequence drops the counter of `key`. -/
def NotEvicted (key : UInt64) : KeyedRateLimiter M → List Call → Prop
  | _, [] => True
  | l, call :: calls =>
    ((l.counter? key).isSome → ((l.checkKey call.key call.nowMs).2.counter? key).isSome) ∧
      NotEvicted key (l.checkKey call.key call.nowMs).2 calls

instance NotEvicted.decidable (key : UInt64) :
    ∀ (l : KeyedRateLimiter M) (calls : List Call), Decidable (NotEvicted key l calls)
  | _, [] => inferInstanceAs (Decidable True)
  | l, call :: calls =>
    have := NotEvicted.decidable key (l.checkKey call.key call.nowMs).2 calls
    inferInstanceAs (Decidable (_ ∧ _))

/-- The calls of `key`, at clock values that do not go back. -/
def MonotoneClock (key : UInt64) (calls : List Call) : Prop :=
  (calls.filter (·.key = key)).Pairwise (·.nowMs.toNat ≤ ·.nowMs.toNat)

/-! ## The log against the counter -/

/-- **The counting invariant.** The stored counts are within the limit, the current one is what
the log has of the current window, no window of the log is later, and none is over the limit. -/
structure Bounded (limit : Nat) (c : Option Counter) (log : List Admission) : Prop where
  fresh : c = none → log = []
  stored : ∀ k, c = some k → k.curr.toNat ≤ limit ∧ k.prev.toNat ≤ limit ∧
    log.countP (·.windowStart = some k.windowStart) = k.curr.toNat ∧
    ∀ a ∈ log, ∃ w, a.windowStart = some w ∧ w.toNat ≤ k.windowStart.toNat
  count_le : ∀ w, log.countP (·.windowStart = w) ≤ limit

theorem Bounded.nil (limit : Nat) : Bounded limit none [] :=
  { fresh := fun _ => rfl, stored := nofun, count_le := fun _ => Nat.zero_le _ }

/-- Entering another window keeps the counting invariant: the log has nothing of it yet. -/
theorem Bounded.advance {limit : Nat} {c : Counter} {log : List Admission} {window : UInt64}
    (nowMs : UInt64) (h : Bounded limit (some c) log) (hpos : 0 < window.toNat) (hlt : window.toNat < 2 ^ 32) :
    Bounded limit (some (advanceWindow c nowMs window)) log := by
  obtain ⟨hcurr, hprev, hcount, hle⟩ := h.stored c rfl
  have later : ∀ k : Counter, c.windowStart.toNat < k.windowStart.toNat → k.curr = 0 →
      k.prev.toNat ≤ limit → Bounded limit (some k) log := by
    intro k hw hk hp
    refine ⟨nofun, ?_, h.count_le⟩
    rintro _ ⟨⟩
    have hnone : log.countP (·.windowStart = some k.windowStart) = 0 := by
      rw [List.countP_eq_zero]
      intro a ha hwa
      obtain ⟨w, hw', hwle⟩ := hle a ha
      rw [decide_eq_true_eq, hw', Option.some.injEq] at hwa
      rw [hwa] at hwle
      omega
    refine ⟨by rw [hk]; exact Nat.zero_le _, hp, by rw [hnone, hk]; rfl, ?_⟩
    intro a ha
    obtain ⟨w, hw', hwle⟩ := hle a ha
    exact ⟨w, hw', by omega⟩
  obtain ⟨heq, -⟩ | ⟨hws, hp, hc, -, -⟩ | ⟨heq, hge⟩ := advanceWindow_cases nowMs c hpos hlt
  · rw [heq]
    exact h
  · exact later _ (by omega) hc (by rw [hp]; exact hcurr)
  · rw [heq]
    exact later _ (by show _ < nowMs.toNat; omega) rfl (Nat.zero_le _)

/-- The log of the key after a call on the counter `c`. -/
def logged (limit : UInt32) (window nowMs : UInt64) (c : Counter) : List Admission :=
  let r := checkCounter limit window nowMs c
  if r.1.allowed = true then [{ nowMs := nowMs, windowStart := some r.2.windowStart }] else []

/-- **The step lemma of counting.** -/
theorem Bounded.checkCounter {limit : UInt32} {c : Counter} {log : List Admission}
    {window nowMs : UInt64} (h : Bounded limit.toNat (some c) log) (hpos : 0 < window.toNat)
    (hlt : window.toNat < 2 ^ 32) (hmax : limit.toNat < 2 ^ 32 - 1) :
    Bounded limit.toNat (some (checkCounter limit window nowMs c).2)
      (log ++ logged limit window nowMs c) := by
  have hadv := h.advance nowMs hpos hlt
  obtain ⟨-, hprev, hcount, hle⟩ := hadv.stored _ rfl
  unfold logged
  dsimp only
  obtain ⟨hok, heq, hcurr, hlim⟩ | ⟨hok, heq⟩ := checkCounter_cases nowMs c window hmax
  · -- an admission: counter and log grow by one in the window of the counter
    have hws : (Castrum.checkCounter limit window nowMs c).2.windowStart =
        (advanceWindow c nowMs window).windowStart := by rw [heq]
    have hpr : (Castrum.checkCounter limit window nowMs c).2.prev =
        (advanceWindow c nowMs window).prev := by rw [heq]
    rw [if_pos hok]
    refine ⟨nofun, ?_, ?_⟩
    · rintro _ ⟨⟩
      refine ⟨hlim, by rw [hpr]; exact hprev, ?_, ?_⟩
      · rw [List.countP_append, hws, hcount, hcurr]
        simp
      · intro a ha
        obtain ha | ha := List.mem_append.mp ha
        · rw [hws]
          exact hle a ha
        · rw [List.mem_singleton] at ha
          subst ha
          exact ⟨_, rfl, Nat.le_refl _⟩
    · intro w
      rw [List.countP_append]
      by_cases hw : some (Castrum.checkCounter limit window nowMs c).2.windowStart = w
      · subst hw
        rw [hws, hcount]
        simp
        omega
      · have hcw := hadv.count_le w
        simp [hw, hcw]
  · rw [heq, hok, if_neg nofun, List.append_nil]
    exact hadv

/-- **The spacing invariant**, under a clock that does not go back. Every admission lies inside
its window, and two windows are the same or start a window apart. -/
structure Spaced (window : Nat) (c : Option Counter) (log : List Admission) : Prop where
  fresh : c = none → log = []
  stored : ∀ k, c = some k → ∀ a ∈ log, ∃ w, a.windowStart = some w ∧
    w.toNat ≤ a.nowMs.toNat ∧ a.nowMs.toNat < w.toNat + window ∧
    (w.toNat = k.windowStart.toNat ∨ w.toNat + window ≤ k.windowStart.toNat)
  apart : ∀ a ∈ log, ∀ b ∈ log, ∀ v w, a.windowStart = some v → b.windowStart = some w →
    v = w ∨ v.toNat + window ≤ w.toNat ∨ w.toNat + window ≤ v.toNat

theorem Spaced.nil (window : Nat) : Spaced window none [] :=
  { fresh := fun _ => rfl, stored := nofun, apart := nofun }

/-- Where the window of the counter stands after a call at a clock value it has not passed. -/
theorem checkCounter_windowStart (limit : UInt32) {c : Counter} {window nowMs : UInt64}
    (hpos : 0 < window.toNat) (hlt : window.toNat < 2 ^ 32) (hmax : limit.toNat < 2 ^ 32 - 1)
    (hnow : c.windowStart.toNat ≤ nowMs.toNat) :
    let k := (Castrum.checkCounter limit window nowMs c).2
    (k.windowStart.toNat = c.windowStart.toNat ∨
      c.windowStart.toNat + window.toNat ≤ k.windowStart.toNat) ∧
      k.windowStart.toNat ≤ nowMs.toNat ∧ nowMs.toNat < k.windowStart.toNat + window.toNat := by
  have hws : (Castrum.checkCounter limit window nowMs c).2.windowStart =
      (advanceWindow c nowMs window).windowStart := by
    obtain ⟨-, heq, -⟩ | ⟨-, heq⟩ := checkCounter_cases nowMs c window hmax
    all_goals rw [heq]
  dsimp only
  rw [hws]
  obtain ⟨heq, hin⟩ | ⟨heq, -, -, hge, hin⟩ | ⟨heq, hge⟩ := advanceWindow_cases nowMs c hpos hlt
  · rw [heq]
    omega
  · omega
  · rw [heq]
    dsimp only
    omega

/-- **The step lemma of spacing.** -/
theorem Spaced.checkCounter {limit : UInt32} {c : Counter} {log : List Admission}
    {window nowMs : UInt64} (h : Spaced window.toNat (some c) log) (hpos : 0 < window.toNat)
    (hlt : window.toNat < 2 ^ 32) (hmax : limit.toNat < 2 ^ 32 - 1)
    (hnow : c.windowStart.toNat ≤ nowMs.toNat) :
    Spaced window.toNat (some (Castrum.checkCounter limit window nowMs c).2)
      (log ++ logged limit window nowMs c) := by
  obtain ⟨hmove, hle, hin⟩ := checkCounter_windowStart limit hpos hlt hmax hnow
  -- the old admissions' windows are the counter's window, or end before it starts
  have hold : ∀ a ∈ log, ∃ w, a.windowStart = some w ∧
      w.toNat ≤ a.nowMs.toNat ∧ a.nowMs.toNat < w.toNat + window.toNat ∧
      (w.toNat = (Castrum.checkCounter limit window nowMs c).2.windowStart.toNat ∨
        w.toNat + window.toNat ≤
          (Castrum.checkCounter limit window nowMs c).2.windowStart.toNat) := by
    intro a ha
    obtain ⟨w, hw, h₁, h₂, h₃⟩ := h.stored c rfl a ha
    exact ⟨w, hw, h₁, h₂, by omega⟩
  have hnew : ∀ a ∈ logged limit window nowMs c, a =
      { nowMs := nowMs,
        windowStart := some (Castrum.checkCounter limit window nowMs c).2.windowStart } := by
    intro a ha
    unfold logged at ha
    dsimp only at ha
    split at ha
    · exact List.mem_singleton.mp ha
    · nomatch ha
  refine ⟨nofun, ?_, ?_⟩
  · rintro _ ⟨⟩ a ha
    obtain ha | ha := List.mem_append.mp ha
    · exact hold a ha
    · rw [hnew a ha]
      exact ⟨_, rfl, hle, hin, .inl rfl⟩
  · intro a ha b hb v w hv hw
    obtain ha | ha := List.mem_append.mp ha
    · obtain hb | hb := List.mem_append.mp hb
      · exact h.apart a ha b hb v w hv hw
      · obtain ⟨v', hv', -, -, hd⟩ := hold a ha
        rw [hnew b hb, Option.some.injEq] at hw
        rw [hv, Option.some.injEq] at hv'
        subst hw hv'
        exact hd.imp UInt64.toNat_inj.mp .inl
    · rw [hnew a ha, Option.some.injEq] at hv
      obtain hb | hb := List.mem_append.mp hb
      · obtain ⟨w', hw', -, -, hd⟩ := hold b hb
        rw [hw, Option.some.injEq] at hw'
        subst hv hw'
        exact hd.imp (fun he => (UInt64.toNat_inj.mp he).symm) .inr
      · rw [hnew b hb, Option.some.injEq] at hw
        exact .inl (hv.symm.trans hw)

theorem countP_or_le {α : Type} (l : List α) (p q : α → Prop) [DecidablePred p]
    [DecidablePred q] : l.countP (fun a => p a ∨ q a) ≤ l.countP p + l.countP q := by
  induction l with
  | nil => exact Nat.le_refl _
  | cons a l ih =>
    simp only [List.countP_cons, decide_eq_true_eq]
    by_cases hp : p a
    · rw [if_pos (.inl hp), if_pos hp]
      omega
    · simp only [hp, false_or, if_false]
      omega

/-- **No interval meets three windows**: the admissions of one whose length is a window are
counted in at most two of them. -/
theorem Spaced.countP_interval_le {window limit : Nat} {c : Option Counter} {log : List Admission}
    (h : Spaced window c log) (hcount : ∀ w, log.countP (·.windowStart = w) ≤ limit) (t : Nat) :
    log.countP (fun a => t ≤ a.nowMs.toNat ∧ a.nowMs.toNat ≤ t + window) ≤ 2 * limit := by
  cases c with
  | none =>
    rw [h.fresh rfl]
    exact Nat.zero_le _
  | some k =>
    -- the starts of any two windows the interval meets are all there are
    have cover : ∃ v w, ∀ a ∈ log, t ≤ a.nowMs.toNat → a.nowMs.toNat ≤ t + window →
        a.windowStart = v ∨ a.windowStart = w := by
      by_cases hany : ∃ a ∈ log, t ≤ a.nowMs.toNat ∧ a.nowMs.toNat ≤ t + window
      · obtain ⟨a, ha, hta, hat⟩ := hany
        by_cases hother : ∃ b ∈ log, (t ≤ b.nowMs.toNat ∧ b.nowMs.toNat ≤ t + window) ∧
            b.windowStart ≠ a.windowStart
        · obtain ⟨b, hb, ⟨htb, hbt⟩, hne⟩ := hother
          refine ⟨a.windowStart, b.windowStart, ?_⟩
          intro d hd htd hdt
          obtain ⟨u, hu, hu₁, hu₂, -⟩ := h.stored k rfl a ha
          obtain ⟨v, hv, hv₁, hv₂, -⟩ := h.stored k rfl b hb
          obtain ⟨w, hw, hw₁, hw₂, -⟩ := h.stored k rfl d hd
          have hab := h.apart a ha b hb u v hu hv
          have had := h.apart a ha d hd u w hu hw
          have hbd := h.apart b hb d hd v w hv hw
          rw [hu, hv] at hne
          rw [hu, hv, hw]
          have huv : v ≠ u := fun he => hne (congrArg some he)
          obtain rfl | hab := hab
          · exact absurd rfl huv
          obtain rfl | had := had
          · exact .inl rfl
          obtain rfl | hbd := hbd
          · exact .inr rfl
          omega
        · refine ⟨a.windowStart, a.windowStart, ?_⟩
          intro d hd htd hdt
          by_contra hne
          exact hother ⟨d, hd, ⟨htd, hdt⟩, fun he => hne (.inl he)⟩
      · exact ⟨none, none, fun a ha h₁ h₂ => absurd ⟨a, ha, h₁, h₂⟩ hany⟩
    obtain ⟨v, w, hcover⟩ := cover
    calc log.countP (fun a => t ≤ a.nowMs.toNat ∧ a.nowMs.toNat ≤ t + window)
        ≤ log.countP (fun a => a.windowStart = v ∨ a.windowStart = w) := by
          apply List.countP_mono_left
          intro a ha hin
          rw [decide_eq_true_eq] at hin ⊢
          exact hcover a ha hin.1 hin.2
      _ ≤ log.countP (·.windowStart = v) + log.countP (·.windowStart = w) :=
          countP_or_le log _ _
      _ ≤ 2 * limit := by
          have hv := hcount v
          have hw := hcount w
          omega

/-! ## Whole runs -/

/-- **The run rule.** Seen from one key that is never evicted, a run is a run of `checkCounter` on
its counter: what its own calls keep holds of the counter and the log at the end. The invariant
may speak of the calls still to come. -/
theorem run_invariant (I : Option Counter → List Admission → List Call → Prop)
    {limit : UInt32} {window : UInt64}
    (hown : ∀ c log call calls, I c log (call :: calls) → call.key = key →
      I (some (Castrum.checkCounter limit window call.nowMs
          (c.getD { windowStart := call.nowMs, prev := 0, curr := 0 })).2)
        (log ++ logged limit window call.nowMs
          (c.getD { windowStart := call.nowMs, prev := 0, curr := 0 })) calls)
    (hother : ∀ c log call calls, I c log (call :: calls) → call.key ≠ key → I c log calls)
    {calls : List Call} (hl : l.Counts) (hlimit : l.limit = limit) (hwindow : l.windowMs = window)
    (hkeep : NotEvicted key l calls) (log : List Admission) (h : I (l.counter? key) log calls) :
    I ((l.run calls).counter? key) (log ++ admissions key l calls) [] := by
  induction calls generalizing l log with
  | nil =>
    rw [admissions, List.append_nil]
    exact h
  | cons call calls ih =>
    obtain ⟨hstays, hkeep⟩ := hkeep
    rw [admissions, ← List.append_assoc]
    have hnext : (l.checkKey call.key call.nowMs).2.Counts := by
      rw [Counts, limit_checkKey]
      exact hl
    refine ih hnext (by rw [limit_checkKey, hlimit]) (by rw [windowMs_checkKey, hwindow]) hkeep _ ?_
    by_cases hkey : call.key = key
    · -- a call of the key is one step of its counter
      obtain ⟨hout, hcounter⟩ := checkKey_self call.key call.nowMs hl
      have hlog : l.admission key call = logged limit window call.nowMs
          ((l.counter? key).getD { windowStart := call.nowMs, prev := 0, curr := 0 }) := by
        unfold admission logged
        dsimp only
        rw [hout, ← hkey, hcounter, hlimit, hwindow]
        simp only [true_and]
        rfl
      rw [hlog]
      have hstep := hown _ _ _ _ h hkey
      rw [← hkey, hcounter, hlimit, hwindow]
      rw [← hkey] at hstep
      exact hstep
    · have hlog : l.admission key call = [] := by
        unfold admission
        exact if_neg fun h => hkey h.1
      -- another key's call evicts it or leaves it, and evicting is excluded
      have hsame : (l.checkKey call.key call.nowMs).2.counter? key = l.counter? key := by
        obtain heq | hnone := counter?_checkKey_of_ne (l := l) call.nowMs (Ne.symm hkey)
        · exact heq
        · rw [hnone] at hstays ⊢
          cases hc : l.counter? key with
          | none => rfl
          | some k => exact nomatch hstays (by rw [hc]; rfl)
      rw [hlog, List.append_nil, hsame]
      exact hother _ _ _ _ h hkey

/-- The counting invariant of a run. -/
theorem run_bounded {calls : List Call} (hl : l.Counts) (hkeep : NotEvicted key l calls)
    (hnew : l.counter? key = none) :
    Bounded l.limit.toNat ((l.run calls).counter? key) (admissions key l calls) := by
  refine run_invariant (fun c log _ => Bounded l.limit.toNat c log) ?_ (fun _ _ _ _ h _ => h)
    hl rfl rfl hkeep [] ?_
  · intro c log call _ h _
    cases c with
    | some c => exact h.checkCounter l.window_pos l.window_lt hl.limit_lt
    | none =>
      have hfresh : Bounded l.limit.toNat
          (some { windowStart := call.nowMs, prev := 0, curr := 0 }) log := by
        rw [h.fresh rfl]
        refine ⟨nofun, ?_, fun _ => Nat.zero_le _⟩
        rintro _ ⟨⟩
        exact ⟨Nat.zero_le _, Nat.zero_le _, rfl, nofun⟩
      exact hfresh.checkCounter l.window_pos l.window_lt hl.limit_lt
  · rw [hnew]
    exact Bounded.nil _

/-- The spacing invariant of a run whose clock does not go back. -/
theorem run_spaced {calls : List Call} (hl : l.Counts) (hkeep : NotEvicted key l calls)
    (hnew : l.counter? key = none) (hclock : MonotoneClock key calls) :
    Spaced l.windowMs.toNat ((l.run calls).counter? key) (admissions key l calls) := by
  -- the calls to come are at or behind the start of the window
  let I : Option Counter → List Admission → List Call → Prop := fun c log calls =>
    Spaced l.windowMs.toNat c log ∧ MonotoneClock key calls ∧
      ∀ k, c = some k → ∀ call ∈ calls, call.key = key → k.windowStart.toNat ≤ call.nowMs.toNat
  refine (run_invariant I ?_ ?_ hl rfl rfl hkeep [] ?_).1
  · intro c log call calls h hkey
    obtain ⟨hspaced, hclock, hnow⟩ := h
    unfold MonotoneClock at hclock
    rw [List.filter_cons_of_pos (by simpa using hkey), List.pairwise_cons] at hclock
    have hfound : ∃ k, c.getD { windowStart := call.nowMs, prev := 0, curr := 0 } = k ∧
        Spaced l.windowMs.toNat (some k) log ∧ k.windowStart.toNat ≤ call.nowMs.toNat := by
      cases c with
      | some k => exact ⟨k, rfl, hspaced, hnow k rfl call List.mem_cons_self hkey⟩
      | none =>
        refine ⟨_, rfl, ?_, Nat.le_refl _⟩
        rw [hspaced.fresh rfl]
        exact ⟨nofun, fun _ _ => nofun, nofun⟩
    obtain ⟨k, hk, hspaced, hle⟩ := hfound
    rw [hk]
    refine ⟨hspaced.checkCounter l.window_pos l.window_lt hl.limit_lt hle, hclock.2, ?_⟩
    rintro _ ⟨⟩ later hlater hlkey
    have hws := (checkCounter_windowStart l.limit l.window_pos l.window_lt hl.limit_lt hle).2.1
    have hmono := hclock.1 later (List.mem_filter.mpr ⟨hlater, by simpa using hlkey⟩)
    exact Nat.le_trans hws hmono
  · intro c log call calls h hkey
    obtain ⟨hspaced, hclock, hnow⟩ := h
    unfold MonotoneClock at hclock
    rw [List.filter_cons_of_neg (by simpa using hkey)] at hclock
    exact ⟨hspaced, hclock, fun k hk later hlater => hnow k hk later (List.mem_cons_of_mem _ hlater)⟩
  · rw [hnew]
    exact ⟨Spaced.nil _, hclock, nofun⟩

theorem NotEvicted.of_append {calls more : List Call} (h : NotEvicted key l (calls ++ more)) :
    NotEvicted key l calls := by
  induction calls generalizing l with
  | nil => exact trivial
  | cons call calls ih => exact ⟨h.1, ih h.2⟩

/-- **The limiter is safe over whole runs.** Whatever the clock does, the stored counts stay
within the limit and no counter window admits more; with a clock that does not go back, no
interval of a window's length admits more than twice the limit. -/
theorem checkKey_bounded (limit windowMs : UInt32) (maxEntries : Option Nat) (hzero : limit ≠ 0)
    (hmax : limit ≠ UInt32.ofNat (2 ^ 32 - 1)) (key : UInt64) (calls : List Call)
    (hkeep : NotEvicted key (new limit windowMs maxEntries : KeyedRateLimiter M) calls) :
    let l : KeyedRateLimiter M := new limit windowMs maxEntries
    (∀ first, first <+: calls → ∀ c, (l.run first).counter? key = some c →
      c.curr ≤ limit ∧ c.prev ≤ limit) ∧
    (∀ w, (admissions key l calls).countP (·.windowStart = w) ≤ limit.toNat) ∧
    (MonotoneClock key calls → ∀ t, (admissions key l calls).countP
      (fun a => t ≤ a.nowMs.toNat ∧ a.nowMs.toNat ≤ t + l.windowMs.toNat) ≤ 2 * limit.toNat) := by
  intro l
  have hl : l.Counts := ⟨hzero, hmax⟩
  have hnew : l.counter? key = none := LruMap.get?_empty key
  have hcount := (run_bounded hl hkeep hnew).count_le
  refine ⟨?_, hcount, fun hclock t => (run_spaced hl hkeep hnew hclock).countP_interval_le hcount t⟩
  rintro first ⟨more, rfl⟩ c hc
  obtain ⟨hcurr, hprev, -⟩ := (run_bounded hl hkeep.of_append hnew).stored c hc
  exact ⟨UInt32.le_iff_toNat_le.mpr hcurr, UInt32.le_iff_toNat_le.mpr hprev⟩

/-- Three requests of which two are admitted, and one more a window later. -/
def sampleCalls : List Call := [⟨7, 0⟩, ⟨7, 1⟩, ⟨9, 1⟩, ⟨7, 2⟩, ⟨7, 1001⟩]

theorem checkKey_bounded_sample :
    (admissions 7 (new 2 1000 none : KeyedRateLimiter Lru) sampleCalls).countP (·.windowStart = some 0) ≤ 2 ∧
    (admissions 7 (new 2 1000 none : KeyedRateLimiter Lru) sampleCalls).countP
      (fun a => 1 ≤ a.nowMs.toNat ∧ a.nowMs.toNat ≤ 1 + 1000) ≤ 2 * 2 := by
  have hkeep : NotEvicted 7 (new 2 1000 none : KeyedRateLimiter Lru) sampleCalls := by
    decide +kernel
  obtain ⟨-, hcount, hinterval⟩ :=
    checkKey_bounded 2 1000 none (by decide) (by decide) 7 sampleCalls hkeep
  exact ⟨hcount _, hinterval (by unfold MonotoneClock; decide +kernel) 1⟩

end KeyedRateLimiter

end Castrum
