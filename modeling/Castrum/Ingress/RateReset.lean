import Castrum.Ingress.RateLimit

/-!
# Castrum — what a check tells its client (`rust/ingress/rate_limit.rs`, `rust/ingress/pipeline.rs`)

A check reports how many requests remain and when the window resets. The count that remains is
exact: at the same time the estimate grows by one with each admitted request. The reset time is the
end of the counter window; the count of that window then weighs in full, so a client that was
denied because of it is denied again.

* `remaining_exact` — as many further checks are allowed as are reported, and no more;
* `reset_allowed_iff` — a denied check is allowed at the reset time if and only if the window that
  ends then is not full.
-/

namespace Castrum

section

variable {limit : UInt32} {window nowMs : UInt64} {c : Counter}

/-! ## The counter at the same time -/

theorem advanceWindow_of_lt (h : nowMs.toNat < c.windowStart.toNat + window.toNat)
    (hpos : 0 < window.toNat) : advanceWindow c nowMs window = c := by
  unfold advanceWindow
  refine if_pos ?_
  rw [UInt64.lt_iff_toNat_lt, toNat_saturatingSub]
  omega

/-- Once advanced, the window has not ended. -/
theorem lt_advanceWindow_end (nowMs : UInt64) (c : Counter) (hpos : 0 < window.toNat)
    (hlt : window.toNat < 2 ^ 32) :
    nowMs.toNat < (advanceWindow c nowMs window).windowStart.toNat + window.toNat := by
  obtain ⟨heq, h⟩ | ⟨hstart, -, -, -, h⟩ | ⟨heq, -⟩ := advanceWindow_cases nowMs c hpos hlt
  · rw [heq]
    exact h
  · omega
  · rw [heq]
    exact Nat.lt_add_of_pos_right hpos

/-- The current count enters the estimate in full. -/
theorem weighted_curr (c : Counter) (nowMs window : UInt64) (k : UInt32) :
    weighted { c with curr := k } nowMs window + c.curr.toNat =
      weighted c nowMs window + k.toNat := by
  unfold weighted
  dsimp only
  omega

/-- At the start of its window a counter weighs the previous one in full. -/
theorem weighted_start (hpos : 0 < window.toNat) (h : nowMs = c.windowStart) :
    weighted c nowMs window = c.prev.toNat + c.curr.toNat := by
  have hmin : (min (saturatingSub nowMs c.windowStart) window).toNat = 0 := by
    rw [h]
    have hself : saturatingSub c.windowStart c.windowStart = 0 :=
      UInt64.toNat_inj.mp (by rw [toNat_saturatingSub, Nat.sub_self]; rfl)
    rw [hself]
    show (if (0 : UInt64) ≤ window then 0 else window).toNat = 0
    rw [if_pos (UInt64.le_iff_toNat_le.mpr (Nat.zero_le _))]
    rfl
  unfold weighted
  dsimp only
  rw [toNat_saturatingSub, hmin, Nat.sub_zero, Nat.mul_div_cancel _ hpos]

theorem le_saturatingAdd {a b n : UInt64} (h : n.toNat ≤ a.toNat + b.toNat) :
    n.toNat ≤ (saturatingAdd a b).toNat := by
  by_cases hsum : a.toNat + b.toNat < 2 ^ 64
  · rw [toNat_saturatingAdd hsum]
    exact h
  · have htop : (saturatingAdd a b).toNat = 2 ^ 64 - 1 := by
      rw [saturatingAdd, if_neg hsum]
      rfl
    have hn := UInt64.toNat_lt n
    omega

theorem checkCounter_resetMs (limit : UInt32) (window nowMs : UInt64) (c : Counter) :
    (checkCounter limit window nowMs c).1.resetMs =
      saturatingAdd (advanceWindow c nowMs window).windowStart window := by
  unfold checkCounter
  dsimp only
  split
  · rfl
  · rfl

/-- What a check does to a counter whose window has not ended. -/
theorem checkCounter_current (h : nowMs.toNat < c.windowStart.toNat + window.toNat)
    (hpos : 0 < window.toNat) (hmax : limit.toNat < 2 ^ 32 - 1) :
    (weighted c nowMs window < limit.toNat ∧
      (checkCounter limit window nowMs c).1.allowed = true ∧
      (checkCounter limit window nowMs c).1.remaining.toNat =
        limit.toNat - (weighted c nowMs window + 1) ∧
      (checkCounter limit window nowMs c).2.windowStart = c.windowStart ∧
      weighted (checkCounter limit window nowMs c).2 nowMs window =
        weighted c nowMs window + 1) ∨
    (limit.toNat ≤ weighted c nowMs window ∧
      (checkCounter limit window nowMs c).1.allowed = false ∧
      (checkCounter limit window nowMs c).2 = c) := by
  unfold checkCounter
  dsimp only
  rw [advanceWindow_of_lt h hpos]
  split
  · next hlt =>
    have hcurr : c.curr.toNat < limit.toNat := Nat.lt_of_le_of_lt (Nat.le_add_left ..) hlt
    have hadd : (saturatingAdd32 c.curr 1).toNat = c.curr.toNat + 1 :=
      toNat_saturatingAdd32 (b := 1) (by show _ + 1 < _; omega)
    have hweighted := weighted_curr c nowMs window (saturatingAdd32 c.curr 1)
    refine .inl ⟨hlt, rfl, UInt32.toNat_ofNat_of_lt' (by show _ < 2 ^ 32; omega), rfl, ?_⟩
    dsimp only
    omega
  · next hge => exact .inr ⟨Nat.le_of_not_lt hge, rfl, rfl⟩

end

namespace KeyedRateLimiter

variable {M : Type → Type → Nat → Type} [LruMap M] {l : KeyedRateLimiter M} {key nowMs : UInt64}

/-! ## How many requests remain -/

/-- The limiter after one more check of the key at the same time. -/
def again (key nowMs : UInt64) (l : KeyedRateLimiter M) : KeyedRateLimiter M := (l.checkKey key nowMs).2

@[simp] theorem limit_again : (again key nowMs l).limit = l.limit := limit_checkKey

@[simp] theorem windowMs_again : (again key nowMs l).windowMs = l.windowMs := windowMs_checkKey

/-- The next `r` checks of the key at the time are allowed, and the one after them is denied. -/
def AllowsExactly (l : KeyedRateLimiter M) (key nowMs : UInt64) (r : Nat) : Prop :=
  (∀ i < r, (((again key nowMs)^[i] l).checkKey key nowMs).1.allowed = true) ∧
    (((again key nowMs)^[r] l).checkKey key nowMs).1.allowed = false

/-- The counter of the key is in its window, and its estimate is `n`. -/
structure Estimates (l : KeyedRateLimiter M) (key nowMs : UInt64) (n : Nat) : Prop where
  counts : l.Counts
  stored : ∃ c, l.counter? key = some c ∧
    nowMs.toNat < c.windowStart.toNat + l.windowMs.toNat ∧ weighted c nowMs l.windowMs = n

theorem Counts.checkKey (h : l.Counts) : (l.checkKey key nowMs).2.Counts := by
  rw [Counts, limit_checkKey]
  exact h

theorem found_of_counter? {c : Counter} (h : l.counter? key = some c) : l.found key nowMs = c := by
  rw [found, h, Option.getD_some]

/-- A check of a counter: below the limit it is allowed, reports the rest, and adds one. -/
theorem checkKey_estimates (hl : l.Counts) {c : Counter}
    (hout : (l.checkKey key nowMs).1 = (checkCounter l.limit l.windowMs nowMs c).1)
    (hstored : (l.checkKey key nowMs).2.counter? key =
      some (checkCounter l.limit l.windowMs nowMs c).2)
    (hc : nowMs.toNat < c.windowStart.toNat + l.windowMs.toNat) :
    (weighted c nowMs l.windowMs < l.limit.toNat ∧
      (l.checkKey key nowMs).1.allowed = true ∧
      (l.checkKey key nowMs).1.remaining.toNat =
        l.limit.toNat - (weighted c nowMs l.windowMs + 1) ∧
      (again key nowMs l).Estimates key nowMs (weighted c nowMs l.windowMs + 1)) ∨
    (l.limit.toNat ≤ weighted c nowMs l.windowMs ∧
      (l.checkKey key nowMs).1.allowed = false) := by
  rw [hout]
  obtain ⟨hlt, hallowed, hremaining, hstart, hweighted⟩ | ⟨hge, hdenied, -⟩ :=
    checkCounter_current hc l.window_pos hl.limit_lt
  · refine .inl ⟨hlt, hallowed, hremaining, hl.checkKey, _, hstored, ?_, ?_⟩
    · rw [hstart, windowMs_again]
      exact hc
    · rw [windowMs_again, hweighted]
  · exact .inr ⟨hge, hdenied⟩

theorem Estimates.allowsExactly {n r : Nat} (h : l.Estimates key nowMs n)
    (hr : n + r = l.limit.toNat) : AllowsExactly l key nowMs r := by
  induction r generalizing l n with
  | zero =>
    obtain ⟨c, hc, hcurrent, hweighted⟩ := h.stored
    obtain ⟨hout, hstored⟩ := checkKey_self key nowMs h.counts
    rw [found_of_counter? hc] at hout hstored
    refine ⟨fun i hi => absurd hi (Nat.not_lt_zero i), ?_⟩
    obtain ⟨hlt, -⟩ | ⟨-, hdenied⟩ := checkKey_estimates h.counts hout hstored hcurrent
    · omega
    · exact hdenied
  | succ r ih =>
    obtain ⟨c, hc, hcurrent, hweighted⟩ := h.stored
    obtain ⟨hout, hstored⟩ := checkKey_self key nowMs h.counts
    rw [found_of_counter? hc] at hout hstored
    obtain ⟨-, hallowed, -, hnext⟩ | ⟨hge, -⟩ :=
      checkKey_estimates h.counts hout hstored hcurrent
    · -- the next check sees the estimate one higher
      have hrest : AllowsExactly (again key nowMs l) key nowMs r := by
        refine ih (hweighted ▸ hnext) ?_
        rw [limit_again]
        omega
      refine ⟨fun i hi => ?_, ?_⟩
      · cases i with
        | zero => exact hallowed
        | succ i =>
          rw [Function.iterate_succ_apply]
          exact hrest.1 i (by omega)
      · rw [Function.iterate_succ_apply]
        exact hrest.2
    · omega

/-- **The count that remains is exact**, for every state of a limiter that is not unlimited: after
an allowed check as many further checks of the key at the same time are allowed as it reports, and
the one after them is denied. -/
theorem remaining_exact (l : KeyedRateLimiter M) (key nowMs : UInt64)
    (hmax : l.limit ≠ UInt32.ofNat (2 ^ 32 - 1))
    (hallowed : (l.checkKey key nowMs).1.allowed = true) :
    AllowsExactly (l.checkKey key nowMs).2 key nowMs (l.checkKey key nowMs).1.remaining.toNat := by
  have hzero : l.limit ≠ 0 := by
    intro hzero
    rw [checkKey, if_pos hzero] at hallowed
    cases hallowed
  have hl : l.Counts := ⟨hzero, hmax⟩
  obtain ⟨hout, hstored⟩ := checkKey_self key nowMs hl
  have hsame := advanceWindow_of_lt
    (lt_advanceWindow_end nowMs (l.found key nowMs) l.window_pos l.window_lt) l.window_pos
  -- the check works on the counter with its window advanced
  have hadvanced : checkCounter l.limit l.windowMs nowMs (l.found key nowMs) =
      checkCounter l.limit l.windowMs nowMs
        (advanceWindow (l.found key nowMs) nowMs l.windowMs) := by
    unfold checkCounter
    rw [hsame]
  rw [hadvanced] at hout hstored
  obtain ⟨hlt, -, hremaining, hnext⟩ | ⟨-, hdenied⟩ := checkKey_estimates hl hout hstored
    (lt_advanceWindow_end nowMs (l.found key nowMs) l.window_pos l.window_lt)
  · refine hnext.allowsExactly ?_
    rw [limit_again, hremaining]
    omega
  · rw [hallowed] at hdenied
    cases hdenied

/-- Two of three admitted: one remains, and then the key is denied. -/
theorem remaining_exact_sample :
    AllowsExactly ((new 3 1000 none : KeyedRateLimiter Lru).checkKey 7 5).2 7 5 2 :=
  remaining_exact (new 3 1000 none) 7 5 (by decide) (by decide +kernel)

/-- The limiter of the largest limit counts nothing: it reports a number of remaining requests and
never denies. -/
theorem remaining_unlimited :
    ¬ ∀ (l : KeyedRateLimiter Lru) (key nowMs : UInt64), (l.checkKey key nowMs).1.allowed = true →
      AllowsExactly (l.checkKey key nowMs).2 key nowMs
        (l.checkKey key nowMs).1.remaining.toNat := by
  intro h
  have hsame : ∀ l : KeyedRateLimiter Lru, l.limit = UInt32.ofNat (2 ^ 32 - 1) →
      (l.checkKey 7 0).1.allowed = true ∧ (l.checkKey 7 0).2 = l := by
    intro l hl
    rw [checkKey, if_neg (by rw [hl]; decide), if_pos hl]
    exact ⟨rfl, rfl⟩
  have hl : (new (UInt32.ofNat (2 ^ 32 - 1)) 1000 none : KeyedRateLimiter Lru).limit =
      UInt32.ofNat (2 ^ 32 - 1) := rfl
  generalize (new (UInt32.ofNat (2 ^ 32 - 1)) 1000 none : KeyedRateLimiter Lru) = l at hl
  obtain ⟨hallowed, hstate⟩ := hsame l hl
  have hdenied := (h l 7 0 hallowed).2
  rw [hstate, Function.iterate_fixed (by rw [again, hstate])] at hdenied
  exact absurd (hallowed.symm.trans hdenied) (by decide)

/-! ## When the window resets -/

/-- `rate.retry_after_ms` of a request that is denied at `nowMs`. -/
def retryAfterMs (nowMs : UInt64) (outcome : RateOutcome) : UInt64 :=
  saturatingSub outcome.resetMs nowMs

/-- The window that ends with the reset is not full. A window that would end after the last point
in time does not end: there its estimate at that point has to be below the limit. -/
def HasRoom (limit : UInt32) (window : UInt64) (c : Counter) : Prop :=
  if c.windowStart.toNat + window.toNat < 2 ^ 64 then c.curr.toNat < limit.toNat
  else weighted c (UInt64.ofNat (2 ^ 64 - 1)) window < limit.toNat

/-- A check of a counter at the end of its window. -/
theorem checkCounter_reset {limit : UInt32} {window : UInt64} (c : Counter)
    (hpos : 0 < window.toNat) (hlt : window.toNat < 2 ^ 32) :
    (checkCounter limit window (saturatingAdd c.windowStart window) c).1.allowed = true ↔
      HasRoom limit window c := by
  have hallowed : (checkCounter limit window (saturatingAdd c.windowStart window) c).1.allowed =
      true ↔ weighted (advanceWindow c (saturatingAdd c.windowStart window) window)
        (saturatingAdd c.windowStart window) window < limit.toNat := by
    unfold checkCounter
    dsimp only
    split
    · next h => exact ⟨fun _ => h, fun _ => rfl⟩
    · next h => exact ⟨fun hf => absurd hf (by simp), fun hw => absurd hw h⟩
  rw [hallowed, HasRoom]
  by_cases hsum : c.windowStart.toNat + window.toNat < 2 ^ 64
  · rw [if_pos hsum]
    have hreset := toNat_saturatingAdd hsum
    obtain ⟨-, hbefore⟩ | ⟨hstart, hprev, hcurr, -, -⟩ | ⟨-, hafter⟩ :=
      advanceWindow_cases (saturatingAdd c.windowStart window) c hpos hlt
    · omega
    · -- the window rolls over, and its count is the previous one of a window that starts here
      rw [weighted_start hpos (UInt64.toNat_inj.mp (hreset.trans hstart.symm)), hprev, hcurr]
      rfl
    · omega
  · rw [if_neg hsum]
    have hreset : saturatingAdd c.windowStart window = UInt64.ofNat (2 ^ 64 - 1) := if_neg hsum
    have hstart := UInt64.toNat_lt c.windowStart
    have htop : (UInt64.ofNat (2 ^ 64 - 1)).toNat = 2 ^ 64 - 1 := rfl
    rw [hreset, advanceWindow_of_lt (by omega) hpos]

/-- **When a denied check comes back**, for every state: at the reset time it is allowed if and only
if the limiter admits anything and the window that ends then is not full. The reset time is
`retry_after_ms` from now. -/
theorem reset_allowed_iff (l : KeyedRateLimiter M) (key nowMs : UInt64)
    (hdenied : (l.checkKey key nowMs).1.allowed = false) :
    (((l.checkKey key nowMs).2.checkKey key (l.checkKey key nowMs).1.resetMs).1.allowed = true ↔
      l.limit ≠ 0 ∧
        HasRoom l.limit l.windowMs (advanceWindow (l.found key nowMs) nowMs l.windowMs)) ∧
    nowMs.toNat + (retryAfterMs nowMs (l.checkKey key nowMs).1).toNat =
      (l.checkKey key nowMs).1.resetMs.toNat := by
  have hmax : l.limit ≠ UInt32.ofNat (2 ^ 32 - 1) := by
    intro hmax
    rw [checkKey, if_neg (by rw [hmax]; decide), if_pos hmax] at hdenied
    cases hdenied
  rw [retryAfterMs, toNat_saturatingSub]
  by_cases hzero : l.limit = 0
  · have hcheck : ∀ t, l.checkKey key t =
        ({ allowed := false, remaining := 0, resetMs := saturatingAdd t l.windowMs }, l) := by
      intro t
      rw [checkKey, if_pos hzero]
    have hreset := le_saturatingAdd (Nat.le_add_right nowMs.toNat l.windowMs.toNat)
    rw [hcheck nowMs]
    dsimp only
    rw [hcheck]
    exact ⟨⟨fun hf => absurd hf (by simp), fun h => absurd hzero h.1⟩, by omega⟩
  · have hl : l.Counts := ⟨hzero, hmax⟩
    obtain ⟨hout, hstored⟩ := checkKey_self key nowMs hl
    have hend := lt_advanceWindow_end nowMs (l.found key nowMs) l.window_pos l.window_lt
    have hreset := le_saturatingAdd hend.le
    -- the denial leaves the counter with its window advanced
    have hcounter : (checkCounter l.limit l.windowMs nowMs (l.found key nowMs)).2 =
        advanceWindow (l.found key nowMs) nowMs l.windowMs := by
      rw [hout] at hdenied
      obtain ⟨hallowed, -⟩ | ⟨-, hc⟩ :=
        checkCounter_cases nowMs (l.found key nowMs) l.windowMs hl.limit_lt
      · rw [hallowed] at hdenied
        cases hdenied
      · exact hc
    rw [hcounter] at hstored
    rw [hout, checkCounter_resetMs]
    refine ⟨?_, by omega⟩
    have hnext : (l.checkKey key nowMs).2.Counts := hl.checkKey
    obtain ⟨hagain, -⟩ := checkKey_self key
      (saturatingAdd (advanceWindow (l.found key nowMs) nowMs l.windowMs).windowStart l.windowMs)
      hnext
    rw [hagain, found_of_counter? hstored, limit_checkKey, windowMs_checkKey,
      checkCounter_reset _ l.window_pos l.window_lt]
    exact ⟨fun h => ⟨hzero, h⟩, fun h => h.2⟩

/-- Two requests of the window before weigh against a third. When the window of the third ends, it
is they that no longer count. -/
theorem reset_allowed_sample :
    let l : KeyedRateLimiter Lru := (((new 2 1000 none).checkKey 7 0).2.checkKey 7 1).2
    ((l.checkKey 7 1000).2.checkKey 7 (l.checkKey 7 1000).1.resetMs).1.allowed = true :=
  (reset_allowed_iff (((new 2 1000 none : KeyedRateLimiter Lru).checkKey 7 0).2.checkKey 7 1).2 7 1000
    (by decide +kernel)).1.mpr ⟨by decide, by unfold HasRoom; decide +kernel⟩

/-- A limit of one: the first request is admitted, the second is told to come back when the window
ends, and is denied then. -/
theorem denied_at_reset :
    ¬ ∀ (l : KeyedRateLimiter Lru) (key nowMs : UInt64), (l.checkKey key nowMs).1.allowed = false →
      ((l.checkKey key nowMs).2.checkKey key (l.checkKey key nowMs).1.resetMs).1.allowed = true := by
  intro h
  have hagain := h ((new 1 1000 none).checkKey 7 0).2 7 1 (by decide +kernel)
  exact absurd hagain (by decide +kernel)

end KeyedRateLimiter

end Castrum
