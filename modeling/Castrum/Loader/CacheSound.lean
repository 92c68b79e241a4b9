import Castrum.Loader.Settle

/-!
# Castrum — what a load finds in the cache (`loadOne`, `maybeCache`, `src/loader/index.ts`)

A cache entry is written by a load made with caching, under the key of that load: the op, a NUL and
either the key it was given or the decimal hash of its input. A load without a key finds what any
load with the same key has written. Ops never share a key, but a given key can be the decimal hash
of another input, and two inputs can have the same hash.

* `Written` — an entry is the value of the op on the input of a load with that key;
* `FromKey` — a load gets the value of its own input, or one written under its key;
* `load_cache_sound` — a load without a key gets the value of its own input, unless a load with the
  same key computes another value.
-/

namespace Castrum.Loader

section

variable {V E : Type} {apply : LoaderOpName → Bytes → V}

theorem Call.cacheKey_inj {call call' : Call} :
    call'.cacheKey = call.cacheKey ↔ call'.op = call.op ∧
      call'.key.getD (defaultRaw call'.input) = call.key.getD (defaultRaw call.input) :=
  Loader.cacheKey_inj

/-- The value is that of a load made with caching under the key. -/
def Written (apply : LoaderOpName → Bytes → V) (calls : List Call) (k : String) (v : V) : Prop :=
  ∃ call ∈ calls, call.caching = true ∧ call.cacheKey = k ∧ v = apply call.op call.input

/-- A resolved promise has the value of its own input or, with caching, one written under its
key. -/
def FromKey (apply : LoaderOpName → Bytes → V) (calls : List Call) (p : Nat)
    (out : Outcome V E) : Prop :=
  ∃ call, calls[p]? = some call ∧ ∀ v, out = .resolved v →
    v = apply call.op call.input ∨ call.caching = true ∧ Written apply calls call.cacheKey v

theorem Written.append {calls : List Call} {k : String} {v : V} (h : Written apply calls k v)
    (more : List Call) : Written apply (calls ++ more) k v := by
  obtain ⟨call, hmem, hfacts⟩ := h
  exact ⟨call, List.mem_append_left more hmem, hfacts⟩

theorem FromKey.append {calls : List Call} {p : Nat} {out : Outcome V E}
    (h : FromKey apply calls p out) (more : List Call) : FromKey apply (calls ++ more) p out := by
  obtain ⟨call, hcall, hvalue⟩ := h
  refine ⟨call, getElem?_append_some hcall more, fun v hv => ?_⟩
  exact (hvalue v hv).imp_right fun hw => ⟨hw.1, hw.2.append more⟩

/-- Every load keeps both: what it computes is the value of its own input, and what it writes and
finds stands under its own key. -/
theorem FromKey.answering (apply : LoaderOpName → Bytes → V) :
    Answering apply (FromKey apply : List Call → Nat → Outcome V E → Prop) (Written apply) where
  later := fun _ more _ _ h => h.append more
  kept := fun _ more _ _ h => h.append more
  refused := fun _ _ call hcall _ => ⟨call, hcall, fun v hv => by cases hv⟩
  hit := by
    intro calls p call hcall hcaching v hwritten
    refine ⟨call, hcall, fun v' hv => ?_⟩
    cases hv
    exact .inr ⟨hcaching, hwritten⟩
  computed := by
    intro calls p call hcall
    refine ⟨call, hcall, fun v hv => ?_⟩
    cases hv
    exact .inl rfl
  written := fun _ _ call hcall hcaching =>
    ⟨call, List.mem_of_getElem? hcall, hcaching, rfl, rfl⟩
  thrown := fun _ _ call hcall _ _ => ⟨call, hcall, fun v hv => by cases hv⟩

/-- **What a load resolves to**, in every run: the value of its own input, or of the input of a load
made with caching that has the same cache key. -/
theorem State.fromKey_of_run {options : LoaderOptions} {s : State V E}
    (hrun : Run State.step (fun _ a => a.Faithful apply) (State.init options) s) {p : Nat}
    {out : Outcome V E} (hout : s.outcome p = some out) : FromKey apply s.calls p out := by
  have hany : RejectsAny (FromKey apply : List Call → Nat → Outcome V E → Prop) :=
    fun calls p call hcall t => ⟨call, hcall, fun v hv => by cases hv⟩
  have hs : Answered (FromKey apply) (Written apply) s :=
    hrun.invariant (.init options) fun t a u ht ha hstep =>
      (ht.step (FromKey.answering apply) ha (.inr hany) hstep).1
  exact hs.sound.outcomes p out hout

/-- **The cache is sound for a load without a key**, in every run: it resolves to the value of its
own input, if every load made with caching whose cache key is the same computes that value. -/
theorem load_cache_sound (apply : LoaderOpName → Bytes → V) (options : LoaderOptions)
    {s : State V E} (hrun : Run State.step (fun _ a => a.Faithful apply) (State.init options) s)
    {p : Nat} {call : Call} {v : V} (hcall : s.calls[p]? = some call) (hkey : call.key = none)
    (hv : s.outcome p = some (.resolved v))
    (hsame : call.caching = true → ∀ call' ∈ s.calls, call'.caching = true → call'.op = call.op →
      call'.key.getD (defaultRaw call'.input) = defaultRaw call.input →
        apply call.op call'.input = apply call.op call.input) :
    v = apply call.op call.input := by
  obtain ⟨call₀, hcall₀, hvalue⟩ := State.fromKey_of_run hrun hv
  obtain rfl : call₀ = call := Option.some.inj (hcall₀.symm.trans hcall)
  rcases hvalue v rfl with hown | ⟨hon, call', hmem, hcaching, hkeys, rfl⟩
  · exact hown
  · -- a value found in the cache was written under the same key
    obtain ⟨hop, hraw⟩ := Call.cacheKey_inj.mp hkeys
    rw [hkey] at hraw
    rw [hop]
    exact hsame hon call' hmem hcaching hop hraw

end

/-- A load finds what an earlier one of the same input has written, next to an entry under a given
key. -/
theorem load_cache_sound_hit :
    ∃ s : State Nat Unit, s.cache.lru.entries.length = 2 ∧ s.queue = [] ∧
      s.outcome 2 = some (.resolved 1) ∧ 1 = [(7 : UInt8)].length := by
  obtain ⟨s, hrun, hcalls, hlength, hqueue, hout⟩ : ∃ s : State Nat Unit,
      Run State.step (fun _ a => a.Faithful fun _ x => x.length)
          (State.init ⟨2, 256, true, .auto⟩) s ∧
        s.calls = [⟨.hexEncode, [7], none, true⟩, ⟨.hexEncode, [1, 2], some "pair", true⟩,
          ⟨.hexEncode, [7], none, true⟩] ∧
        s.cache.lru.entries.length = 2 ∧ s.queue = [] ∧ s.outcome 2 = some (.resolved 1) :=
    ⟨_, .tail (.tail (.tail (.tail .refl
      trivial (a := .load .hexEncode [7] ⟨none, none⟩) rfl)
      trivial (a := .load .hexEncode [1, 2] ⟨some "pair", none⟩) rfl)
      lengthNatives_faithful (a := .microtask lengthNatives) rfl)
      trivial (a := .load .hexEncode [7] ⟨none, none⟩) rfl, rfl, rfl, rfl, rfl⟩
  have hcall : s.calls[2]? = some ⟨.hexEncode, [7], none, true⟩ := by
    rw [hcalls]
    rfl
  refine ⟨s, hlength, hqueue, hout, load_cache_sound _ _ hrun hcall rfl hout ?_⟩
  intro _ call' hmem _ _ hraw
  rw [hcalls] at hmem
  simp only [List.mem_cons, List.not_mem_nil, or_false] at hmem
  rcases hmem with rfl | rfl | rfl
  · rfl
  · -- the given key is not a decimal number
    exact absurd hraw (by decide)
  · rfl

/-- The hash of the empty input is given as the key of another input, and the load of the empty one
finds the other's value. -/
theorem load_finds_another :
    ¬ ∀ (apply : LoaderOpName → Bytes → Nat) (options : LoaderOptions) (s : State Nat Unit),
      Run State.step (fun _ a => a.Faithful apply) (State.init options) s →
        ∀ p call v, s.calls[p]? = some call → call.key = none →
          s.outcome p = some (.resolved v) → v = apply call.op call.input := by
  intro h
  have hrun : Run State.step (fun _ a => a.Faithful (fun _ x => x.length))
      (State.init ⟨2, 256, true, .auto⟩ : State Nat Unit) _ :=
    .tail (.tail (.tail .refl trivial
      (a := .load .hexEncode [1] ⟨some (defaultRaw []), none⟩) rfl)
      lengthNatives_faithful (a := .microtask lengthNatives) rfl)
      trivial (a := .load .hexEncode [] ⟨none, none⟩) rfl
  exact absurd (h _ _ _ hrun 1 _ _ rfl rfl rfl) (by decide)

end Castrum.Loader
