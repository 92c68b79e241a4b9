import Castrum.Json.Escape

/-!
# Castrum — form components (`rust/util/bytes.rs`)

`+` is a space and `%XX` a byte. A component with a malformed escape, or one that decodes to
something that is not UTF-8, is answered raw, as `decodeURIComponent` in a `try` with the raw
component in the `catch` would.

* `percentDecode` / `formDecode` — the decoding, byte by byte;
* `decodeFormFrom_spec` — the run-copying loop against it, whatever the room;
* `decodeFormComponentInto_eq` — the decoder writes `formDecode` or reports that it does not fit;
* `decodeFormComponentScratch_fst` — with a buffer of its own it always fits.
-/

namespace Castrum

/-! ## The source functions -/

inductive FormDecodeError where
  | malformed
  | bufferTooSmall
  deriving DecidableEq, Repr

/-- `memchr2(b'+', b'%', ..)`. -/
def isFormSpecial (b : UInt8) : Bool := b = 43 || b = 37

def memchr2 (bytes : Bytes) : Option Nat := bytes.findIdx? isFormSpecial

/-- The byte of the `%XX` at `src[i..]`, and the index behind it. -/
def decodePercentAt (src : Bytes) (i : Nat) : Option (UInt8 × Nat) :=
  if src.length ≤ i + 2 then none
  else do
    let hi ← hexVal (src.getD (i + 1) 0)
    let lo ← hexVal (src.getD (i + 2) 0)
    return ((hi <<< 4) ||| lo, i + 3)

/-- The `+` or `%XX` at `src[i..]`. -/
def decodeSpecialAt (src : Bytes) (i : Nat) : Option (UInt8 × Nat) :=
  if src.getD i 0 = 43 then some (32, i + 1) else decodePercentAt src i

def anyHigh (run : Bytes) : Bool := run.any (0x80 ≤ ·)

/-- The loop of `decode_form_core`, on what is left of the component. -/
def decodeFormFrom :
    Nat → Bytes → Out UInt8 → Bool → Except FormDecodeError (Out UInt8 × Bool)
  | 0, _, out, sawHigh => .ok (out, sawHigh)
  | n + 1, rest, out, sawHigh =>
    if rest = [] then .ok (out, sawHigh)
    else
      match memchr2 rest with
      | some rel =>
        match out.put (rest.take rel) with
        | none => .error .bufferTooSmall
        | some out =>
          match decodeSpecialAt rest rel with
          | none => .error .malformed
          | some (b, next) =>
            match out.put [b] with
            | none => .error .bufferTooSmall
            | some out =>
              decodeFormFrom n (rest.drop next) out
                (sawHigh || anyHigh (rest.take rel) || anyHigh [b])
      | none =>
        match out.put rest with
        | none => .error .bufferTooSmall
        | some out => .ok (out, sawHigh || anyHigh rest)

def decodeFormCore (src out : Bytes) : Except FormDecodeError (Out UInt8) :=
  if (memchr2 src).isNone then orFail .bufferTooSmall ((Out.new out).put src)
  else
    match decodeFormFrom src.length src (Out.new out) false with
    | .error e => .error e
    | .ok (out, sawHigh) =>
      if sawHigh = true ∧ validUtf8 out.written = false then .error .malformed else .ok out

def writeRawComponent (src out : Bytes) : Except FormDecodeError (Out UInt8) :=
  orFail .bufferTooSmall ((Out.new out).put src)

/-- The raw component overwrites whatever the decoder has left: it is at least as long. -/
def decodeFormComponentInto (src out : Bytes) : Except FormDecodeError (Out UInt8) :=
  match decodeFormCore src out with
  | .ok out => .ok out
  | .error .malformed => writeRawComponent src out
  | .error e => .error e

/-- The decoded component, and the scratch buffer behind it. -/
def decodeFormComponentScratch (src scratch : Bytes) : Bytes × Bytes :=
  if (memchr2 src).isNone then (src, scratch)
  else
    let scratch :=
      if scratch.length < src.length then
        scratch ++ List.replicate (src.length - scratch.length) 0
      else scratch
    match decodeFormComponentInto src scratch with
    | .ok part => (part.written, part.bytes)
    | .error _ => (src, scratch)

/-! ## The decoding -/

/-- `decodeURIComponent` on bytes, less its UTF-8 check: `none` for a malformed escape. -/
def percentDecode : Bytes → Option Bytes
  | [] => some []
  | b :: r =>
    if b = 43 then (percentDecode r).map (32 :: ·)
    else if b = 37 then
      match r with
      | h :: l :: r' => do
        let hi ← hexVal h
        let lo ← hexVal l
        let d ← percentDecode r'
        return ((hi <<< 4) ||| lo) :: d
      | _ => none
    else (percentDecode r).map (b :: ·)

/-- The value of a form component. -/
def formDecode (src : Bytes) : Bytes :=
  if src.any isFormSpecial = false then src
  else
    match percentDecode src with
    | some d => if validUtf8 d = true then d else src
    | none => src

theorem percentDecode_length_le (src : Bytes) :
    ∀ d, percentDecode src = some d → d.length ≤ src.length := by
  fun_induction percentDecode src with
  | case1 =>
    rintro _ ⟨⟩
    exact Nat.le_refl _
  | case2 r ih =>
    intro d h
    obtain ⟨d', hd', rfl⟩ := Option.map_eq_some_iff.mp h
    exact Nat.succ_le_succ (ih d' hd')
  | case3 h l r' _ ih =>
    intro d hd
    obtain ⟨hi, -, hd⟩ := Option.bind_eq_some_iff.mp hd
    obtain ⟨lo, -, hd⟩ := Option.bind_eq_some_iff.mp hd
    obtain ⟨d', hd', hd⟩ := Option.bind_eq_some_iff.mp hd
    obtain rfl := Option.some.inj hd
    have := ih d' hd'
    simp only [List.length_cons]
    omega
  | case4 => nofun
  | case5 b r _ _ ih =>
    intro d h
    obtain ⟨d', hd', rfl⟩ := Option.map_eq_some_iff.mp h
    exact Nat.succ_le_succ (ih d' hd')

theorem formDecode_length_le (src : Bytes) : (formDecode src).length ≤ src.length := by
  unfold formDecode
  split
  · exact Nat.le_refl _
  · split
    · next d hd =>
      split
      · exact percentDecode_length_le src d hd
      · exact Nat.le_refl _
    · exact Nat.le_refl _

/-- A run without specials is decoded to itself. -/
theorem percentDecode_run {run : Bytes} (h : ∀ b ∈ run, isFormSpecial b = false) (rest : Bytes) :
    percentDecode (run ++ rest) = (percentDecode rest).map (run ++ ·) := by
  induction run with
  | nil => simp
  | cons b run ih =>
    have hb := h b List.mem_cons_self
    simp only [isFormSpecial, Bool.or_eq_false_iff, decide_eq_false_iff_not] at hb
    rw [List.cons_append]
    conv_lhs => unfold percentDecode
    rw [if_neg hb.1, if_neg hb.2, ih fun x hx => h x (List.mem_cons_of_mem _ hx), Option.map_map]
    rfl

/-- The escape behind a run. -/
theorem decodePercentAt_append (run : Bytes) (c h l : UInt8) (r : Bytes) :
    decodePercentAt (run ++ c :: h :: l :: r) run.length =
      (hexVal h).bind fun hi => (hexVal l).map fun lo => ((hi <<< 4) ||| lo, run.length + 3) := by
  unfold decodePercentAt
  rw [if_neg (by simp only [List.length_append, List.length_cons]; omega)]
  simp only [List.getD_eq_getElem?_getD, List.getElem?_append_right (Nat.le_add_right _ _),
    Nat.add_sub_cancel_left, List.getElem?_cons_succ, List.getElem?_cons_zero, Option.getD_some]
  cases hexVal h with
  | none => rfl
  | some hi => cases hexVal l <;> rfl

/-- An escape needs two bytes behind the percent sign. -/
theorem decodePercentAt_short (run : Bytes) {tail : Bytes} (h : tail.length ≤ 2) :
    decodePercentAt (run ++ tail) run.length = none := by
  unfold decodePercentAt
  rw [List.length_append]
  exact if_pos (by omega)

/-- A special at the head of the rest, by what `decode_form_core` makes of it. -/
theorem percentDecode_special {c : UInt8} (hc : isFormSpecial c = true) (run tail : Bytes) :
    percentDecode (c :: tail) =
      (decodeSpecialAt (run ++ c :: tail) run.length).bind fun r =>
        (percentDecode ((run ++ c :: tail).drop r.2)).map (r.1 :: ·) := by
  have hget : (run ++ c :: tail).getD run.length 0 = c := by
    simp [List.getD_eq_getElem?_getD]
  have hdrop : ∀ j, (run ++ c :: tail).drop (run.length + j) = (c :: tail).drop j := by
    intro j
    rw [List.drop_append]
    simp
  unfold decodeSpecialAt
  conv_lhs => unfold percentDecode
  rw [hget]
  by_cases hplus : c = 43
  · rw [if_pos hplus, if_pos hplus, Option.bind_some, hdrop 1]
    rfl
  · -- a special that is no plus is a percent sign, with up to two digits behind it
    have hpct : c = 37 := by
      simp only [isFormSpecial, Bool.or_eq_true, decide_eq_true_eq] at hc
      exact hc.resolve_left hplus
    rw [if_neg hplus, if_neg hplus, if_pos hpct]
    match tail with
    | [] => rw [decodePercentAt_short run (by simp)]; rfl
    | [_] => rw [decodePercentAt_short run (by simp)]; rfl
    | h :: l :: r' =>
      rw [decodePercentAt_append]
      dsimp only
      cases hexVal h with
      | none => rfl
      | some hi =>
        cases hexVal l with
        | none => rfl
        | some lo =>
          simp only [Option.bind_eq_bind, Option.bind_some, Option.map_some, Option.pure_def, hdrop 3,
            List.drop_succ_cons, List.drop_zero]
          cases percentDecode r' <;> rfl

/-- The rest up to its first special, the special, and what is behind it. -/
theorem percentDecode_cut {rest : Bytes} {k : Nat} (hk : memchr2 rest = some k) :
    percentDecode rest = ((decodeSpecialAt rest k).bind fun r =>
      (percentDecode (rest.drop r.2)).map (r.1 :: ·)).map (rest.take k ++ ·) := by
  obtain ⟨c, hc, hbefore, hcut, hlt⟩ := findIdx?_eq_some_cut hk
  have hspecial := percentDecode_special hc (rest.take k) (rest.drop (k + 1))
  rw [← hcut, List.length_take_of_le (Nat.le_of_lt hlt)] at hspecial
  conv_lhs => rw [hcut]
  rw [percentDecode_run hbefore, hspecial]

theorem percentDecode_plain {rest : Bytes} (hk : memchr2 rest = none) :
    percentDecode rest = some rest := by
  have := percentDecode_run (List.findIdx?_eq_none_iff.mp hk) []
  simpa [percentDecode] using this

theorem decodeSpecialAt_bounds {src : Bytes} {i next : Nat} {b : UInt8} (hi : i < src.length)
    (h : decodeSpecialAt src i = some (b, next)) : i < next ∧ next ≤ src.length := by
  unfold decodeSpecialAt at h
  split at h
  · obtain ⟨-, rfl⟩ := Prod.mk.inj (Option.some.inj h)
    omega
  · unfold decodePercentAt at h
    split at h
    · nomatch h
    · obtain ⟨hi', -, h⟩ := Option.bind_eq_some_iff.mp h
      obtain ⟨lo, -, h⟩ := Option.bind_eq_some_iff.mp h
      obtain ⟨-, rfl⟩ := Prod.mk.inj (Option.some.inj h)
      omega

theorem anyHigh_append (p q : Bytes) : anyHigh (p ++ q) = (anyHigh p || anyHigh q) :=
  List.any_append

/-- The validation is paid for high bytes only: without them the text is ASCII. -/
theorem high_invalid_iff (d : Bytes) :
    (anyHigh d = true ∧ validUtf8 d = false) ↔ validUtf8 d = false := by
  refine and_iff_right_of_imp ?_
  intro hbad
  by_contra hlow
  rw [validUtf8_ascii] at hbad
  · nomatch hbad
  · intro b hb
    rw [anyHigh, List.any_eq_true] at hlow
    by_contra hge
    exact hlow ⟨b, hb, by simpa using hge⟩

/-! ## The loop -/

/-- What the loop makes of the rest, in either case of the decoding. A malformed escape may go
unseen only if even the raw component would not fit. -/
structure LoopSpec (rest : Bytes) (out : Out UInt8) (sawHigh : Bool)
    (r : Except FormDecodeError (Out UInt8 × Bool)) : Prop where
  decoded : ∀ d, percentDecode rest = some d →
    r = (orFail .bufferTooSmall (out.put d)).map fun out' => (out', sawHigh || anyHigh d)
  malformed : percentDecode rest = none →
    r = .error .malformed ∨ (r = .error .bufferTooSmall ∧ out.room.length < rest.length)

/-- A run that does not fit: neither would the decoding, nor the raw component. -/
theorem LoopSpec.of_full {rest w : Bytes} {out : Out UInt8} {sawHigh : Bool}
    (hfull : out.put w = none) (hraw : w.length ≤ rest.length)
    (hpre : ∀ d, percentDecode rest = some d → w.length ≤ d.length) :
    LoopSpec rest out sawHigh (.error .bufferTooSmall) := by
  have hroom : out.room.length < w.length := by
    by_contra hle
    rw [Out.put_of_le (Nat.le_of_not_lt hle)] at hfull
    nomatch hfull
  refine ⟨?_, fun _ => .inr ⟨rfl, by omega⟩⟩
  intro d hd
  have hle := hpre d hd
  rw [Out.put_of_lt (by omega)]
  rfl

theorem decodeFormFrom_spec {n : Nat} {rest : Bytes} (h : rest.length ≤ n) (out : Out UInt8)
    (sawHigh : Bool) : LoopSpec rest out sawHigh (decodeFormFrom n rest out sawHigh) := by
  have empty : ∀ {out : Out UInt8} {sawHigh : Bool}, LoopSpec [] out sawHigh (.ok (out, sawHigh)) := by
    intro out sawHigh
    refine ⟨?_, nofun⟩
    rintro _ ⟨⟩
    simp [Except.map, anyHigh]
  induction n generalizing rest out sawHigh with
  | zero =>
    rw [List.eq_nil_of_length_eq_zero (Nat.le_zero.mp h)]
    exact empty
  | succ n ih =>
    rw [decodeFormFrom]
    by_cases hnil : rest = []
    · rw [if_pos hnil, hnil]
      exact empty
    rw [if_neg hnil]
    split
    · next k hk =>
      obtain ⟨c, hc, hbefore, hcut, hlt⟩ := findIdx?_eq_some_cut hk
      have hlen : (rest.take k).length = k := List.length_take_of_le (Nat.le_of_lt hlt)
      have hdecode := percentDecode_cut hk
      -- whatever is decoded begins with the run in front of the special byte
      have hrun : ∀ d, percentDecode rest = some d → (rest.take k).length ≤ d.length := by
        intro d hd
        rw [hdecode] at hd
        obtain ⟨d', -, rfl⟩ := Option.map_eq_some_iff.mp hd
        rw [List.length_append]
        omega
      split
      · next hfull => exact .of_full hfull (List.length_take_le' ..) hrun
      · next out₁ hout₁ =>
        split
        · next hbad =>
          rw [hbad] at hdecode
          refine ⟨?_, fun _ => .inl rfl⟩
          intro d hd
          nomatch hdecode.symm.trans hd
        · next b next hnext =>
          obtain ⟨hlow, hhigh⟩ := decodeSpecialAt_bounds hlt hnext
          rw [hnext, Option.bind_some, Option.map_map] at hdecode
          have htwo : ∀ w, (out₁.put w) = out.put (rest.take k ++ w) := by
            intro w
            rw [← Out.put_put, hout₁, Option.bind_some]
          split
          · next hfull =>
            rw [htwo] at hfull
            refine .of_full hfull ?_ ?_
            · rw [List.length_append, hlen, List.length_singleton]
              omega
            · intro d hd
              rw [hdecode] at hd
              obtain ⟨d', -, rfl⟩ := Option.map_eq_some_iff.mp hd
              simp
          · next out₂ hout₂ =>
            rw [htwo] at hout₂
            have hrest : (rest.drop next).length ≤ n := by
              rw [List.length_drop]
              omega
            -- three puts are one, and the flag has seen them all
            have hih := ih hrest out₂ (sawHigh || anyHigh (rest.take k) || anyHigh [b])
            refine ⟨?_, ?_⟩
            · intro d hd
              rw [hdecode] at hd
              obtain ⟨d', hd', rfl⟩ := Option.map_eq_some_iff.mp hd
              have hput : out₂.put d' = out.put (rest.take k ++ ([b] ++ d')) := by
                rw [← List.append_assoc, ← Out.put_put, hout₂, Option.bind_some]
              rw [hih.decoded d' hd', hput]
              have hhigh : (sawHigh || anyHigh (rest.take k) || anyHigh [b] || anyHigh d') =
                  (sawHigh || anyHigh (rest.take k ++ ([b] ++ d'))) := by
                rw [anyHigh_append, anyHigh_append, Bool.or_assoc, Bool.or_assoc]
              rw [hhigh]
              rfl
            · intro hd
              rw [hdecode] at hd
              have hd' := Option.map_eq_none_iff.mp hd
              obtain hbad | ⟨hsmall, hroom⟩ := hih.malformed hd'
              · exact .inl hbad
              · refine .inr ⟨hsmall, ?_⟩
                obtain ⟨hle, -, hroom₂⟩ := Out.put_eq_some_iff.mp hout₂
                rw [hroom₂, List.length_drop, List.length_drop, List.length_append, hlen,
                  List.length_singleton] at hroom
                omega
    · next hk =>
      have hself := percentDecode_plain hk
      refine ⟨?_, fun hn => nomatch hself.symm.trans hn⟩
      intro d hd
      obtain rfl := Option.some.inj (hself.symm.trans hd)
      cases out.put rest <;> rfl

theorem memchr2_isNone_iff (src : Bytes) :
    (memchr2 src).isNone = true ↔ src.any isFormSpecial = false := by
  rw [memchr2, Option.isNone_iff_eq_none, List.findIdx?_eq_none_iff, List.any_eq_false]
  simp

/-- **The decoder** writes the decoded component, or reports that it does not fit. -/
theorem decodeFormComponentInto_eq (src out : Bytes) :
    decodeFormComponentInto src out =
      orFail .bufferTooSmall ((Out.new out).put (formDecode src)) := by
  unfold decodeFormComponentInto decodeFormCore formDecode writeRawComponent
  have hany := memchr2_isNone_iff src
  by_cases hplain : src.any isFormSpecial = false
  · rw [if_pos (hany.mpr hplain), if_pos hplain]
    cases (Out.new out).put src <;> rfl
  · rw [if_neg (mt hany.mp hplain), if_neg hplain]
    have hspec := decodeFormFrom_spec (Nat.le_refl src.length) (Out.new out) false
    cases hd : percentDecode src with
    | none =>
      -- the raw component is written instead, or would not have fitted either
      obtain hbad | ⟨hsmall, hroom⟩ := hspec.malformed hd
      · rw [hbad]
      · rw [hsmall, Out.put_of_lt hroom]
        rfl
    | some d =>
      rw [hspec.decoded d hd]
      have hle := percentDecode_length_le src d hd
      by_cases hfit : d.length ≤ (Out.new out).room.length
      · rw [Out.put_of_le hfit]
        simp only [orFail_some, Except.map, Bool.false_or, show (Out.new out).written = [] from rfl,
          List.nil_append, high_invalid_iff]
        by_cases hv : validUtf8 d = true
        · rw [if_pos hv, if_neg (by rw [hv]; decide), Out.put_of_le hfit]
          rfl
        · rw [if_neg hv, if_pos (Bool.eq_false_iff.mpr hv)]
      · rw [Out.put_of_lt (Nat.lt_of_not_le hfit)]
        simp only [orFail_none, Except.map]
        split
        · rw [Out.put_of_lt (Nat.lt_of_not_le hfit)]
          rfl
        · rw [Out.put_of_lt (by omega)]
          rfl

/-- The scratch buffer is as long as the component, so the decoder never runs out of it. -/
theorem decodeFormComponentScratch_fst (src scratch : Bytes) :
    (decodeFormComponentScratch src scratch).1 = formDecode src := by
  unfold decodeFormComponentScratch
  by_cases hplain : (memchr2 src).isNone = true
  · rw [if_pos hplain, formDecode, if_pos ((memchr2_isNone_iff src).mp hplain)]
  · rw [if_neg hplain]
    dsimp only
    generalize hbuf : (if scratch.length < src.length then
      scratch ++ List.replicate (src.length - scratch.length) 0 else scratch) = buf
    have hlong : src.length ≤ buf.length := by
      rw [← hbuf]
      split
      · rw [List.length_append, List.length_replicate]
        omega
      · omega
    have hroom : (formDecode src).length ≤ (Out.new buf).room.length :=
      (formDecode_length_le src).trans hlong
    rw [decodeFormComponentInto_eq, Out.put_of_le hroom]
    rfl

end Castrum
