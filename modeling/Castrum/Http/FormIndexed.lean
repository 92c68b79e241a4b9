import Castrum.Http.FormDecode
import Castrum.Lib.Checked

/-!
# Castrum — the form decoder with its indices (`rust/util/bytes.rs`)

`Castrum.decodeFormCore` works on what is left of the component and of the buffer. The source keeps
two indices, `i` and `written`, and every access through them is checked: `src[i]`, `&src[i..]` and
`out[written..].copy_from_slice(..)` panic out of range. The decoder below is that code, one access
after the other, and an error leaves the buffer as it is then.

* `Out.bytes_put` — a write at the position of an `Out` is a write at the index `written`;
* `Indexed.decodeFormFrom_sim` — the loop on indices against the loop on rests;
* `Indexed.decodeFormComponentInto_eq` — the decoder on indices, whatever the buffer: no access is
  out of range, and a component that fits in raw is decoded over the start of the buffer.
-/

namespace Castrum

theorem Out.bytes_put {o o' : Out UInt8} {w : Bytes} (h : o.put w = some o') :
    o'.bytes = placed o.bytes o.pos w ∧ o'.pos = o.pos + w.length := by
  obtain ⟨-, hwritten, hroom⟩ := Out.put_eq_some_iff.mp h
  refine ⟨?_, ?_⟩
  · rw [Out.bytes, hwritten, hroom, placed, Out.bytes, Out.pos, List.take_left, List.append_assoc,
      ← List.drop_drop, List.drop_left]
  · rw [Out.pos, hwritten, List.length_append, Out.pos]

theorem Out.length_bytes (o : Out UInt8) : o.bytes.length = o.pos + o.room.length :=
  List.length_append

theorem Out.drop_bytes (o : Out UInt8) (k : Nat) : o.bytes.drop (o.pos + k) = o.room.drop k := by
  rw [Out.bytes, Out.pos, ← List.drop_drop, List.drop_left]

namespace Indexed

/-! ## The source functions -/

/-- `src[i]`. -/
def byteAt {ε : Type} (src : Bytes) (i : Nat) : Except (Failure ε) UInt8 :=
  orFail .panic src[i]?

/-- `out[i..j].copy_from_slice(run)`. -/
def copyFromSlice {ε : Type} (out : Bytes) (i j : Nat) (run : Bytes) : Except (Failure ε) Bytes :=
  if i ≤ j ∧ j ≤ out.length ∧ run.length = j - i then .ok (placed out i run) else .error .panic

def decodePercentAt {ε : Type} (src : Bytes) (i : Nat) :
    Except (Failure ε) (Option (UInt8 × Nat)) :=
  if src.length ≤ i + 2 then .ok none
  else do
    match hexVal (← byteAt src (i + 1)) with
    | none => return none
    | some hi =>
      match hexVal (← byteAt src (i + 2)) with
      | none => return none
      | some lo => return some ((hi <<< 4) ||| lo, i + 3)

/-- The `+` or `%XX` at `src[i]`. -/
def decodeSpecialAt {ε : Type} (src : Bytes) (i : Nat) :
    Except (Failure ε) (Option (UInt8 × Nat)) := do
  if (← byteAt src i) = 43 then return some (32, i + 1) else decodePercentAt src i

/-- What the decoder answers: the number of bytes written, or an error, and the buffer either way. -/
abbrev Answer (α : Type) : Type := Except (Failure (FormDecodeError × Bytes)) α

/-- A run is copied to `out[written..]`, if it fits there. -/
def putRun (out : Bytes) (written : Nat) (run : Bytes) : Answer Bytes :=
  if out.length < written + run.length then .error (.fail (.bufferTooSmall, out))
  else copyFromSlice out written (written + run.length) run

/-- The loop of `decode_form_core`. -/
def decodeFormFrom (src : Bytes) : Nat → Nat → Nat → Bool → Bytes → Answer (Nat × Bytes × Bool)
  | 0, _, written, sawHigh, out => .ok (written, out, sawHigh)
  | fuel + 1, i, written, sawHigh, out =>
    if src.length ≤ i then .ok (written, out, sawHigh)
    else do
      match memchr2 (← sliceOf src i src.length) with
      | some rel =>
        let run ← sliceOf src i (i + rel)
        let out ← putRun out written run
        let written := written + run.length
        match ← decodeSpecialAt src (i + rel) with
        | none => .error (.fail (.malformed, out))
        | some (b, next) =>
          let out ← putRun out written [b]
          decodeFormFrom src fuel next (written + 1) (sawHigh || anyHigh run || anyHigh [b]) out
      | none =>
        let run ← sliceOf src i src.length
        let out ← putRun out written run
        -- `i` is the length of the component now, and the loop ends
        return (written + run.length, out, sawHigh || anyHigh run)

def writeRawComponent (src out : Bytes) : Answer (Nat × Bytes) := do
  return (src.length, ← putRun out 0 src)

def decodeFormCore (src out : Bytes) : Answer (Nat × Bytes) :=
  if (memchr2 src).isNone then writeRawComponent src out
  else do
    let (written, out, sawHigh) ← decodeFormFrom src src.length 0 0 false out
    let text ← sliceOf out 0 written
    if sawHigh = true ∧ validUtf8 text = false then .error (.fail (.malformed, out))
    else return (written, out)

def decodeFormComponentInto (src out : Bytes) : Answer (Nat × Bytes) :=
  match decodeFormCore src out with
  | .ok r => .ok r
  | .error (.fail (.malformed, out)) => writeRawComponent src out
  | .error e => .error e

/-- The decoded component, and the scratch buffer behind it. -/
def decodeFormComponentScratch (src scratch : Bytes) : Answer (Bytes × Bytes) :=
  if (memchr2 src).isNone then .ok (src, scratch)
  else
    let scratch :=
      if scratch.length < src.length then
        scratch ++ List.replicate (src.length - scratch.length) 0
      else scratch
    match decodeFormComponentInto src scratch with
    | .ok (n, scratch) => do return (← sliceOf scratch 0 n, scratch)
    | .error (.fail (_, scratch)) => .ok (src, scratch)
    | .error .panic => .error .panic

/-! ## The accesses -/

variable {ε : Type}

theorem byteAt_of_lt {src : Bytes} {i : Nat} (h : i < src.length) :
    (byteAt src i : Except (Failure ε) UInt8) = .ok (src.getD i 0) := by
  rw [byteAt, List.getD_eq_getElem?_getD, List.getElem?_eq_getElem h]
  rfl

theorem copyFromSlice_of_le {out run : Bytes} {i : Nat} (h : i + run.length ≤ out.length) :
    (copyFromSlice out i (i + run.length) run : Except (Failure ε) Bytes) =
      .ok (placed out i run) :=
  if_pos ⟨Nat.le_add_right .., h, by omega⟩

theorem sliceOf_tail {src : Bytes} {i : Nat} (h : i ≤ src.length) :
    (sliceOf src i src.length : Except (Failure ε) Bytes) = .ok (src.drop i) := by
  rw [sliceOf, if_pos ⟨h, Nat.le_refl _⟩, List.take_length]

theorem sliceOf_run {src : Bytes} {i k : Nat} (h : i + k ≤ src.length) :
    (sliceOf src i (i + k) : Except (Failure ε) Bytes) = .ok ((src.drop i).take k) := by
  rw [sliceOf, if_pos ⟨Nat.le_add_right .., h⟩, List.take_drop]

/-- Both digits are in range where they are read, and they are read from the rest at `i`. -/
theorem decodePercentAt_eq (src : Bytes) (i k : Nat) :
    (decodePercentAt src (i + k) : Except (Failure ε) _) =
      .ok ((Castrum.decodePercentAt (src.drop i) k).map fun r => (r.1, i + r.2)) := by
  have hget : ∀ j, (src.drop i).getD j 0 = src.getD (i + j) 0 := by
    intro j
    rw [List.getD_eq_getElem?_getD, List.getD_eq_getElem?_getD, List.getElem?_drop]
  unfold decodePercentAt Castrum.decodePercentAt
  by_cases hshort : src.length ≤ i + k + 2
  · rw [if_pos hshort, if_pos (by rw [List.length_drop]; omega)]
    rfl
  · rw [if_neg hshort, if_neg (by rw [List.length_drop]; omega), byteAt_of_lt (by omega),
      byteAt_of_lt (by omega), hget, hget]
    simp only [ok_bind, ← Nat.add_assoc]
    cases hexVal (src.getD (i + k + 1) 0) with
    | none => rfl
    | some hi =>
      cases hexVal (src.getD (i + k + 2) 0) with
      | none => rfl
      | some lo => rfl

theorem decodeSpecialAt_eq {src : Bytes} {i k : Nat} (h : i + k < src.length) :
    (decodeSpecialAt src (i + k) : Except (Failure ε) _) =
      .ok ((Castrum.decodeSpecialAt (src.drop i) k).map fun r => (r.1, i + r.2)) := by
  have hget : (src.drop i).getD k 0 = src.getD (i + k) 0 := by
    rw [List.getD_eq_getElem?_getD, List.getD_eq_getElem?_getD, List.getElem?_drop]
  rw [decodeSpecialAt, byteAt_of_lt h, ok_bind, Castrum.decodeSpecialAt, hget]
  split
  · rfl
  · exact decodePercentAt_eq src i k

/-! ## The loop -/

theorem putRun_none {o : Out UInt8} {w : Bytes} (h : o.put w = none) :
    putRun o.bytes o.pos w = .error (.fail (.bufferTooSmall, o.bytes)) := by
  have hlt := Out.put_eq_none_iff.mp h
  rw [putRun, if_pos (by rw [Out.length_bytes]; omega)]

theorem putRun_some {o o' : Out UInt8} {w : Bytes} (h : o.put w = some o') :
    putRun o.bytes o.pos w = .ok o'.bytes := by
  have hle := (Out.put_eq_some_iff.mp h).1
  have hfit : o.pos + w.length ≤ o.bytes.length := by
    rw [Out.length_bytes]
    omega
  rw [putRun, if_neg (Nat.not_lt.mpr hfit), copyFromSlice_of_le hfit, (Out.bytes_put h).1]

/-- A write in front of an index leaves the buffer behind it as it was. -/
theorem bytes_put_frame {o o' : Out UInt8} {w : Bytes} (h : o.put w = some o') {j : Nat}
    (hj : o.pos + w.length ≤ j) :
    o'.bytes.length = o.bytes.length ∧ o'.bytes.drop j = o.bytes.drop j := by
  obtain ⟨hle, hwritten, hroom⟩ := Out.put_eq_some_iff.mp h
  have hpos := (Out.bytes_put h).2
  refine ⟨?_, ?_⟩
  · rw [Out.length_bytes, Out.length_bytes, hpos, hroom, List.length_drop]
    omega
  · obtain ⟨k, rfl⟩ : ∃ k, j = o.pos + w.length + k := ⟨j - (o.pos + w.length), by omega⟩
    have hbefore := o.drop_bytes (w.length + k)
    rw [← Nat.add_assoc] at hbefore
    rw [hbefore, ← hpos, o'.drop_bytes, hroom, List.drop_drop]

/-- The buffer of the loop: nothing is written in front of the index it has read up to. -/
structure Kept (src out : Bytes) (i : Nat) (o : Out UInt8) : Prop where
  pos : o.pos ≤ i
  length : o.bytes.length = out.length
  drop : o.bytes.drop src.length = out.drop src.length

theorem Kept.of_le {src out : Bytes} {i : Nat} {o : Out UInt8} (h : Kept src out i o) {j : Nat}
    (hij : i ≤ j) : Kept src out j o := ⟨h.pos.trans hij, h.length, h.drop⟩

theorem Kept.put {src out w : Bytes} {i j : Nat} {o o' : Out UInt8} (h : Kept src out i o)
    (hput : o.put w = some o') (hj : i + w.length ≤ j) (hsrc : j ≤ src.length) :
    Kept src out j o' := by
  have hpos := h.pos
  obtain ⟨hlength, hdrop⟩ := bytes_put_frame hput (j := src.length) (by omega)
  refine ⟨?_, hlength.trans h.length, hdrop.trans h.drop⟩
  rw [(Out.bytes_put hput).2]
  omega

/-- The loop on indices answers as the loop on rests does. -/
def Answers (src out : Bytes) (r : Answer (Nat × Bytes × Bool)) :
    Except FormDecodeError (Out UInt8 × Bool) → Prop
  | .ok (o, sawHigh) => r = .ok (o.pos, o.bytes, sawHigh) ∧ Kept src out src.length o
  | .error e => ∃ o, r = .error (.fail (e, o.bytes)) ∧ Kept src out src.length o

theorem Kept.fails {src out : Bytes} {i : Nat} {o : Out UInt8} (h : Kept src out i o)
    (hi : i ≤ src.length) (e : FormDecodeError) :
    Answers src out (.error (.fail (e, o.bytes))) (.error e) :=
  ⟨o, rfl, h.of_le hi⟩

/-- **The loop on indices** against the loop on rests, iteration by iteration. -/
theorem decodeFormFrom_sim {src out : Bytes} (n : Nat) {i : Nat} {o : Out UInt8} {sawHigh : Bool}
    (hi : i ≤ src.length) (hkept : Kept src out i o) :
    Answers src out (decodeFormFrom src n i o.pos sawHigh o.bytes)
      (Castrum.decodeFormFrom n (src.drop i) o sawHigh) := by
  induction n generalizing i o sawHigh with
  | zero => exact ⟨rfl, hkept.of_le hi⟩
  | succ n ih =>
    rw [decodeFormFrom, Castrum.decodeFormFrom]
    by_cases hend : src.length ≤ i
    · rw [if_pos hend, if_pos (List.drop_eq_nil_iff.mpr hend)]
      exact ⟨rfl, hkept.of_le hi⟩
    rw [if_neg hend, if_neg (mt List.drop_eq_nil_iff.mp hend), sliceOf_tail hi]
    simp only [ok_bind]
    cases hfind : memchr2 (src.drop i) with
    | none =>
      -- nothing special is left: the rest is one run
      dsimp only
      cases hput : o.put (src.drop i) with
      | none =>
        rw [putRun_none hput]
        exact hkept.fails hi _
      | some o' =>
        rw [putRun_some hput, ← (Out.bytes_put hput).2]
        exact ⟨rfl, hkept.put hput (by rw [List.length_drop]; omega) (Nat.le_refl _)⟩
    | some k =>
      dsimp only
      have hk := (findIdx?_eq_some_cut hfind).choose_spec.2.2.2
      rw [List.length_drop] at hk
      have hrun : ((src.drop i).take k).length = k := by
        rw [List.length_take, List.length_drop]
        omega
      rw [sliceOf_run (by omega), ok_bind]
      cases hput : o.put ((src.drop i).take k) with
      | none =>
        rw [putRun_none hput]
        exact hkept.fails hi _
      | some o₁ =>
        have hkept₁ : Kept src out (i + k) o₁ := hkept.put hput (by omega) (by omega)
        rw [putRun_some hput, ok_bind, ← (Out.bytes_put hput).2, decodeSpecialAt_eq (by omega),
          ok_bind]
        -- behind the run, the special byte: `next` is relative to `i`, and inside the component
        cases hspecial : Castrum.decodeSpecialAt (src.drop i) k with
        | none => exact hkept₁.fails (by omega) _
        | some r =>
          obtain ⟨b, next⟩ := r
          obtain ⟨hlow, hhigh⟩ := decodeSpecialAt_bounds (by rw [List.length_drop]; omega) hspecial
          rw [List.length_drop] at hhigh
          dsimp only [Option.map_some]
          cases hput₂ : o₁.put [b] with
          | none =>
            rw [putRun_none hput₂]
            exact hkept₁.fails (by omega) _
          | some o₂ =>
            have hkept₂ : Kept src out (i + next) o₂ :=
              hkept₁.put hput₂ (by rw [List.length_singleton]; omega) (by omega)
            have hnext : Answers src out (decodeFormFrom src n (i + next) o₂.pos
                (sawHigh || anyHigh ((src.drop i).take k) || anyHigh [b]) o₂.bytes) _ :=
              ih (by omega) hkept₂
            rw [putRun_some hput₂, ok_bind, List.drop_drop]
            rwa [(Out.bytes_put hput₂).2] at hnext

/-! ## The decoder -/

/-- The raw component, over whatever was left in front of it. -/
theorem writeRawComponent_of_le {src out : Bytes} (h : src.length ≤ out.length) :
    writeRawComponent src out = .ok (src.length, src ++ out.drop src.length) := by
  have hput : (Out.new out).put src = some ⟨src, out.drop src.length⟩ := Out.put_of_le h
  exact congrArg (· >>= fun left => Except.ok (src.length, left)) (putRun_some hput)

theorem writeRawComponent_of_lt {src out : Bytes} (h : out.length < src.length) :
    writeRawComponent src out = .error (.fail (.bufferTooSmall, out)) := by
  have hput : (Out.new out).put src = none := Out.put_of_lt h
  exact congrArg (· >>= fun left => Except.ok (src.length, left)) (putRun_none hput)

theorem decodeFormCore_sim (src out : Bytes) :
    (∀ o, Castrum.decodeFormCore src out = .ok o → decodeFormCore src out = .ok (o.pos, o.bytes)) ∧
    (∀ e, Castrum.decodeFormCore src out = .error e → ∃ left,
      decodeFormCore src out = .error (.fail (e, left)) ∧ left.length = out.length ∧
        left.drop src.length = out.drop src.length) := by
  unfold Castrum.decodeFormCore decodeFormCore
  split
  · -- without a special byte the component is written at once
    rcases Nat.lt_or_ge out.length src.length with hlt | hle
    · rw [writeRawComponent_of_lt hlt, Out.put_of_lt hlt]
      constructor
      · intro o ho
        cases ho
      · rintro _ ⟨⟩
        exact ⟨out, rfl, rfl, rfl⟩
    · rw [writeRawComponent_of_le hle, Out.put_of_le hle]
      constructor
      · rintro _ ⟨⟩
        rfl
      · intro e he
        cases he
  · have hkept : Kept src out 0 (Out.new out) := ⟨Nat.le_refl _, rfl, rfl⟩
    have hsim : Answers src out (decodeFormFrom src src.length 0 0 false out) _ :=
      decodeFormFrom_sim src.length (Nat.zero_le _) hkept
    rw [List.drop_zero] at hsim
    cases hloop : Castrum.decodeFormFrom src.length src (Out.new out) false with
    | error e =>
      rw [hloop] at hsim
      obtain ⟨o, hr, hkept⟩ := hsim
      rw [hr]
      constructor
      · intro o ho
        cases ho
      · rintro _ ⟨⟩
        exact ⟨o.bytes, rfl, hkept.length, hkept.drop⟩
    | ok r =>
      obtain ⟨o, sawHigh⟩ := r
      rw [hloop] at hsim
      obtain ⟨hr, hkept⟩ := hsim
      have htext : (sliceOf o.bytes 0 o.pos : Answer Bytes) = .ok o.written := by
        rw [sliceOf, if_pos ⟨Nat.zero_le _, by rw [Out.length_bytes]; omega⟩]
        exact congrArg Except.ok List.take_left
      rw [hr, ok_bind]
      dsimp only
      rw [htext, ok_bind]
      -- only a result with a high byte is checked, and a bad one leaves what was written
      split
      · constructor
        · intro o ho
          cases ho
        · rintro _ ⟨⟩
          exact ⟨o.bytes, rfl, hkept.length, hkept.drop⟩
      · constructor
        · rintro _ ⟨⟩
          rfl
        · intro e he
          cases he

/-- **The decoder on indices**: it never panics, and the component is decoded over the start of a
buffer that has room for what is decoded. -/
theorem decodeFormComponentInto_eq (src out : Bytes) :
    (out.length < (formDecode src).length → ∃ left,
      decodeFormComponentInto src out = .error (.fail (.bufferTooSmall, left))) ∧
    ((formDecode src).length ≤ out.length → decodeFormComponentInto src out =
      .ok ((formDecode src).length, formDecode src ++ out.drop (formDecode src).length)) := by
  have hrests := Castrum.decodeFormComponentInto_eq src out
  obtain ⟨hok, herror⟩ := decodeFormCore_sim src out
  unfold Castrum.decodeFormComponentInto at hrests
  unfold decodeFormComponentInto
  cases hcore : Castrum.decodeFormCore src out with
  | ok o =>
    rw [hcore] at hrests
    rw [hok o hcore]
    obtain ⟨hle, hwritten, hroom⟩ := Out.put_eq_some_iff.mp (orFail_eq_ok_iff.mp hrests.symm)
    refine ⟨fun hlt => absurd hle (Nat.not_le.mpr hlt), fun _ => ?_⟩
    rw [Out.pos, Out.bytes, hwritten, hroom]
    rfl
  | error e =>
    obtain ⟨left, hleft, hlength, hdrop⟩ := herror e hcore
    rw [hcore] at hrests
    rw [hleft]
    cases e with
    | malformed =>
      -- the decoder on rests writes the raw component into the buffer as it was at first
      dsimp only at hrests ⊢
      rw [Castrum.writeRawComponent] at hrests
      rcases Nat.lt_or_ge out.length src.length with hlt | hle
      · have hnone : (Out.new out).put (formDecode src) = none := by
          rw [Out.put_of_lt hlt] at hrests
          exact (orFail_eq_error_iff.mp hrests.symm).1
        have hshort : out.length < (formDecode src).length := Out.put_eq_none_iff.mp hnone
        rw [writeRawComponent_of_lt (hlength ▸ hlt)]
        exact ⟨fun _ => ⟨left, rfl⟩, fun hle => absurd hshort (Nat.not_lt.mpr hle)⟩
      · have hself : src = formDecode src := by
          rw [Out.put_of_le hle] at hrests
          exact (Out.put_eq_some_iff.mp (orFail_eq_ok_iff.mp hrests.symm)).2.1
        rw [writeRawComponent_of_le (hlength ▸ hle), hdrop, ← hself]
        exact ⟨fun hlt => absurd hle (Nat.not_le.mpr hlt), fun _ => rfl⟩
    | bufferTooSmall =>
      have hnone : (Out.new out).put (formDecode src) = none :=
        (orFail_eq_error_iff.mp hrests.symm).1
      have hshort : out.length < (formDecode src).length := Out.put_eq_none_iff.mp hnone
      exact ⟨fun _ => ⟨left, rfl⟩, fun hle => absurd hshort (Nat.not_lt.mpr hle)⟩

/-- The scratch buffer is made as long as the component. -/
theorem decodeFormComponentScratch_eq (src scratch : Bytes) :
    ∃ left, decodeFormComponentScratch src scratch = .ok (formDecode src, left) := by
  unfold decodeFormComponentScratch
  split
  · next hplain =>
    refine ⟨scratch, ?_⟩
    rw [formDecode, if_pos ((memchr2_isNone_iff src).mp hplain)]
  · dsimp only
    generalize hbuf : (if scratch.length < src.length then
      scratch ++ List.replicate (src.length - scratch.length) 0 else scratch) = buf
    have hlong : src.length ≤ buf.length := by
      rw [← hbuf]
      split
      · rw [List.length_append, List.length_replicate]
        omega
      · omega
    have hfit := (formDecode_length_le src).trans hlong
    refine ⟨formDecode src ++ buf.drop (formDecode src).length, ?_⟩
    rw [(decodeFormComponentInto_eq src buf).2 hfit]
    dsimp only
    rw [sliceOf, if_pos ⟨Nat.zero_le _, by rw [List.length_append]; omega⟩, List.take_left]
    rfl

end Indexed

end Castrum
