import Castrum.Json.Patch

/-!
# Castrum — array indices in JSON pointers (`rust/json/patch/ops.rs`)

An array index of a pointer is `0` or digits without a leading zero. The operations read it with
`str::parse::<usize>`, in four places with two ranges, and that takes a sign and leading zeros too.

* `parseUsize_eq_some_iff` — what is read as a number;
* `Access.accepts_iff` — what each operation accepts where it comes to an array;
* `Access.accepts_exact_iff` — when that is what RFC 6902 allows.
-/

namespace Castrum

namespace JsonPatch

open Ascii

/-! ## Indices -/

/-- An array index of RFC 6901 is an integer of JSON without a sign. -/
abbrev IsIndex (token : Bytes) : Prop := IsInt token

/-- What is behind the sign. -/
def behindPlus (token : Bytes) : Bytes := if token.head? = some plus then token.tail else token

/-- A sign, or a leading zero. -/
def OddSpelled (token : Bytes) : Prop :=
  token.head? = some plus ∨ token.head? = some zero ∧ token ≠ [zero]

theorem parseUsize_eq_some_iff {token : Bytes} {i : Nat} : parseUsize token = some i ↔
    IsDigits (behindPlus token) ∧ readDigits (behindPlus token) = i ∧ i < 2 ^ 64 := by
  have hdigits : IsDigits (behindPlus token) ↔
      ¬ (behindPlus token = [] ∨ (behindPlus token).all isDigit = false) := by
    rw [not_or, Bool.not_eq_false, List.all_eq_true]
    rfl
  rw [hdigits]
  unfold parseUsize
  change (if behindPlus token = [] ∨ (behindPlus token).all isDigit = false then none
    else if readDigits (behindPlus token) < 2 ^ 64 then some (readDigits (behindPlus token))
    else none) = some i ↔ _
  split
  · next h => exact iff_of_false nofun fun hi => hi.1 h
  · next h =>
    rw [and_iff_right h]
    split
    · next hlt =>
      rw [Option.some.injEq]
      exact ⟨fun heq => ⟨heq, heq ▸ hlt⟩, fun heq => heq.1⟩
    · next hge =>
      refine iff_of_false nofun ?_
      rintro ⟨rfl, hlt⟩
      exact hge hlt

/-- **An index is a number spelled plainly.** -/
theorem isIndex_iff {token : Bytes} :
    IsIndex token ↔ IsDigits (behindPlus token) ∧ ¬ OddSpelled token := by
  constructor
  · rintro (rfl | ⟨hdigits, hzero⟩)
    · -- a zero by itself is not a leading one
      refine ⟨⟨by decide, by decide⟩, ?_⟩
      rintro (h | ⟨-, h⟩)
      · exact absurd h (by decide)
      · exact h rfl
    · have hplus : token.head? ≠ some plus := fun h =>
        absurd (hdigits.2 plus (List.mem_of_head? h)) (by decide)
      rw [behindPlus, if_neg hplus]
      refine ⟨hdigits, ?_⟩
      rintro (h | ⟨h, -⟩)
      · exact hplus h
      · exact hzero h
  · rintro ⟨hdigits, hodd⟩
    obtain ⟨hplus, hzero⟩ := not_or.mp hodd
    rw [behindPlus, if_neg hplus] at hdigits
    by_cases heq : token = [zero]
    · exact .inl heq
    · exact .inr ⟨hdigits, fun h => hzero ⟨h, heq⟩⟩

theorem behindPlus_of_isIndex {token : Bytes} (h : IsIndex token) : behindPlus token = token :=
  if_neg fun hplus => (isIndex_iff.mp h).2 (.inl hplus)

theorem not_oddSpelled_dash : ¬ OddSpelled dash := by
  rintro (h | ⟨h, -⟩)
  · cases h
  · cases h

/-! ## What the operations accept -/

/-- What the last segment of a pointer is read for. -/
inductive Access where
  /-- `apply_add`, also the second half of `move` and `copy`. -/
  | add (value : Value)
  | remove
  | replace (value : Value)
  /-- `resolve`: `test`, and the source of `move` and `copy`. -/
  | look
  /-- `resolve_mut`, on the way to a parent. -/
  | enter

namespace Access

def accepts (access : Access) (doc : Value) (segs : List Bytes) (token : Bytes) : Bool :=
  match access with
  | add value => (applyAdd doc ⟨segs ++ [token]⟩ value).isOk
  | remove => (applyRemove doc ⟨segs ++ [token]⟩).isOk
  | replace value => (applyReplace doc ⟨segs ++ [token]⟩ value).isOk
  | look => (resolve doc (segs ++ [token])).isSome
  | enter => (resolveMut doc (segs ++ [token])).isSome

/-- An element is added in front of another or behind the last, anything else is done to one that is
there. -/
def Admits : Access → Nat → Nat → Prop
  | add _, length, i => i ≤ length
  | _, length, i => i < length

/-- `-` is the place behind the last element. -/
def Appends : Access → Prop
  | add _ => True
  | _ => False

/-- What RFC 6902 allows. -/
def Allowed (access : Access) (length : Nat) (token : Bytes) : Prop :=
  IsIndex token ∧ access.Admits length (readDigits token) ∨ token = dash ∧ access.Appends

/-- A number with a sign or a leading zero that reads as an admissible index. -/
def Misread (access : Access) (length : Nat) (token : Bytes) : Prop :=
  OddSpelled token ∧ IsDigits (behindPlus token) ∧
    access.Admits length (readDigits (behindPlus token))

section

variable {doc : Value} {segs : List Bytes} {items : List Value} {token : Bytes}

theorem isOk_iff {x : Except String Value} : x.isOk = true ↔ ∃ d, x = .ok d := by
  cases x with
  | error e => exact iff_of_false nofun fun ⟨d, hd⟩ => by cases hd
  | ok d => exact iff_of_true rfl ⟨d, rfl⟩

/-- An element that is there. -/
theorem exists_child_iff :
    (∃ s c, placeOf (.array items) token = some s ∧ childAt (.array items) s = some c) ↔
      ∃ i, parseUsize token = some i ∧ i < items.length := by
  constructor
  · rintro ⟨s, c, hs, hc⟩
    obtain ⟨i, hi, rfl⟩ := Option.map_eq_some_iff.mp hs
    exact ⟨i, hi, (List.getElem?_eq_some_iff.mp hc).1⟩
  · rintro ⟨i, hi, hlt⟩
    exact ⟨.index i, items[i], Option.map_eq_some_iff.mpr ⟨i, hi, rfl⟩, List.getElem?_eq_getElem hlt⟩

theorem exists_newPlace_iff : (∃ s, newPlace (.array items) token = some s) ↔
    (∃ i, parseUsize token = some i ∧ i ≤ items.length) ∨ token = dash := by
  by_cases hdash : token = dash
  · exact iff_of_true ⟨.index items.length, if_pos hdash⟩ (.inr hdash)
  · have hnew : newPlace (.array items) token = (parseUsize token).bind fun i =>
        if i ≤ items.length then some (.index i) else none := if_neg hdash
    rw [or_iff_left hdash, hnew]
    constructor
    · rintro ⟨s, hs⟩
      obtain ⟨i, hi, hs⟩ := Option.bind_eq_some_iff.mp hs
      split at hs
      · next hle => exact ⟨i, hi, hle⟩
      · cases hs
    · rintro ⟨i, hi, hle⟩
      exact ⟨.index i, by rw [hi, Option.bind_some, if_pos hle]⟩

/-- A pointer leads on from an array to an element that is there. -/
theorem exists_locate_iff (h : resolve doc segs = some (.array items)) :
    (∃ q, locate doc (segs ++ [token]) = some q) ↔
      ∃ i, parseUsize token = some i ∧ i < items.length := by
  obtain ⟨p, hp, hparent⟩ := exists_locate h
  rw [← exists_child_iff]
  constructor
  · rintro ⟨q, hq⟩
    obtain ⟨p', parent, s, c, hp', hparent', hs, hc, -⟩ := locate_concat_iff.mp hq
    obtain rfl := Option.some.inj (hp.symm.trans hp')
    obtain rfl := Option.some.inj (hparent.symm.trans hparent')
    exact ⟨s, c, hs, hc⟩
  · rintro ⟨s, c, hs, hc⟩
    exact ⟨p ++ [s], locate_concat_iff.mpr ⟨p, _, s, c, hp, hparent, hs, hc, rfl⟩⟩

/-- What is looked up at a place is there if the pointer leads to it. -/
theorem isSome_bind_locate {β : Type} {g : List Place → Option β} {path : List Bytes}
    (hg : ∀ q c, documents.subtree doc q = some c → (g q).isSome = true) :
    ((locate doc path).bind g).isSome = true ↔ ∃ q, locate doc path = some q := by
  cases hq : locate doc path with
  | none => exact iff_of_false nofun fun ⟨q, h⟩ => by cases h
  | some q =>
    obtain ⟨c, hc⟩ := exists_of_locate hq
    exact iff_of_true (hg q c hc) ⟨q, rfl⟩

/-- **What an operation accepts** where it comes to an array: a number within its range, in whatever
spelling, and `add` a `-`. -/
theorem accepts_iff (h : resolve doc segs = some (.array items)) (access : Access) :
    access.accepts doc segs token = true ↔
      (∃ i, parseUsize token = some i ∧ access.Admits items.length i) ∨
        token = dash ∧ access.Appends := by
  obtain ⟨p, hp, hparent⟩ := exists_locate h
  cases access with
  | add value =>
    have hadd : (∃ d, applyAdd doc ⟨segs ++ [token]⟩ value = .ok d) ↔
        ∃ s, newPlace (.array items) token = some s := by
      constructor
      · rintro ⟨d, hd⟩
        obtain ⟨s, hs, -⟩ := (applyAdd_concat rfl hp hparent).mp hd
        exact ⟨s, hs⟩
      · rintro ⟨s, hs⟩
        exact ⟨_, (applyAdd_concat rfl hp hparent).mpr ⟨s, hs, rfl⟩⟩
    -- the only operation that takes a dash
    rw [accepts, isOk_iff, hadd, exists_newPlace_iff]
    exact or_congr Iff.rfl (and_iff_left trivial).symm
  | remove =>
    have hremove : (∃ d, applyRemove doc ⟨segs ++ [token]⟩ = .ok d) ↔
        ∃ s c, placeOf (.array items) token = some s ∧ childAt (.array items) s = some c := by
      constructor
      · rintro ⟨d, hd⟩
        obtain ⟨s, c, hs, hc, -⟩ := (applyRemove_concat rfl hp hparent).mp hd
        exact ⟨s, c, hs, hc⟩
      · rintro ⟨s, c, hs, hc⟩
        exact ⟨_, (applyRemove_concat rfl hp hparent).mpr ⟨s, c, hs, hc, rfl⟩⟩
    rw [accepts, isOk_iff, hremove, exists_child_iff]
    exact (or_iff_left fun hd => hd.2).symm
  | replace value =>
    have hreplace : (∃ d, applyReplace doc ⟨segs ++ [token]⟩ value = .ok d) ↔
        ∃ q, locate doc (segs ++ [token]) = some q := by
      constructor
      · rintro ⟨d, hd⟩
        obtain ⟨q, hq, -⟩ := applyReplace_eq_ok_iff.mp hd
        exact ⟨q, hq⟩
      · rintro ⟨q, hq⟩
        exact ⟨_, applyReplace_eq_ok_iff.mpr ⟨q, hq, rfl⟩⟩
    rw [accepts, isOk_iff, hreplace, exists_locate_iff h]
    exact (or_iff_left fun hd => hd.2).symm
  | look =>
    rw [accepts, resolve_eq, isSome_bind_locate fun q c hc => by rw [hc]; rfl, exists_locate_iff h]
    exact (or_iff_left fun hd => hd.2).symm
  | enter =>
    rw [accepts, resolveMut_eq, isSome_bind_locate fun q c hc => by rw [hc]; rfl,
      exists_locate_iff h]
    exact (or_iff_left fun hd => hd.2).symm

/-- **The operations accept what RFC 6902 allows** but for the spellings that only `parse` takes. -/
theorem accepts_exact_iff (h : resolve doc segs = some (.array items))
    (hlen : items.length < 2 ^ 64) (access : Access) :
    (access.accepts doc segs token = true ↔ access.Allowed items.length token) ↔
      ¬ access.Misread items.length token := by
  have hread : (∃ i, parseUsize token = some i ∧ access.Admits items.length i) ↔
      IsDigits (behindPlus token) ∧ access.Admits items.length (readDigits (behindPlus token)) := by
    have hrange : ∀ i, access.Admits items.length i → i < 2 ^ 64 := fun i hi => by
      cases access with
      | add value => exact Nat.lt_of_le_of_lt hi hlen
      | _ => exact Nat.lt_trans hi hlen
    constructor
    · rintro ⟨i, hi, hadmits⟩
      obtain ⟨hdigits, rfl, -⟩ := parseUsize_eq_some_iff.mp hi
      exact ⟨hdigits, hadmits⟩
    · rintro ⟨hdigits, hadmits⟩
      exact ⟨_, parseUsize_eq_some_iff.mpr ⟨hdigits, rfl, hrange _ hadmits⟩, hadmits⟩
  rw [accepts_iff h, hread]
  unfold Allowed Misread
  by_cases hodd : OddSpelled token
  · have hindex : ¬ IsIndex token := fun hi => (isIndex_iff.mp hi).2 hodd
    have hdash : token ≠ dash := by
      rintro rfl
      exact not_oddSpelled_dash hodd
    rw [and_iff_right hodd, or_iff_left fun hd => hdash hd.1, or_iff_left fun hd => hdash hd.1]
    exact ⟨fun hiff hread => hindex (hiff.mp hread).1, fun hnot => iff_of_false hnot fun hi => hindex hi.1⟩
  · refine iff_of_true (or_congr ?_ Iff.rfl) fun hmis => hodd hmis.1
    -- what is spelled plainly is read as it is
    constructor
    · rintro ⟨hdigits, hadmits⟩
      have hindex : IsIndex token := isIndex_iff.mpr ⟨hdigits, hodd⟩
      rw [behindPlus_of_isIndex hindex] at hadmits
      exact ⟨hindex, hadmits⟩
    · rintro ⟨hindex, hadmits⟩
      refine ⟨(isIndex_iff.mp hindex).1, ?_⟩
      rwa [behindPlus_of_isIndex hindex]

/-- The second of two elements. -/
theorem accepts_exact_sample :
    ([.null, .bool true] : List Value).length < 2 ^ 64 ∧
      ((remove.accepts (.array [.null, .bool true]) [] [49] = true ↔
        remove.Allowed 2 [49]) ↔ ¬ remove.Misread 2 [49]) := by
  have hlen : ([.null, .bool true] : List Value).length < 2 ^ 64 := by decide
  have hdoc : resolve (.array [.null, .bool true]) [] = some (.array [.null, .bool true]) := rfl
  exact ⟨hlen, accepts_exact_iff hdoc hlen remove⟩

/-- `/01` is no place of an array, but `remove` takes it for the second element. -/
theorem accepts_leading_zero :
    Pointer.parse [47, 48, 49] = some ⟨[[48, 49]]⟩ ∧
      remove.accepts (.array [.null, .bool true]) [] [48, 49] = true ∧
        ¬ remove.Allowed 2 [48, 49] := by
  refine ⟨by decide, rfl, ?_⟩
  rintro (⟨hindex, -⟩ | ⟨hdash, -⟩)
  · exact (isIndex_iff.mp hindex).2 (.inr (by decide))
  · cases hdash

end

end Access

end JsonPatch

end Castrum
