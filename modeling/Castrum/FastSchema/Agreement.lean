import Castrum.FastSchema.CompileCorrect
import Castrum.FastSchema.Exact

/-!
# Castrum — the fast path and draft-07

The compiler and the walk put together: what `is_valid_bytes` says of a document, in terms of the
schema it was compiled from.

* `isValidBytes_iff_satisfies` — within the depth cap, accepted exactly when the schema is
  satisfied;
* `isValidBytes_satisfies` — accepted only then, as long as no negated sub-walk of a schema that is
  met runs into the cap; one that does can turn a `not` around.
-/

namespace Castrum

open Ascii

open Cursor (Eats)

open Classical in
/-- Strings as RFC 8259 reads them: code points and their UTF-8. The cursor also lets bodies
through that are no RFC 8259 strings; these are read as the walk reads them. -/
noncomputable def rfcReading : Reading where
  len raw := if h : ∃ cps, Decodes raw cps then h.choose.length else countChars raw
  text raw := if h : ∃ cps, Decodes raw cps then h.choose.flatMap pushCp else textOf raw

theorem rfcReading_eq : rfcReading = walkReading := by
  have hlen : rfcReading.len = countChars := by
    funext raw
    simp only [rfcReading]
    split
    · next h => exact (countChars_of_decodes h.choose_spec).symm
    · rfl
  have htext : rfcReading.text = textOf := by
    funext raw
    simp only [rfcReading]
    split
    · next h => exact (textOf_of_decodes h.choose_spec).symm
    · rfl
  rw [walkReading, ← hlen, ← htext]

section

variable {S : Oracles} {dom : Json → Option Value}

/-- The verdict on a document: sound, and within the cap complete. -/
theorem isValidBytes_document (hS : S.Lawful) (hdom : ∀ v s, IsText v s → S.fromSlice s = dom v)
    {F : Prop} {node : FastNode S.Regex} {v : Json} {bytes : Bytes} (hdoc : IsDocument v bytes)
    (hF : (F ∧ FitsIn (SatNode S dom) maxDepth node v) ∨
      (¬ F ∧ Nests maxDepth node ∧ Guarded (SatNode S dom) maxDepth node v)) :
    (isValidBytes S node bytes = true → SatNode S dom node v) ∧
      (F → SatNode S dom node v → isValidBytes S node bytes = true) := by
  obtain ⟨w₁, s, w₂, rfl, hw₁, hs, hw₂⟩ := hdoc
  have hstop : Stops w₂ := by simpa using Stops.ws_append hw₂ Stops.nil
  obtain ⟨heats, hverdict⟩ := validateLevels_spec hS hdom hF hw₁ hs (.inl hstop)
    (c := Cursor.new (w₁ ++ (s ++ w₂)) 0) (by simp)
    (show Ctx.boolMode.depth + maxDepth = maxDepth from rfl) (.inr rfl)
  -- behind the value only the trailing whitespace is left
  have hend : (validate S node (Cursor.new (w₁ ++ (s ++ w₂)) 0) Ctx.boolMode).ok = true →
      (validate S node (Cursor.new (w₁ ++ (s ++ w₂)) 0) Ctx.boolMode).c.skipWs.pos =
        (w₁ ++ (s ++ w₂)).length := by
    intro hok
    have hrest := (heats hok).rest_eq (t := w₂) (by simp)
    have hws := Cursor.skipWs_complete (t := []) (by simpa using hrest) hw₂ (by simp)
    refine ((heats hok).trans hws).pos_eq.trans ?_
    simp [Cursor.new]
  refine ⟨fun h => ?_, fun hf hsat => ?_⟩
  · exact hverdict.sound (Bool.and_eq_true_iff.mp h).1
  · have hok := hverdict.complete hf hsat
    exact Bool.and_eq_true_iff.mpr ⟨hok, beq_iff_eq.mpr (hend hok)⟩

variable {fuel : Nat} {schema : Value} {node : FastNode S.Regex}

/-- **The single-pass validator agrees with draft-07.** A document whose walk stays within the cap
is accepted exactly when it satisfies the schema. The keys of a schema object are distinct, as they
are in a `serde_json::Map`. -/
theorem isValidBytes_iff_satisfies (hS : S.Lawful)
    (hdom : ∀ v s, IsText v s → S.fromSlice s = dom v) (hschema : schema.UniqueKeys)
    (hnode : compile S fuel schema = some node) {v : Json} {bytes : Bytes}
    (hdoc : IsDocument v bytes) (hfits : FitsIn (SatNode S dom) maxDepth node v) :
    isValidBytes S node bytes = true ↔ Satisfies S dom rfcReading schema schema v := by
  obtain ⟨hsound, hcomplete⟩ := isValidBytes_document hS hdom hdoc (.inl ⟨trivial, hfits⟩)
  rw [rfcReading_eq, compile_means S hschema hnode]
  exact ⟨hsound, hcomplete trivial⟩

end

/-! ## On small documents -/

/-- What the small oracles parse. -/
def nullDom : Json → Option Value
  | .null => some .null
  | _ => none

theorem kind_eq_null {v : Json} (h : v.kind = .null) : v = .null := by
  cases v <;> first | rfl | cases h

theorem text_eq_null {v : Json} {s : Bytes} (h : IsText v s) (hs : s = nullTok) : v = .null := by
  have hk := kindOf_of_text h hs
  exact kind_eq_null (Option.some.inj hk).symm

theorem nullOnly_fromSlice (v : Json) (s : Bytes) (h : IsText v s) :
    Oracles.nullOnly.fromSlice s = nullDom v := by
  show (if s = nullTok then some Value.null else none) = nullDom v
  split
  · next hs => rw [text_eq_null h hs, nullDom]
  · next hs =>
    cases v with
    | null => exact absurd ((isText_iff _ _).mp h) hs
    | _ => rfl

theorem nullOnly_lawful : Oracles.nullOnly.Lawful := ⟨strictMono_id, fun _ => rfl⟩

/-- `{"not": {"type": "string"}}`, and its node where it stands at `path`. -/
def notString : Value := .object [(utf8 "not", .object [(utf8 "type", .string (utf8 "string"))])]

def stringNode (path : String) : FastNode Oracles.nullOnly.Regex :=
  ⟨false, tStr, none, none, none, none, none, none, some path⟩

def notStringNode (path : String) : FastNode Oracles.nullOnly.Regex :=
  ⟨false, 0, none, none, none, none, some ⟨[], [], [], some (stringNode (path ++ "/not")), none⟩, none,
    some path⟩

section

variable {path : String} {sub : FastNode Oracles.nullOnly.Regex}

theorem notStringNode_sub (h : (notStringNode path).Sub sub) : sub = stringNode (path ++ "/not") := by
  cases h with
  | not hc hnot =>
    obtain rfl := Option.some.inj hc
    exact (Option.some.inj hnot).symm
  | allOf hc hmem | anyOf hc hmem | oneOf hc hmem | ifNode hc hmem | thenNode hc hmem
  | elseNode hc hmem =>
    obtain rfl := Option.some.inj hc
    cases hmem
  | _ hc => cases hc

theorem stringNode_sub : ¬ (stringNode path).Sub sub := by
  intro h
  cases h <;> contradiction

/-- The walk needs one level for each of the two schemas. -/
theorem notStringNode_fits {Sat : FastNode Oracles.nullOnly.Regex → Json → Prop} {n : Nat} {v : Json}
    (hv : v.height ≤ n) : FitsIn Sat (n + 2) (notStringNode path) v := by
  refine ⟨Nat.le_succ_of_le hv, ?_, ?_⟩
  · intro sub w h
    cases h with
    | allOf hc hmem =>
      obtain rfl := Option.some.inj hc
      cases hmem
    | thenNode hc hite | elseNode hc hite =>
      obtain rfl := Option.some.inj hc
      cases hite
    | _ hc => cases hc
  · intro sub w h
    cases h with
    | not hc hnot =>
      obtain rfl := notStringNode_sub (.not hc hnot)
      exact ⟨hv, fun _ _ h => absurd h.sub stringNode_sub, fun _ _ h => absurd h.sub stringNode_sub⟩
    | contains ha => cases ha
    | anyOf hc hsplit =>
      obtain rfl := Option.some.inj hc
      exact absurd hsplit (by simp)
    | oneOf hc hmem =>
      obtain rfl := Option.some.inj hc
      cases hmem
    | ifNode hc hite =>
      obtain rfl := Option.some.inj hc
      cases hite

end

/-- `{"type": "array", "items": {"not": {"type": "string"}}}` and its node. -/
def itemsNotString : Value :=
  .object [(utf8 "type", .string (utf8 "array")), (utf8 "items", notString)]

def itemsNode : FastNode Oracles.nullOnly.Regex :=
  ⟨false, tArr, none, some ⟨some (notStringNode "/items"), none, none, none, none, false, none⟩, none,
    none, none, none, some ""⟩

theorem compile_itemsNotString : compile .nullOnly 3 itemsNotString = some itemsNode := rfl

/-- `[null]`. -/
theorem isDocument_arrayOfNull :
    IsDocument (.arr [.null]) (lbracket :: (nullTok ++ [rbracket])) := by
  have hnull : IsText .null nullTok := (isText_iff _ _).mpr rfl
  have hitems : Elements IsText [.null] ([] ++ (nullTok ++ [])) := .one IsWs.nil hnull IsWs.nil
  exact ⟨[], _, [], by simp, IsWs.nil, (isText_iff _ _).mpr ⟨nullTok, rfl, .inr hitems⟩, IsWs.nil⟩

theorem isValidBytes_iff_satisfies_items :
    isValidBytes .nullOnly itemsNode (lbracket :: (nullTok ++ [rbracket])) = true ∧
      (isValidBytes .nullOnly itemsNode (lbracket :: (nullTok ++ [rbracket])) = true ↔
        Satisfies .nullOnly nullDom rfcReading itemsNotString itemsNotString (.arr [.null])) := by
  refine ⟨by decide +kernel, isValidBytes_iff_satisfies nullOnly_lawful nullOnly_fromSlice ?_
    compile_itemsNotString isDocument_arrayOfNull ⟨by decide, ?_, ?_⟩⟩
  · simp [itemsNotString, notString, Value.UniqueKeys, uniqueKeysMembers]
    decide
  · intro sub w h
    cases h with
    | element ha hw hsub =>
      -- the one element fits under the schema of the items
      obtain rfl := Option.some.inj ha
      cases hsub
      obtain ⟨-, rfl⟩ : _ ∧ Json.null = w := by simpa [List.getElem?_singleton] using hw
      exact notStringNode_fits (n := 125) (by decide)
    | _ h => cases h
  · intro sub w h
    generalize Json.arr [.null] = v at h
    cases h with
    | contains ha hc =>
      obtain rfl := Option.some.inj ha
      cases hc
    | _ h => cases h

end Castrum
