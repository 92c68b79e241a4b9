import Castrum.Ffi.JsonPacked

/-!
# Castrum — what the packed stream of a document is

The number of a text is fixed when it is first met, and the table only grows. So the tokens of a value
are a function of the finished table, whatever was in it when the value was visited.

* `tokens` — the tokens of a document over a table;
* `emits_visit` — the emitter writes exactly these, over any table that its own one is a start of;
* `emits_visit` — the stream of a document.
-/

namespace Castrum.JsonPacked

/-! ## Tokens -/

section

variable (asF64 : Int → UInt64) (strs : List Bytes)

mutual

/-- The texts of a document, keys included, in the order in which they come up. -/
def Doc.names : Doc → List String
  | .string s => [s]
  | .array items => namesItems items
  | .object members => namesMembers members
  | _ => []

def namesItems : List Doc → List String
  | [] => []
  | v :: vs => v.names ++ namesItems vs

def namesMembers : List (String × Doc) → List String
  | [] => []
  | (k, v) :: ms => k :: (v.names ++ namesMembers ms)

end

/-- The number of a text in the table. -/
def index (s : String) : Nat := strs.idxOf (utf8 s)

mutual

/-- The tokens of a document over the table `strs`. -/
def Doc.tokens : Doc → Bytes
  | .null => [tagNull]
  | .bool b => [if b then tagTrue else tagFalse]
  | .int v => tagNumber :: le64 (asF64 v).toNat
  | .float bits => tagNumber :: le64 bits.toNat
  | .string s => tagString :: le32 (index strs s)
  | .array items => tagArrayStart :: (tokensItems items ++ [tagArrayEnd])
  | .object members => tagObjectStart :: (tokensMembers members ++ [tagObjectEnd])

def tokensItems : List Doc → Bytes
  | [] => []
  | v :: vs => v.tokens ++ tokensItems vs

def tokensMembers : List (String × Doc) → Bytes
  | [] => []
  | (k, v) :: ms => tagKey :: (le32 (index strs k) ++ (v.tokens ++ tokensMembers ms))

end

end

/-! ## What the emitter writes -/

/-- The table holds each text once, behind its length. -/
structure Emitter.Tabled (e : Emitter) : Prop where
  nodup : e.strings.Nodup
  table : e.table = e.strings.flatMap packedComponent

theorem Emitter.Tabled.new : Emitter.new.Tabled := ⟨List.nodup_nil, rfl⟩

/-- From `e` to `e'` the texts `names` have come up and `toks` has been written, over any table that
starts with the one of `e'`. -/
structure Emits (e e' : Emitter) (names : List String) (toks : List Bytes → Bytes) : Prop where
  grows : e.strings <+: e'.strings
  tabled : e.Tabled → e'.Tabled
  known : ∀ s ∈ names, utf8 s ∈ e'.strings
  tree : ∀ strs, e'.strings <+: strs → e'.tree = e.tree ++ toks strs

section

variable {e e' e'' : Emitter} {names names' : List String} {toks toks' : List Bytes → Bytes}

theorem Emits.refl (e : Emitter) : Emits e e [] (fun _ => []) :=
  ⟨List.prefix_rfl, id, fun _ hs => absurd hs List.not_mem_nil, fun _ _ => (List.append_nil _).symm⟩

theorem Emits.trans (h : Emits e e' names toks) (h' : Emits e' e'' names' toks') :
    Emits e e'' (names ++ names') (fun strs => toks strs ++ toks' strs) where
  grows := h.grows.trans h'.grows
  tabled := fun htabled => h'.tabled (h.tabled htabled)
  known := by
    intro s hs
    rcases List.mem_append.mp hs with hs | hs
    · exact h'.grows.subset (h.known s hs)
    · exact h'.known s hs
  tree := by
    intro strs hstrs
    rw [h'.tree strs hstrs, h.tree strs (h'.grows.trans hstrs), List.append_assoc]

theorem emits_push (e : Emitter) (tag : UInt8) : Emits e (e.push tag) [] (fun _ => [tag]) :=
  ⟨List.prefix_rfl, fun h => ⟨h.nodup, h.table⟩, fun _ hs => absurd hs List.not_mem_nil,
    fun _ _ => rfl⟩

theorem emits_number (e : Emitter) (bits : UInt64) :
    Emits e (e.emitNumber bits) [] (fun _ => tagNumber :: le64 bits.toNat) :=
  ⟨List.prefix_rfl, fun h => ⟨h.nodup, h.table⟩, fun _ hs => absurd hs List.not_mem_nil,
    fun _ _ => by rw [Emitter.emitNumber, Emitter.push, List.append_assoc]; rfl⟩

/-- The position of a text does not change when the table grows. -/
theorem idxOf_of_prefix {strs strs' : List Bytes} {b : Bytes} (h : strs <+: strs') (hb : b ∈ strs) :
    strs'.idxOf b = strs.idxOf b := by
  obtain ⟨more, rfl⟩ := h
  exact List.idxOf_append_of_mem hb

/-- A text that is in the map keeps its number; another one gets the next. -/
theorem Emitter.intern_eq (e : Emitter) (bytes : Bytes) : e.intern bytes =
    if bytes ∈ e.strings then (e.strings.idxOf bytes, e)
    else (e.strings.length,
      { e with strings := e.strings ++ [bytes], table := e.table ++ packedComponent bytes }) := by
  unfold intern
  by_cases hmem : bytes ∈ e.strings
  · rw [if_pos hmem, List.idxOf_eq_getD_idxOf?]
    cases hidx : e.strings.idxOf? bytes with
    | none => exact absurd hmem (List.idxOf?_eq_none_iff.mp hidx)
    | some idx => rw [Option.getD_some]
  · rw [if_neg hmem, List.idxOf?_eq_none_iff.mpr hmem]

/-- **A text**: the number it has already, or the next one. -/
theorem emits_text (e : Emitter) (tag : UInt8) (s : String) :
    Emits e (e.emitText tag s) [s] (fun strs => tag :: le32 (index strs s)) := by
  rw [Emitter.emitText, Emitter.intern_eq]
  -- A known text is told by its number and the table stays; a new one is added at the end of both.
  by_cases hmem : utf8 s ∈ e.strings
  · have hmem' : utf8 s ∈ (e.push tag).strings := hmem
    rw [if_pos hmem']
    refine ⟨List.prefix_rfl, fun h => ⟨h.nodup, h.table⟩, fun s' hs' => ?_, fun strs hstrs => ?_⟩
    · rw [List.mem_singleton.mp hs']
      exact hmem
    · show e.tree ++ [tag] ++ le32 (e.strings.idxOf (utf8 s)) = e.tree ++ tag :: le32 (index strs s)
      rw [index, idxOf_of_prefix hstrs hmem, List.append_assoc]
      rfl
  · have hmem' : utf8 s ∉ (e.push tag).strings := hmem
    rw [if_neg hmem']
    refine ⟨List.prefix_append _ _, fun h => ⟨?_, ?_⟩, fun s' hs' => ?_, fun strs hstrs => ?_⟩
    · show (e.strings ++ [utf8 s]).Nodup
      rw [← List.concat_eq_append, List.nodup_concat]
      exact ⟨hmem, h.nodup⟩
    · show e.table ++ packedComponent (utf8 s) = (e.strings ++ [utf8 s]).flatMap packedComponent
      rw [List.flatMap_append, List.flatMap_singleton, h.table]
    · rw [List.mem_singleton.mp hs']
      exact List.mem_append_right _ (List.mem_singleton_self _)
    · have hin : utf8 s ∈ e.strings ++ [utf8 s] :=
        List.mem_append_right _ (List.mem_singleton_self _)
      have hstrs' : e.strings ++ [utf8 s] <+: strs := hstrs
      have hindex : index strs s = e.strings.length := by
        rw [index, idxOf_of_prefix hstrs' hin, List.idxOf_append_of_notMem hmem, List.idxOf_cons_self,
          Nat.add_zero]
      show e.tree ++ [tag] ++ le32 e.strings.length = e.tree ++ tag :: le32 (index strs s)
      rw [hindex, List.append_assoc]
      rfl

end

section

variable (asF64 : Int → UInt64)

mutual

/-- **A value is written as its tokens**: one case for each kind of value. -/
theorem emits_visit (v : Doc) (e : Emitter) :
    Emits e (e.visit asF64 v) v.names (fun strs => v.tokens asF64 strs) := by
  cases v with
  | null => exact emits_push e tagNull
  | bool b => exact emits_push e _
  | int v => exact emits_number e (asF64 v)
  | float bits => exact emits_number e bits
  | string s => exact emits_text e tagString s
  | array items =>
    have h := ((emits_push e tagArrayStart).trans (emits_items items _)).trans
      (emits_push _ tagArrayEnd)
    rw [List.nil_append, List.append_nil] at h
    simp only [List.append_assoc] at h
    exact h
  | object members =>
    have h := ((emits_push e tagObjectStart).trans (emits_members members _)).trans
      (emits_push _ tagObjectEnd)
    rw [List.nil_append, List.append_nil] at h
    simp only [List.append_assoc] at h
    exact h

theorem emits_items (vs : List Doc) (e : Emitter) :
    Emits e (e.visitItems asF64 vs) (namesItems vs) (fun strs => tokensItems asF64 strs vs) := by
  cases vs with
  | nil => exact Emits.refl e
  | cons v vs => exact (emits_visit v e).trans (emits_items vs _)

theorem emits_members (ms : List (String × Doc)) (e : Emitter) :
    Emits e (e.visitMembers asF64 ms) (namesMembers ms) (fun strs => tokensMembers asF64 strs ms) := by
  cases ms with
  | nil => exact Emits.refl e
  | cons m ms =>
    obtain ⟨k, v⟩ := m
    have h := ((emits_text e tagKey k).trans (emits_visit v _)).trans (emits_members ms _)
    simp only [List.append_assoc] at h
    exact h

end

end

end Castrum.JsonPacked
