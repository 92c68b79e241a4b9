import Castrum.Ffi.JsonDecode
import Castrum.Task.Completion

/-!
# Castrum — packed JSON against `JSON.parse`

Both sides build the same numbers, strings and arrays. They differ at a member `__proto__`: `JSON.parse`
defines it, the decoder assigns it, and the assignment goes to the prototype unless an earlier member
has cut the object off `Object.prototype`. A later member of the same name hides the difference.

* `Doc.faithful` — the documents that come back;
* `deepEq_decoded_iff` — the decoded value is the parsed one;
* `decodeJsonPacked_iff` — the round trip.
-/

namespace Castrum.JsonPacked

open Js

/-! ## The documents that come back -/

mutual

/-- A value that, as the prototype of an object, keeps the lookup of `__proto__` from the accessor. -/
def Doc.hides : Doc → Bool
  | .null => true
  | .object members => hidesMembers members
  | _ => false

def hidesMembers : List (String × Doc) → Bool
  | [] => false
  | (k, v) :: ms => (decide (k = protoKey) && v.hides) || hidesMembers ms

end

mutual

/-- No member `__proto__` is the last one of its name in an object, unless an earlier one has cut the
object off `Object.prototype`. -/
def Doc.faithful : Doc → Bool
  | .array items => faithfulItems items
  | .object members => faithfulMembers true members
  | _ => true

def faithfulItems : List Doc → Bool
  | [] => true
  | v :: vs => v.faithful && faithfulItems vs

/-- `accessor` says that an assignment to `__proto__` still goes to the accessor. -/
def faithfulMembers (accessor : Bool) : List (String × Doc) → Bool
  | [] => true
  | (k, v) :: ms =>
    (decide (k ∈ ms.map Prod.fst) || (v.faithful && !(decide (k = protoKey) && accessor))) &&
      faithfulMembers (accessor && !(decide (k = protoKey) && v.hides)) ms

end

/-! ## Deep equality of the two values -/

section

variable (asF64 : Int → UInt64)

mutual

/-- `hides` says it of the decoded value. -/
theorem cuts_decoded (v : Doc) : (v.decoded asF64).cuts = v.hides := by
  cases v with
  | object members =>
    show (!(Js.object _ _).reaches) = hidesMembers members
    rw [reaches_decodedMembers members [] none]
    show (!(true && !hidesMembers members)) = hidesMembers members
    rw [Bool.true_and, Bool.not_not]
  | null => rfl
  | bool b => rfl
  | int v => rfl
  | float bits => rfl
  | string s => rfl
  | array items => rfl

theorem reaches_decodedMembers (ms : List (String × Doc)) (own : List (String × Js))
    (proto : Option Js) :
    (Js.object (decodedMembers asF64 own proto ms).1 (decodedMembers asF64 own proto ms).2).reaches =
      ((Js.object own proto).reaches && !hidesMembers ms) := by
  cases ms with
  | nil => rw [decodedMembers, hidesMembers, Bool.not_false, Bool.and_true]
  | cons m ms =>
    obtain ⟨k, v⟩ := m
    rw [decodedMembers, reaches_decodedMembers ms, reaches_assign, cuts_decoded v, hidesMembers,
      Bool.not_or, Bool.and_assoc]

end

/-- What the assignment of one member leaves of the equality of all properties that no later member
replaces. -/
theorem sameProps_assign_iff {own own' : List (String × Js)} {proto : Option Js} {k : String}
    {x y : Js} (later : List String) :
    (∀ k', k' ∉ later → SameProp (lookup (assign own proto k x).1 k') (lookup (define own' k y) k')) ↔
      (∀ k', k' ∉ k :: later → SameProp (lookup own k') (lookup own' k')) ∧
        (k ∈ later ∨ (DeepEq x y ∧ ¬ (k = protoKey ∧ (Js.object own proto).reaches = true))) := by
  have hself : SameProp (lookup (assign own proto k x).1 k) (lookup (define own' k y) k) ↔
      (DeepEq x y ∧ ¬ (k = protoKey ∧ (Js.object own proto).reaches = true)) := by
    rw [lookup_assign_self, lookup_define_self]
    split
    · next haccessor => exact ⟨fun h => h.elim, fun h => h.2 haccessor⟩
    · next haccessor => exact ⟨fun h => ⟨h, haccessor⟩, fun h => h.1⟩
  constructor
  · intro h
    refine ⟨fun k' hk' => ?_, ?_⟩
    · rw [List.mem_cons, not_or] at hk'
      have hsame := h k' hk'.2
      rw [lookup_assign_of_ne hk'.1, lookup_define_of_ne hk'.1] at hsame
      exact hsame
    · by_cases hlater : k ∈ later
      · exact .inl hlater
      · exact .inr (hself.mp (h k hlater))
  · rintro ⟨hothers, hk⟩ k' hk'
    by_cases heq : k' = k
    · rw [heq] at hk' ⊢
      exact hself.mpr (hk.resolve_left hk')
    · rw [lookup_assign_of_ne heq, lookup_define_of_ne heq]
      exact hothers k' (by rw [List.mem_cons, not_or]; exact ⟨heq, hk'⟩)

mutual

/-- **The decoded value is the parsed one** exactly for a faithful document. -/
theorem deepEq_decoded_iff (v : Doc) : DeepEq (v.decoded asF64) (v.value asF64) ↔ v.faithful = true := by
  cases v with
  | null => exact iff_of_true .null rfl
  | bool b => exact iff_of_true (.bool b) rfl
  | int v => exact iff_of_true (.number _) rfl
  | float bits => exact iff_of_true (.number bits) rfl
  | string s => exact iff_of_true (.string s) rfl
  | array items => exact deepEq_decodedItems_iff items
  | object members =>
    rw [Doc.decoded, Doc.value, deepEq_object_iff,
      sameProps_decodedMembers_iff members [] [] none true rfl]
    exact and_iff_right fun k _ => trivial

theorem deepEq_decodedItems_iff (vs : List Doc) :
    DeepEq (.array (decodedItems asF64 vs)) (.array (valueItems asF64 vs)) ↔
      faithfulItems vs = true := by
  cases vs with
  | nil => exact iff_of_true deepEq_array_nil rfl
  | cons v vs =>
    rw [decodedItems, valueItems, deepEq_array_cons_iff, deepEq_decoded_iff v,
      deepEq_decodedItems_iff vs, faithfulItems, Bool.and_eq_true]

/-- Over the members, from two objects that are filled so far: the properties that no member replaces
are the same, and the members are faithful. -/
theorem sameProps_decodedMembers_iff (ms : List (String × Doc)) (own own' : List (String × Js))
    (proto : Option Js) (accessor : Bool) (haccessor : (Js.object own proto).reaches = accessor) :
    (∀ k, SameProp (lookup (decodedMembers asF64 own proto ms).1 k)
      (lookup (valueMembers asF64 own' ms) k)) ↔
      (∀ k, k ∉ ms.map Prod.fst → SameProp (lookup own k) (lookup own' k)) ∧
        faithfulMembers accessor ms = true := by
  cases ms with
  | nil =>
    rw [decodedMembers, valueMembers, faithfulMembers]
    exact ⟨fun h => ⟨fun k _ => h k, rfl⟩, fun h k => h.1 k List.not_mem_nil⟩
  | cons m ms =>
    obtain ⟨k, v⟩ := m
    have hnext : (Js.object (assign own proto k (v.decoded asF64)).1
        (assign own proto k (v.decoded asF64)).2).reaches =
        (accessor && !(decide (k = protoKey) && v.hides)) := by
      rw [reaches_assign, haccessor, cuts_decoded]
    have hmember : (k ∈ ms.map Prod.fst ∨ (DeepEq (v.decoded asF64) (v.value asF64) ∧
        ¬ (k = protoKey ∧ (Js.object own proto).reaches = true))) ↔
        (decide (k ∈ ms.map Prod.fst) ||
          (v.faithful && !(decide (k = protoKey) && accessor))) = true := by
      rw [deepEq_decoded_iff v, haccessor]
      simp only [Bool.or_eq_true, Bool.and_eq_true, decide_eq_true_eq, Bool.not_eq_true',
        Bool.and_eq_false_iff, decide_eq_false_iff_not, not_and_or, Bool.not_eq_true]
    rw [decodedMembers, valueMembers, sameProps_decodedMembers_iff ms _ _ _ _ hnext,
      sameProps_assign_iff, hmember, faithfulMembers, Bool.and_eq_true, List.map_cons, and_assoc]

end

end

/-! ## The round trip -/

/-- What the decoder makes of `bytes` is the document: a value deeply equal to the one `JSON.parse`
gives, with each text number in the table and no byte left over. -/
def Returns (asF64 : Int → UInt64) (codec : Bytes → String) (doc : Doc) (bytes : Bytes) : Prop :=
  ∃ d, decodeJsonPacked bytes codec = .ok d ∧ DeepEq d.root (doc.value asF64) ∧
    (∀ i ∈ d.indices, i < d.strCount) ∧ d.consumed = bytes.length

section

variable {parse : Bytes → Option Doc} {asF64 : Int → UInt64} {codec : Bytes → String}

/-- On the stream of a document the rest of the round trip always holds. -/
theorem returns_packed_iff {doc : Doc} (hcodec : ∀ s : String, s ≠ "" → codec (utf8 s) = s)
    (hsize : (Emitter.new.visit asF64 doc).packed.length ≤ 2 ^ 32) :
    Returns asF64 codec doc (Emitter.new.visit asF64 doc).packed ↔ doc.faithful = true := by
  have hdecode := decodeJsonPacked_packed rfl hcodec hsize
  have hknown := (emits_visit asF64 doc Emitter.new).known
  rw [← deepEq_decoded_iff asF64 doc]
  constructor
  · rintro ⟨d, hd, heq, -, -⟩
    rw [hdecode, Except.ok.injEq] at hd
    rw [← hd] at heq
    exact heq
  · intro heq
    refine ⟨_, hdecode, heq, fun i hi => ?_, rfl⟩
    obtain ⟨s, hs, rfl⟩ := List.mem_map.mp hi
    exact List.idxOf_lt_length_of_mem (hknown s hs)

theorem length_packed (e : Emitter) : e.packed.length = 4 + e.table.length + 4 + e.tree.length := by
  simp only [Emitter.packed, List.length_append, length_le32]
  omega

/-- Where the room is enough, the emitter writes the stream of the document. -/
theorem castrumJsonParsePacked_eq {data out : Bytes} {doc : Doc} (hparse : parse data = some doc)
    (hroom : (castrumJsonParsePacked parse asF64 (some data) (some out)).1 ≤ out.length) :
    castrumJsonParsePacked parse asF64 (some data) (some out) =
      ((Emitter.new.visit asF64 doc).packed.length,
        copyInto (Emitter.new.visit asF64 doc).packed out) := by
  have hlength := length_packed (Emitter.new.visit asF64 doc)
  simp only [castrumJsonParsePacked, hparse, ← hlength] at hroom ⊢
  split
  · next hlarge =>
    rw [if_pos hlarge] at hroom
    omega
  · rfl

/-- **Packed JSON against `JSON.parse`.** A document that the parser accepts comes back from the decoder
exactly where it is faithful. -/
theorem decodeJsonPacked_iff {data out : Bytes} {doc : Doc} (hparse : parse data = some doc)
    (hcodec : ∀ s : String, s ≠ "" → codec (utf8 s) = s) (hout : out.length ≤ Completions.maxBuffer)
    (hroom : (castrumJsonParsePacked parse asF64 (some data) (some out)).1 ≤ out.length) :
    Returns asF64 codec doc
      ((castrumJsonParsePacked parse asF64 (some data) (some out)).2.take
        (castrumJsonParsePacked parse asF64 (some data) (some out)).1) ↔ doc.faithful = true := by
  have heq := castrumJsonParsePacked_eq hparse hroom
  rw [heq] at hroom ⊢
  rw [copyInto, List.take_left]
  exact returns_packed_iff hcodec (Nat.le_trans hroom hout)

end

/-- A codec for the runs below. -/
def decodeText (bytes : Bytes) : String := (String.fromUTF8? ⟨bytes.toArray⟩).getD ""

theorem decodeText_utf8 (s : String) : decodeText (utf8 s) = s := by
  have hvalid : s.toUTF8.IsValidUTF8 := s.isValidUTF8
  show (String.fromUTF8? s.toUTF8).getD "" = s
  unfold String.fromUTF8?
  rw [dif_pos hvalid]
  rfl

/-- The cast of the one integer that the runs below have. -/
def castOne (v : Int) : UInt64 := if v = 1 then 0x3FF0000000000000 else 0

/-- What the emitter writes for the text of one document into 64 bytes, with a parser of that text. -/
def emitOne (text : String) (doc : Doc) : Nat × Bytes :=
  castrumJsonParsePacked (fun input => if input = utf8 text then some doc else none) castOne
    (some (utf8 text)) (some (List.replicate 64 0))

/-- A document with a text that comes up twice, as a key and as an item. -/
def sharedDoc : Doc := .object [("a", .array [.int 1, .string "a"])]

def sharedText : String := "\x7b\"a\":[1,\"a\"]\x7d"

theorem decodeJsonPacked_shared : Returns castOne decodeText sharedDoc
    ((emitOne sharedText sharedDoc).2.take (emitOne sharedText sharedDoc).1) :=
  (decodeJsonPacked_iff (if_pos rfl) (fun s _ => decodeText_utf8 s) (by decide) (by decide)).mpr rfl

def protoDoc : Doc := .object [(protoKey, .int 1)]

def protoText : String := "\x7b\"__proto__\":1\x7d"

/-- **Lost: a member `__proto__`.** `JSON.parse` has it as a property of the object; the decoder assigns
a number to the prototype, which does nothing. -/
theorem decodeJsonPacked_loses_proto : ¬ Returns castOne decodeText protoDoc
    ((emitOne protoText protoDoc).2.take (emitOne protoText protoDoc).1) := by
  rw [emitOne, castrumJsonParsePacked_eq (if_pos rfl) (by decide), copyInto, List.take_left,
    returns_packed_iff (fun s _ => decodeText_utf8 s) (by decide)]
  decide

end Castrum.JsonPacked
