import Castrum.Ffi.JsonTokens
import Castrum.Util.Packed
import Mathlib.Logic.Relation

/-!
# Castrum — the decoder on the tokens of a document

Where the bytes hold the tokens of a value, the decoder runs over them and attaches one value, whatever
containers are open. What it attaches is the document with its members assigned, not defined.

* `At` — the bytes from a position on;
* `Doc.decoded` — the value the decoder builds;
* `runs_visit` — the run over the tokens of a value;
* `decodeJsonPacked_packed` — the decoder on a stream.
-/

namespace Castrum.JsonPacked

/-! ## Bytes at a position -/

section

variable {bytes toks toks' : Bytes} {p : Nat}

/-- The bytes from `p` on start with `toks`. -/
def At (bytes : Bytes) (p : Nat) (toks : Bytes) : Prop := toks <+: bytes.drop p

theorem At.left (h : At bytes p (toks ++ toks')) : At bytes p toks :=
  (List.prefix_append toks toks').trans h

theorem At.right (h : At bytes p (toks ++ toks')) : At bytes (p + toks.length) toks' := by
  obtain ⟨behind, h⟩ := h
  refine ⟨behind, ?_⟩
  rw [← List.drop_drop, ← h, List.append_assoc, List.drop_left]

theorem At.head {t : UInt8} (h : At bytes p (t :: toks)) : bytes[p]? = some t := by
  obtain ⟨behind, h⟩ := h
  have hget : (bytes.drop p)[0]? = some t := by rw [← h]; rfl
  rw [List.getElem?_drop, Nat.add_zero] at hget
  exact hget

theorem At.tail {t : UInt8} (h : At bytes p (t :: toks)) : At bytes (p + 1) toks := by
  have hright : At bytes p ([t] ++ toks) := h
  exact hright.right

/-- A field that stands at `p` is read there. -/
theorem readWord_of_at {width : Nat} {field : Bytes} (h : At bytes p field) (hfield : field.length = width)
    (hpos : 0 < width) : readWord width bytes p = some (wordOf field) := by
  obtain ⟨behind, h⟩ := h
  have hlength := congrArg List.length h
  rw [List.length_append, List.length_drop] at hlength
  rw [readWord, if_pos (by omega), ← h, ← hfield, List.take_left]

theorem u32_of_at {n : Nat} (h : At bytes p (le32 n)) (hn : n < 2 ^ 32) : u32 bytes p = .ok n := by
  rw [u32, readU32, readWord_of_at h (length_le32 n) (by decide), wordOf_le32, Nat.mod_eq_of_lt hn]
  rfl

end

/-! ## The value the decoder builds -/

section

variable (asF64 : Int → UInt64)

mutual

/-- The value of a document whose members are assigned one by one. -/
def Doc.decoded : Doc → Js
  | .null => .null
  | .bool b => .bool b
  | .int v => .number (asF64 v)
  | .float bits => .number bits
  | .string s => .string s
  | .array items => .array (decodedItems items)
  | .object members =>
    let o := decodedMembers [] none members
    .object o.1 o.2

def decodedItems : List Doc → List Js
  | [] => []
  | v :: vs => v.decoded :: decodedItems vs

def decodedMembers (own : List (String × Js)) (proto : Option Js) :
    List (String × Doc) → List (String × Js) × Option Js
  | [] => (own, proto)
  | (k, v) :: ms =>
    let o := Js.assign own proto k v.decoded
    decodedMembers o.1 o.2 ms

end

end

/-! ## Runs of the decoder -/

section

variable (bytes : Bytes) (strings : List String) (stop : Nat)

/-- One round of the loop. -/
def Round (s s' : State) : Prop := s.p < stop ∧ s.p < s'.p ∧ step bytes strings s = .ok s'

abbrev Runs : State → State → Prop := Relation.ReflTransGen (Round bytes strings stop)

variable {bytes strings stop}

/-- A run to the end of the tokens is what the loop does, with enough fuel. -/
theorem loop_of_runs {s s' : State} (h : Runs bytes strings stop s s') (hstop : s'.p = stop) {fuel : Nat}
    (hfuel : stop ≤ s.p + fuel) : loop bytes strings stop fuel s = .ok s' := by
  induction h using Relation.ReflTransGen.head_induction_on generalizing fuel with
  | refl =>
    cases fuel with
    | zero => rfl
    | succ fuel => rw [loop, if_neg (by omega)]
  | head hround _ ih =>
    obtain ⟨hlt, hgrows, hstep⟩ := hround
    cases fuel with
    | zero => omega
    | succ fuel =>
      rw [loop, if_pos hlt, hstep]
      exact ih (by omega)

theorem State.attach_p (s : State) (v : Js) : (s.attach v).p = s.p := by
  unfold State.attach
  split
  · rfl
  · split <;> rfl

/-- One round, over a token that attaches a value. -/
theorem Runs.of_attach {s s' : State} {v : Js} (hlt : s.p < stop) (hp : s.p < s'.p)
    (hstep : step bytes strings s = .ok (s'.attach v)) : Runs bytes strings stop s (s'.attach v) :=
  .single ⟨hlt, by rw [State.attach_p]; exact hp, hstep⟩

section

variable {p : Nat} {root : Js} {frames : List Frame} {f : Frame} {ix : List Nat} {behind : Bytes}

theorem runs_null (h : At bytes p [tagNull]) (hstop : p + 1 ≤ stop) :
    Runs bytes strings stop ⟨p, root, frames, ix⟩ (State.attach ⟨p + 1, root, frames, ix⟩ .null) := by
  apply Runs.of_attach hstop (Nat.lt_succ_self p)
  rw [step, h.head]
  rfl

theorem runs_bool {b : Bool} (h : At bytes p [if b then tagTrue else tagFalse]) (hstop : p + 1 ≤ stop) :
    Runs bytes strings stop ⟨p, root, frames, ix⟩
      (State.attach ⟨p + 1, root, frames, ix⟩ (.bool b)) := by
  apply Runs.of_attach hstop (Nat.lt_succ_self p)
  rw [step, h.head]
  cases b <;> rfl

theorem runs_number {bits : UInt64} (h : At bytes p (tagNumber :: le64 bits.toNat))
    (hstop : p + 9 ≤ stop) : Runs bytes strings stop ⟨p, root, frames, ix⟩
      (State.attach ⟨p + 9, root, frames, ix⟩ (.number bits)) := by
  have hword : readWord 8 bytes (p + 1) = some bits.toNat := by
    rw [readWord_of_at h.tail (length_le64 _) (by decide), wordOf_le64 bits.toNat_lt]
  apply Runs.of_attach (by show p < stop; omega) (by show p < p + 9; omega)
  rw [step, h.head]
  show (readWord 8 bytes (p + 1)).elim _ _ = _
  rw [hword, Option.elim_some, UInt64.ofNat_toNat]

/-- The text `s` has a number that fits, and the decoder has it under that number. -/
def Listed (strs : List Bytes) (strings : List String) (s : String) : Prop :=
  index strs s < 2 ^ 32 ∧ strings[index strs s]? = some s

variable {strs : List Bytes} {s : String}

theorem readIndex_of_at (h : At bytes p (le32 (index strs s))) (hlisted : Listed strs strings s) :
    readIndex bytes ⟨p, root, frames, ix⟩ =
      .ok (index strs s, ⟨p + 4, root, frames, ix ++ [index strs s]⟩) := by
  rw [readIndex, u32_of_at h hlisted.1]
  rfl

theorem runs_string (h : At bytes p (tagString :: le32 (index strs s))) (hlisted : Listed strs strings s)
    (hstop : p + 5 ≤ stop) : Runs bytes strings stop ⟨p, root, frames, ix⟩
      (State.attach ⟨p + 5, root, frames, ix ++ [index strs s]⟩ (.string s)) := by
  apply Runs.of_attach (by show p < stop; omega) (by show p < p + 5; omega)
  rw [step, h.head]
  show (readIndex bytes ⟨p + 1, root, frames, ix⟩).map _ = _
  rw [readIndex_of_at h.tail hlisted]
  show Except.ok (State.attach _ ((strings[index strs s]?).elim .undefined .string)) = _
  rw [hlisted.2]
  rfl

theorem runs_key {arr : List Js} {own : List (String × Js)} {proto : Option Js} {key : String}
    (h : At bytes p (tagKey :: le32 (index strs s)))
    (hlisted : Listed strs strings s) (hstop : p + 5 ≤ stop) : Runs bytes strings stop
      ⟨p, root, ⟨true, arr, own, proto, key⟩ :: frames, ix⟩
      ⟨p + 5, root, ⟨true, arr, own, proto, s⟩ :: frames, ix ++ [index strs s]⟩ := by
  apply Relation.ReflTransGen.single
  refine ⟨by show p < stop; omega, by show p < p + 5; omega, ?_⟩
  rw [step, h.head]
  show (readIndex bytes ⟨p + 1, root, _ :: frames, ix⟩).bind _ = _
  rw [readIndex_of_at h.tail hlisted]
  show Except.ok (State.mk (p + 5) root
    (⟨true, arr, own, proto, (strings[index strs s]?).getD "undefined"⟩ :: frames) _) = _
  rw [hlisted.2]
  rfl

theorem length_container (tag tag' : UInt8) (body : Bytes) :
    (tag :: (body ++ [tag'])).length = body.length + 2 := by
  rw [List.length_cons, List.length_append, List.length_singleton]

/-- A container: its start opens a frame, its body fills the frame, its end closes it. -/
theorem runs_array {body : Bytes} {items : List Js} {ix' : List Nat}
    (h : At bytes p (tagArrayStart :: (body ++ [tagArrayEnd]))) (hstop : p + (body.length + 2) ≤ stop)
    (hbody : Runs bytes strings stop ⟨p + 1, root, ⟨false, [], [], none, ""⟩ :: frames, ix⟩
      ⟨p + 1 + body.length, root, ⟨false, items, [], none, ""⟩ :: frames, ix'⟩) :
    Runs bytes strings stop ⟨p, root, frames, ix⟩
      (State.attach ⟨p + (body.length + 2), root, frames, ix'⟩ (.array items)) := by
  have hopen : Round bytes strings stop ⟨p, root, frames, ix⟩
      ⟨p + 1, root, ⟨false, [], [], none, ""⟩ :: frames, ix⟩ := by
    refine ⟨by show p < stop; omega, Nat.lt_succ_self p, ?_⟩
    rw [step, h.head]
    rfl
  have hend : bytes[p + 1 + body.length]? = some tagArrayEnd := h.tail.right.head
  apply Relation.ReflTransGen.head hopen
  apply hbody.trans
  apply Runs.of_attach
  · show p + 1 + body.length < stop
    omega
  · show p + 1 + body.length < p + (body.length + 2)
    omega
  · have hp : p + (body.length + 2) = p + 1 + body.length + 1 := by omega
    rw [step, hend, hp]
    rfl

theorem runs_object {body : Bytes} {o : List (String × Js) × Option Js} {key : String} {ix' : List Nat}
    (h : At bytes p (tagObjectStart :: (body ++ [tagObjectEnd])))
    (hstop : p + (body.length + 2) ≤ stop)
    (hbody : Runs bytes strings stop ⟨p + 1, root, ⟨true, [], [], none, ""⟩ :: frames, ix⟩
      ⟨p + 1 + body.length, root, ⟨true, [], o.1, o.2, key⟩ :: frames, ix'⟩) :
    Runs bytes strings stop ⟨p, root, frames, ix⟩
      (State.attach ⟨p + (body.length + 2), root, frames, ix'⟩ (.object o.1 o.2)) := by
  have hopen : Round bytes strings stop ⟨p, root, frames, ix⟩
      ⟨p + 1, root, ⟨true, [], [], none, ""⟩ :: frames, ix⟩ := by
    refine ⟨by show p < stop; omega, Nat.lt_succ_self p, ?_⟩
    rw [step, h.head]
    rfl
  have hend : bytes[p + 1 + body.length]? = some tagObjectEnd := h.tail.right.head
  apply Relation.ReflTransGen.head hopen
  apply hbody.trans
  apply Runs.of_attach
  · show p + 1 + body.length < stop
    omega
  · show p + 1 + body.length < p + (body.length + 2)
    omega
  · have hp : p + (body.length + 2) = p + 1 + body.length + 1 := by omega
    rw [step, hend, hp]
    rfl

end

/-! ## The run over a value -/

section

variable (asF64 : Int → UInt64) {strs : List Bytes}

mutual

/-- **The decoder on the tokens of a value**: one value is attached, the containers around it are as
they were, and the entries looked at are the texts of the value. -/
theorem runs_visit (v : Doc) (p : Nat) (root : Js) (frames : List Frame) (ix : List Nat)
    (h : At bytes p (v.tokens asF64 strs)) (hlisted : ∀ s ∈ v.names, Listed strs strings s)
    (hstop : p + (v.tokens asF64 strs).length ≤ stop) :
    Runs bytes strings stop ⟨p, root, frames, ix⟩
      (State.attach ⟨p + (v.tokens asF64 strs).length, root, frames, ix ++ v.names.map (index strs)⟩
        (v.decoded asF64)) := by
  have hnil : ix ++ [] = ix := List.append_nil ix
  -- Scalars add no text, so the index list stays as it was.
  cases v with
  | null =>
    show Runs bytes strings stop _ (State.attach ⟨_, _, _, ix ++ []⟩ _)
    rw [hnil]
    exact runs_null h hstop
  | bool b =>
    show Runs bytes strings stop _ (State.attach ⟨_, _, _, ix ++ []⟩ _)
    rw [hnil]
    exact runs_bool h hstop
  | int v =>
    show Runs bytes strings stop _ (State.attach ⟨_, _, _, ix ++ []⟩ _)
    rw [hnil]
    exact runs_number h hstop
  | float bits =>
    show Runs bytes strings stop _ (State.attach ⟨_, _, _, ix ++ []⟩ _)
    rw [hnil]
    exact runs_number h hstop
  | string s => exact runs_string h (hlisted s (List.mem_singleton_self s)) hstop
  | array items =>
    rw [Doc.tokens] at h hstop ⊢
    rw [length_container] at hstop ⊢
    apply runs_array h hstop
    exact runs_items items (p + 1) root [] frames ix h.tail.left hlisted (by omega)
  | object members =>
    rw [Doc.tokens] at h hstop ⊢
    rw [length_container] at hstop ⊢
    obtain ⟨key, hmembers⟩ := runs_members members (p + 1) root [] [] none "" frames ix h.tail.left
      hlisted (by omega)
    exact runs_object h hstop hmembers

theorem runs_items (vs : List Doc) (p : Nat) (root : Js) (arr : List Js) (frames : List Frame)
    (ix : List Nat) (h : At bytes p (tokensItems asF64 strs vs))
    (hlisted : ∀ s ∈ namesItems vs, Listed strs strings s)
    (hstop : p + (tokensItems asF64 strs vs).length ≤ stop) :
    Runs bytes strings stop ⟨p, root, ⟨false, arr, [], none, ""⟩ :: frames, ix⟩
      ⟨p + (tokensItems asF64 strs vs).length, root,
        ⟨false, arr ++ decodedItems asF64 vs, [], none, ""⟩ :: frames,
        ix ++ (namesItems vs).map (index strs)⟩ := by
  cases vs with
  | nil =>
    rw [decodedItems, namesItems, List.map_nil, List.append_nil, List.append_nil]
    exact .refl
  | cons v vs =>
    rw [tokensItems] at h hstop ⊢
    rw [List.length_append] at hstop ⊢
    have hhead := runs_visit v p root (⟨false, arr, [], none, ""⟩ :: frames) ix h.left
      (fun s hs => hlisted s (List.mem_append_left _ hs)) (by omega)
    have htail := runs_items vs (p + (v.tokens asF64 strs).length) root (arr ++ [v.decoded asF64])
      frames (ix ++ v.names.map (index strs)) h.right
      (fun s hs => hlisted s (List.mem_append_right _ hs)) (by omega)
    simp only [List.append_assoc, List.singleton_append] at htail
    rw [decodedItems, namesItems, List.map_append, ← Nat.add_assoc]
    exact hhead.trans htail

theorem runs_members (ms : List (String × Doc)) (p : Nat) (root : Js) (arr : List Js)
    (own : List (String × Js)) (proto : Option Js) (key : String) (frames : List Frame)
    (ix : List Nat) (h : At bytes p (tokensMembers asF64 strs ms))
    (hlisted : ∀ s ∈ namesMembers ms, Listed strs strings s)
    (hstop : p + (tokensMembers asF64 strs ms).length ≤ stop) :
    ∃ key', Runs bytes strings stop ⟨p, root, ⟨true, arr, own, proto, key⟩ :: frames, ix⟩
      ⟨p + (tokensMembers asF64 strs ms).length, root,
        ⟨true, arr, (decodedMembers asF64 own proto ms).1, (decodedMembers asF64 own proto ms).2, key'⟩
          :: frames,
        ix ++ (namesMembers ms).map (index strs)⟩ := by
  cases ms with
  | nil =>
    refine ⟨key, ?_⟩
    rw [decodedMembers, namesMembers, List.map_nil, List.append_nil]
    exact .refl
  | cons m ms =>
    obtain ⟨k, v⟩ := m
    have htokens : tokensMembers asF64 strs ((k, v) :: ms) =
        (tagKey :: le32 (index strs k)) ++ (v.tokens asF64 strs ++ tokensMembers asF64 strs ms) := by
      rw [tokensMembers]
      rfl
    have hkeyLength : (tagKey :: le32 (index strs k)).length = 5 := rfl
    rw [htokens] at h hstop ⊢
    rw [List.length_append, List.length_append, hkeyLength] at hstop ⊢
    -- the key, the value, and the other members
    have hkey : Runs bytes strings stop ⟨p, root, ⟨true, arr, own, proto, key⟩ :: frames, ix⟩
        ⟨p + 5, root, ⟨true, arr, own, proto, k⟩ :: frames, ix ++ [index strs k]⟩ :=
      runs_key h.left (hlisted k List.mem_cons_self) (by omega)
    have hvalue := runs_visit v (p + 5) root (⟨true, arr, own, proto, k⟩ :: frames)
      (ix ++ [index strs k]) h.right.left
      (fun s hs => hlisted s (List.mem_cons_of_mem _ (List.mem_append_left _ hs))) (by omega)
    obtain ⟨key', hrest⟩ := runs_members ms (p + 5 + (v.tokens asF64 strs).length) root arr
      (Js.assign own proto k (v.decoded asF64)).1 (Js.assign own proto k (v.decoded asF64)).2 k frames
      (ix ++ [index strs k] ++ v.names.map (index strs)) h.right.right
      (fun s hs => hlisted s (List.mem_cons_of_mem _ (List.mem_append_right _ hs))) (by omega)
    refine ⟨key', ?_⟩
    have hindices : ix ++ (namesMembers ((k, v) :: ms)).map (index strs) =
        ix ++ [index strs k] ++ v.names.map (index strs) ++ (namesMembers ms).map (index strs) := by
      rw [namesMembers, List.map_cons, List.map_append, List.append_assoc, List.append_assoc]
      rfl
    rw [decodedMembers, hindices, ← Nat.add_assoc, ← Nat.add_assoc]
    exact (hkey.trans hvalue).trans hrest

end

end

end

/-! ## The stream -/

section

variable {bytes : Bytes} {codec : Bytes → String}

theorem utf8_eq_nil_iff {s : String} : utf8 s = [] ↔ s = "" := by
  constructor
  · intro h
    rw [← String.utf8ByteSize_eq_zero_iff]
    have hlength := congrArg List.length h
    exact hlength
  · intro h
    rw [h]
    rfl

/-- The decoder of the texts, on a text. -/
theorem fastDecodeUtf8_utf8 (hcodec : ∀ s : String, s ≠ "" → codec (utf8 s) = s) (s : String) :
    fastDecodeUtf8 codec (utf8 s) = s := by
  unfold fastDecodeUtf8
  by_cases hempty : s = ""
  · rw [if_pos (List.length_eq_zero_iff.mpr (utf8_eq_nil_iff.mpr hempty)), hempty]
  · rw [if_neg (fun h => hempty (utf8_eq_nil_iff.mp (List.length_eq_zero_iff.mp h)))]
    exact hcodec s hempty

theorem readStrings_of_at {strs : List Bytes} {p : Nat} (h : At bytes p (strs.flatMap packedComponent))
    (hsize : (strs.flatMap packedComponent).length < 2 ^ 32) :
    readStrings bytes codec strs.length p =
      .ok (strs.map (fastDecodeUtf8 codec), p + (strs.flatMap packedComponent).length) := by
  induction strs generalizing p with
  | nil => rfl
  | cons c strs ih =>
    rw [List.flatMap_cons] at h hsize ⊢
    rw [List.length_append, length_packedComponent] at hsize ⊢
    have hrest := ih h.right (by omega)
    have hlen : u32 bytes p = .ok c.length := u32_of_at h.left.left (by omega)
    have htext : (bytes.drop (p + 4)).take c.length = c :=
      (List.prefix_iff_eq_take.mp h.left.right).symm
    rw [length_packedComponent, ← Nat.add_assoc] at hrest
    rw [List.length_cons, readStrings, hlen]
    show (readStrings bytes codec strs.length (p + 4 + c.length)).map _ = _
    rw [hrest, htext, List.map_cons, ← Nat.add_assoc, ← Nat.add_assoc]
    rfl

/-- A text that the table holds is listed under its number. -/
theorem listed_of_mem {strs : List Bytes} {s : String} (hmem : utf8 s ∈ strs)
    (hcount : strs.length < 2 ^ 32) (hcodec : ∀ s : String, s ≠ "" → codec (utf8 s) = s) :
    Listed strs (strs.map (fastDecodeUtf8 codec)) s := by
  constructor
  · exact Nat.lt_trans (List.idxOf_lt_length_of_mem hmem) hcount
  · rw [List.getElem?_map, index, List.getElem?_idxOf hmem, Option.map_some,
      fastDecodeUtf8_utf8 hcodec s]

/-- **The decoder on the stream of a document.** -/
theorem decodeJsonPacked_packed {asF64 : Int → UInt64} {doc : Doc} {e : Emitter}
    (he : e = Emitter.new.visit asF64 doc) (hcodec : ∀ s : String, s ≠ "" → codec (utf8 s) = s)
    (hsize : e.packed.length ≤ 2 ^ 32) :
    decodeJsonPacked e.packed codec = .ok ⟨doc.decoded asF64, e.packed.length, e.strings.length,
      doc.names.map (index e.strings)⟩ := by
  have hemits := emits_visit asF64 doc Emitter.new
  rw [← he] at hemits
  have htable : e.table = e.strings.flatMap packedComponent := (hemits.tabled Emitter.Tabled.new).table
  have htree : e.tree = doc.tokens asF64 e.strings := hemits.tree e.strings List.prefix_rfl
  have hcount := Packed.length_flatMap_packedComponent e.strings
  have hlength : e.packed.length = 4 + (e.table.length + (4 + e.tree.length)) := by
    simp only [Emitter.packed, List.length_append, length_le32]
  rw [hlength] at hsize
  rw [← htable] at hcount
  -- The four fields of the stream.
  have hself : At e.packed 0 e.packed := List.prefix_rfl
  have hbehind := hself.right
  have hfirst : u32 e.packed 0 = .ok e.strings.length := u32_of_at hself.left (by omega)
  have hstrings : readStrings e.packed codec e.strings.length 4 =
      .ok (e.strings.map (fastDecodeUtf8 codec), 4 + e.table.length) := by
    rw [htable]
    exact readStrings_of_at (htable ▸ hbehind.left) (by rw [← htable]; omega)
  have htreeLen : u32 e.packed (4 + e.table.length) = .ok e.tree.length :=
    u32_of_at hbehind.right.left (by omega)
  have htokens : At e.packed (4 + e.table.length + 4) (doc.tokens asF64 e.strings) :=
    htree ▸ hbehind.right.right
  have hlisted : ∀ s ∈ doc.names, Listed e.strings (e.strings.map (fastDecodeUtf8 codec)) s :=
    fun s hs => listed_of_mem (hemits.known s hs) (by omega) hcodec
  -- The tokens of one value reach to the end, with no container left open.
  generalize hstop : 4 + e.table.length + 4 + e.tree.length = stop
  have hruns : Runs e.packed (e.strings.map (fastDecodeUtf8 codec)) stop
      ⟨4 + e.table.length + 4, .undefined, [], []⟩
      ⟨stop, doc.decoded asF64, [], doc.names.map (index e.strings)⟩ := by
    have hvisit := runs_visit asF64 doc (4 + e.table.length + 4) .undefined [] [] htokens hlisted
      (by rw [← htree])
    rw [← htree, hstop, List.nil_append] at hvisit
    exact hvisit
  have hloop : loop e.packed (e.strings.map (fastDecodeUtf8 codec)) stop stop
      ⟨4 + e.table.length + 4, .undefined, [], []⟩ =
      .ok ⟨stop, doc.decoded asF64, [], doc.names.map (index e.strings)⟩ :=
    loop_of_runs hruns rfl (Nat.le_add_left _ _)
  have hconsumed : e.packed.length = stop := by omega
  unfold decodeJsonPacked
  simp only [bind, Except.bind, hfirst, hstrings, htreeLen, hstop, hloop, hconsumed]
  exact if_neg (by simp)

end

end Castrum.JsonPacked
