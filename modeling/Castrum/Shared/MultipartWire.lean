import Castrum.Http.Multipart
import Castrum.Shared.PackedWire

/-!
# Castrum — packed multipart parts (`rust/http/multipart.rs`, `src/shared/packed/wire.ts`)

Rust writes a list of parts in three places: into a vector, as a length alone, and into a buffer of the
caller. TypeScript reads it. A filename and a content type stand behind a byte that says whether there
is one; a missing one has a length of zero besides.

The text decoder of the JavaScript engine is a parameter. A sum of lengths that leaves `usize` panics.

* `partsToPacked_eq` / `partsPackedLen_eq` / `partsToPackedInto_eq` — the writers by one text;
* `readPart_of_standsAt` — a part is read back where its text stands;
* `multipartParts_consistent` — the writers agree, and the reader gives the parts back.
-/

namespace Castrum

/-! ## The writers -/

/-- A filename or a content type behind its presence flag. -/
def pushFlagged (out : Bytes) : Option Bytes → Bytes
  | some f => out ++ [1] ++ le32 f.length ++ f
  | none => out ++ [0] ++ le32 0

def pushPart (out : Bytes) (p : Part) : Bytes :=
  let out := out ++ le32 p.name.length ++ p.name
  let out := pushFlagged out p.filename
  let out := pushFlagged out p.contentType
  out ++ le32 p.data.length ++ p.data

def partsToPacked (parts : List Part) (out : Bytes) : Bytes :=
  parts.foldl pushPart (out ++ le32 parts.length)

/-- `+=` on a `usize`. -/
def addSize (a b : Nat) : Except (Failure String) Nat :=
  if a + b < 2 ^ 64 then .ok (a + b) else .error .panic

def flaggedLen : Option Bytes → Nat
  | some f => 4 + f.length
  | none => 4

def addPartLen (len : Nat) (p : Part) : Except (Failure String) Nat := do
  let len ← addSize len (4 + p.name.length)
  let len ← addSize len (1 + flaggedLen p.filename)
  let len ← addSize len (1 + flaggedLen p.contentType)
  addSize len (4 + p.data.length)

def partsPackedLen (parts : List Part) : Except (Failure String) Nat := parts.foldlM addPartLen 4

def putFlagged (o : Out UInt8) : Option Bytes → Option (Out UInt8)
  | some f => do
    let o ← o.put [1]
    let o ← o.put (le32 f.length)
    o.put f
  | none => do
    let o ← o.put [0]
    o.put (le32 0)

def writePart (o : Out UInt8) (p : Part) : Option (Out UInt8) := do
  let o ← o.put (le32 p.name.length)
  let o ← o.put p.name
  let o ← putFlagged o p.filename
  let o ← putFlagged o p.contentType
  let o ← o.put (le32 p.data.length)
  o.put p.data

/-- The size that was needed, if there was room, and the buffer. -/
def partsToPackedInto (parts : List Part) (out : Bytes) :
    Except (Failure String) (Option Nat × Bytes) := do
  let needed ← partsPackedLen parts
  if out.length < needed then .ok (none, out)
  else do
    let o ← orFail .panic ((Out.new out).put (le32 parts.length))
    let o ← orFail .panic (parts.foldlM writePart o)
    .ok (some needed, o.bytes)

/-- The same boundary for all bodies. -/
def multipartParseBatchPacked (pool : WorkerPool) (data boundary : Bytes) :
    Except (Failure String) Bytes :=
  runPackedBatch pool data fun body => partsToPacked (parseMultipart body boundary) []

/-! ## The reader -/

/-- A part as JavaScript sees it. -/
structure MultipartPart where
  name : String
  filename : Option String
  contentType : Option String
  data : Bytes
  deriving DecidableEq, Repr

namespace PackedWire

variable (decode : Bytes → String) (bytes : Bytes)

/-- A flag, a length, and the text if the flag is set. -/
def readFlagged (offset : Nat) : Except String (Option String × Nat) := do
  let present := bytes[offset]?.getD 0
  let len ← readU32 bytes (offset + 1)
  let text ← readSlice bytes (offset + 1 + 4) len
  .ok (if present ≠ 0 then some (decode text) else none, offset + 1 + 4 + len)

def readPart (offset : Nat) : Except String (MultipartPart × Nat) := do
  let nameLen ← readU32 bytes offset
  let name ← readSlice bytes (offset + 4) nameLen
  let (filename, offset) ← readFlagged decode bytes (offset + 4 + nameLen)
  let (contentType, offset) ← readFlagged decode bytes offset
  let dataLen ← readU32 bytes offset
  let data ← readSlice bytes (offset + 4) dataLen
  .ok ({ name := decode name, filename, contentType, data }, offset + 4 + dataLen)

def readParts : Nat → Nat → Except String (List MultipartPart)
  | 0, _ => .ok []
  | n + 1, offset => do
    let (part, offset) ← readPart decode bytes offset
    let parts ← readParts n offset
    .ok (part :: parts)

def readMultipartPartsPacked : Except String (List MultipartPart) :=
  if bytes.length < 4 then .ok []
  else do
    let count ← readU32 bytes 0
    readParts decode bytes count 4

def unpackMultipartFrom : Nat → Nat → Except String (List (List MultipartPart))
  | 0, _ => .ok []
  | n + 1, offset => do
    let partsLen ← readU32 bytes offset
    let partsBytes ← readSlice bytes (offset + 4) partsLen
    let parts ← readMultipartPartsPacked decode partsBytes
    let out ← unpackMultipartFrom n (offset + 4 + partsLen)
    .ok (parts :: out)

def unpackMultipartParts : Except String (List (List MultipartPart)) :=
  if bytes.length < 4 then .ok []
  else do
    let itemCount ← readU32 bytes 0
    unpackMultipartFrom decode bytes itemCount 4

end PackedWire

/-! ## One text -/

def flaggedText : Option Bytes → Bytes
  | some f => 1 :: packedComponent f
  | none => 0 :: le32 0

def partText (p : Part) : Bytes :=
  packedComponent p.name ++ (flaggedText p.filename ++
    (flaggedText p.contentType ++ packedComponent p.data))

def partsText (parts : List Part) : Bytes := le32 parts.length ++ parts.flatMap partText

theorem length_flaggedText (f : Option Bytes) : (flaggedText f).length = 1 + flaggedLen f := by
  cases f with
  | none => rfl
  | some f => rw [flaggedText, List.length_cons, length_packedComponent, flaggedLen, Nat.add_comm]

theorem length_partText (p : Part) : (partText p).length =
    4 + p.name.length + (1 + flaggedLen p.filename) + (1 + flaggedLen p.contentType) +
      (4 + p.data.length) := by
  simp only [partText, List.length_append, length_packedComponent, length_flaggedText]
  omega

theorem pushFlagged_eq (out : Bytes) (f : Option Bytes) :
    pushFlagged out f = out ++ flaggedText f := by
  cases f with
  | none => rw [pushFlagged, List.append_assoc]; rfl
  | some f => rw [pushFlagged, List.append_assoc, List.append_assoc]; rfl

theorem pushPart_eq (out : Bytes) (p : Part) : pushPart out p = out ++ partText p := by
  rw [pushPart, pushFlagged_eq, pushFlagged_eq, partText]
  simp only [packedComponent, List.append_assoc]

/-- **The vector.** -/
theorem partsToPacked_eq (parts : List Part) (out : Bytes) :
    partsToPacked parts out = out ++ partsText parts := by
  have hloop : ∀ (parts : List Part) (out : Bytes),
      parts.foldl pushPart out = out ++ parts.flatMap partText := by
    intro parts
    induction parts with
    | nil =>
      intro out
      exact (List.append_nil out).symm
    | cons p parts ih =>
      intro out
      rw [List.foldl_cons, ih, pushPart_eq, List.flatMap_cons, List.append_assoc]
  rw [partsToPacked, hloop, partsText, List.append_assoc]

theorem addPartLen_eq (len : Nat) (p : Part) :
    addPartLen len p =
      if len + (partText p).length < 2 ^ 64 then .ok (len + (partText p).length)
      else .error .panic := by
  have hadd : ∀ a b, a + b < 2 ^ 64 → addSize a b = .ok (a + b) := fun a b h => if_pos h
  have hpanic : ∀ a b, ¬ a + b < 2 ^ 64 → addSize a b = .error .panic := fun a b h => if_neg h
  rw [length_partText, addPartLen]
  -- the first sum that leaves the range ends it
  by_cases hname : len + (4 + p.name.length) < 2 ^ 64
  · rw [hadd _ _ hname, ok_bind]
    by_cases hfile : len + (4 + p.name.length) + (1 + flaggedLen p.filename) < 2 ^ 64
    · rw [hadd _ _ hfile, ok_bind]
      by_cases htype : len + (4 + p.name.length) + (1 + flaggedLen p.filename) +
          (1 + flaggedLen p.contentType) < 2 ^ 64
      · rw [hadd _ _ htype, ok_bind, addSize]
        simp only [Nat.add_assoc]
      · rw [hpanic _ _ htype, if_neg (by omega)]
        rfl
    · rw [hpanic _ _ hfile, if_neg (by omega)]
      rfl
  · rw [hpanic _ _ hname, if_neg (by omega)]
    rfl

/-- **The length**, if it is one. -/
theorem partsPackedLen_eq (parts : List Part) :
    partsPackedLen parts =
      if (partsText parts).length < 2 ^ 64 then .ok (partsText parts).length
      else .error .panic := by
  have hloop : ∀ (parts : List Part) (len : Nat), len < 2 ^ 64 →
      parts.foldlM addPartLen len =
        if len + (parts.flatMap partText).length < 2 ^ 64 then
          .ok (len + (parts.flatMap partText).length)
        else .error .panic := by
    intro parts
    induction parts with
    | nil =>
      intro len hlen
      exact (if_pos hlen).symm
    | cons p parts ih =>
      intro len hlen
      rw [List.foldlM_cons, addPartLen_eq, List.flatMap_cons, List.length_append, ← Nat.add_assoc]
      by_cases hp : len + (partText p).length < 2 ^ 64
      · rw [if_pos hp, ok_bind, ih _ hp]
      · rw [if_neg hp, if_neg (by omega)]
        rfl
  rw [partsPackedLen, hloop parts 4 (by decide), partsText, List.length_append, length_le32]

section

variable (o : Out UInt8)

theorem putFlagged_eq (f : Option Bytes) : putFlagged o f = o.put (flaggedText f) := by
  cases f with
  | none => exact o.put_put [0] (le32 0)
  | some f =>
    show ((o.put [1]).bind fun o => (o.put (le32 f.length)).bind fun o => o.put f) = _
    rw [o.put_bind_put, Out.put_put, List.append_assoc]
    rfl

theorem writePart_eq (p : Part) : writePart o p = o.put (partText p) := by
  show ((o.put (le32 p.name.length)).bind fun o => (o.put p.name).bind fun o =>
    (putFlagged o p.filename).bind fun o => (putFlagged o p.contentType).bind fun o =>
      (o.put (le32 p.data.length)).bind fun o => o.put p.data) = _
  simp only [putFlagged_eq, Out.put_put]
  simp only [partText, packedComponent, List.append_assoc]

theorem foldlM_writePart (parts : List Part) :
    parts.foldlM writePart o = o.put (parts.flatMap partText) := by
  induction parts generalizing o with
  | nil => exact (Out.put_nil o).symm
  | cons p parts ih =>
    rw [List.foldlM_cons, List.flatMap_cons, ← Out.put_put, writePart_eq]
    exact congrArg (Option.bind _) (funext fun o => ih o)

end

/-- **The buffer of the caller.** -/
theorem partsToPackedInto_eq {parts : List Part} (hsize : (partsText parts).length < 2 ^ 64)
    (out : Bytes) :
    partsToPackedInto parts out =
      if out.length < (partsText parts).length then .ok (none, out)
      else .ok (some (partsText parts).length, partsText parts ++ out.drop (partsText parts).length) := by
  rw [partsToPackedInto, partsPackedLen_eq, if_pos hsize, ok_bind]
  by_cases hroom : out.length < (partsText parts).length
  · rw [if_pos hroom, if_pos hroom]
  · rw [if_neg hroom, if_neg hroom]
    have hput : ((Out.new out).put (le32 parts.length)).bind (·.put (parts.flatMap partText)) =
        some ⟨partsText parts, out.drop (partsText parts).length⟩ := by
      rw [Out.put_put, Out.put_of_le (Nat.le_of_not_lt hroom)]
      rfl
    obtain ⟨o, hcount, hparts⟩ := Option.bind_eq_some_iff.mp hput
    rw [hcount, orFail_some, ok_bind, foldlM_writePart, hparts]
    rfl

/-! ## Reading it back -/

/-- The lengths of a part fit their fields. -/
structure Part.Packs (p : Part) : Prop where
  name : p.name.length < 2 ^ 32
  filename : ∀ f ∈ p.filename, f.length < 2 ^ 32
  contentType : ∀ c ∈ p.contentType, c.length < 2 ^ 32
  data : p.data.length < 2 ^ 32

/-- The part in the engine's text. -/
def Part.decoded (decode : Bytes → String) (p : Part) : MultipartPart where
  name := decode p.name
  filename := p.filename.map decode
  contentType := p.contentType.map decode
  data := p.data

namespace PackedWire

open Packed

variable {decode : Bytes → String} {bytes : Bytes} {offset : Nat}

theorem readU32_of_standsAt {n : Nat} (h : StandsAt bytes offset (le32 n)) (hn : n < 2 ^ 32) :
    readU32 bytes offset = .ok n := by
  rw [readU32, h.readU32, Nat.mod_eq_of_lt hn, orFail_some]

theorem readSlice_of_standsAt {text : Bytes} (h : StandsAt bytes offset text) :
    readSlice bytes offset text.length = .ok text := by
  rw [readSlice, h.readBytes, orFail_some]

/-- A component behind its length. -/
theorem readComponent_of_standsAt {c : Bytes} (h : StandsAt bytes offset (packedComponent c))
    (hc : c.length < 2 ^ 32) :
    readU32 bytes offset = .ok c.length ∧ readSlice bytes (offset + 4) c.length = .ok c :=
  ⟨readU32_of_standsAt h.left hc, readSlice_of_standsAt h.right⟩

theorem readFlagged_of_component {flag : UInt8} {c : Bytes}
    (h : StandsAt bytes offset ([flag] ++ packedComponent c)) (hc : c.length < 2 ^ 32) :
    readFlagged decode bytes offset =
      .ok (if flag ≠ 0 then some (decode c) else none, offset + 1 + 4 + c.length) := by
  obtain ⟨hlen, htext⟩ := readComponent_of_standsAt h.right hc
  rw [List.length_singleton] at hlen htext
  rw [readFlagged, h.left.getElem?, hlen, ok_bind, htext, ok_bind]
  rfl

theorem readFlagged_of_standsAt {f : Option Bytes} (h : StandsAt bytes offset (flaggedText f))
    (hf : ∀ t ∈ f, t.length < 2 ^ 32) :
    readFlagged decode bytes offset = .ok (f.map decode, offset + (flaggedText f).length) := by
  cases f with
  | none =>
    -- a missing text is announced as an empty one
    have hnone : StandsAt bytes offset ([0] ++ packedComponent []) := h
    exact readFlagged_of_component hnone (by decide)
  | some f =>
    have hsome : StandsAt bytes offset ([1] ++ packedComponent f) := h
    rw [readFlagged_of_component hsome (hf f rfl), if_pos (by decide), length_flaggedText,
      flaggedLen, Nat.add_assoc, Nat.add_assoc]
    rfl

/-- **A part is read back** where its text stands. -/
theorem readPart_of_standsAt {p : Part} (h : StandsAt bytes offset (partText p)) (hp : p.Packs) :
    readPart decode bytes offset = .ok (p.decoded decode, offset + (partText p).length) := by
  have hname := h.left
  have hfile := h.right.left
  have htype := h.right.right.left
  have hdata := h.right.right.right
  obtain ⟨hnameLen, hname⟩ := readComponent_of_standsAt hname hp.name
  rw [length_packedComponent, ← Nat.add_assoc] at hfile htype hdata
  obtain ⟨hdataLen, hdata⟩ := readComponent_of_standsAt hdata hp.data
  rw [readPart, hnameLen, ok_bind, hname, ok_bind, readFlagged_of_standsAt hfile hp.filename, ok_bind]
  dsimp only
  rw [readFlagged_of_standsAt htype hp.contentType, ok_bind]
  dsimp only
  rw [hdataLen, ok_bind, hdata, ok_bind, Part.decoded]
  congr 2
  rw [partText]
  simp only [List.length_append, length_packedComponent]
  omega

theorem readParts_of_standsAt {parts : List Part} (h : StandsAt bytes offset (parts.flatMap partText))
    (hparts : ∀ p ∈ parts, p.Packs) :
    readParts decode bytes parts.length offset = .ok (parts.map (·.decoded decode)) := by
  induction parts generalizing offset with
  | nil => rfl
  | cons p parts ih =>
    obtain ⟨hp, hrest⟩ := List.forall_mem_cons.mp hparts
    rw [List.flatMap_cons] at h
    rw [List.length_cons, readParts, readPart_of_standsAt h.left hp, ok_bind]
    dsimp only
    rw [ih h.right hrest, ok_bind, List.map_cons]

theorem readMultipartPartsPacked_partsText {parts : List Part} (hcount : parts.length < 2 ^ 32)
    (hparts : ∀ p ∈ parts, p.Packs) :
    readMultipartPartsPacked decode (partsText parts) = .ok (parts.map (·.decoded decode)) := by
  have hall : StandsAt (partsText parts) 0 (le32 parts.length ++ parts.flatMap partText) :=
    ⟨Nat.zero_le _, List.prefix_refl _⟩
  have hlength : ¬ (partsText parts).length < 4 := by
    rw [partsText, List.length_append, length_le32]
    omega
  rw [readMultipartPartsPacked, if_neg hlength, readU32_of_standsAt hall.left hcount, ok_bind]
  exact readParts_of_standsAt hall.right hparts

/-! ## Batches of part lists -/

/-- A list of parts that is short enough for a frame has no field that is too long. -/
theorem packs_of_partsText {parts : List Part} (h : (partsText parts).length < 2 ^ 32) :
    parts.length < 2 ^ 32 ∧ ∀ p ∈ parts, p.Packs := by
  have hflagged : ∀ f : Option Bytes, ∀ t ∈ f, t.length ≤ flaggedLen f := by
    rintro f t rfl
    exact Nat.le_add_left _ _
  have hcount : ∀ parts : List Part, parts.length ≤ (parts.flatMap partText).length := by
    intro parts
    induction parts with
    | nil => exact Nat.le_refl 0
    | cons p parts ih =>
      rw [List.flatMap_cons, List.length_append, List.length_cons, length_partText]
      omega
  rw [partsText, List.length_append, length_le32] at h
  refine ⟨by have := hcount parts; omega, fun p hp => ?_⟩
  have hle : (partText p).length ≤ (parts.flatMap partText).length :=
    (List.sublist_flatten_of_mem (List.mem_map_of_mem hp)).length_le
  rw [length_partText] at hle
  exact ⟨by omega, fun f hf => by have := hflagged _ f hf; omega,
    fun c hc => by have := hflagged _ c hc; omega, by omega⟩

theorem unpackMultipartFrom_of_standsAt {lists : List (List Part)}
    (h : StandsAt bytes offset ((lists.map partsText).flatMap packedComponent))
    (hlists : ∀ parts ∈ lists, (partsText parts).length < 2 ^ 32) :
    unpackMultipartFrom decode bytes lists.length offset =
      .ok (lists.map fun parts => parts.map (·.decoded decode)) := by
  induction lists generalizing offset with
  | nil => rfl
  | cons parts lists ih =>
    obtain ⟨hparts, hrest⟩ := List.forall_mem_cons.mp hlists
    obtain ⟨hcount, hpacks⟩ := packs_of_partsText hparts
    rw [List.map_cons, List.flatMap_cons] at h
    obtain ⟨hlen, hslice⟩ := readComponent_of_standsAt h.left hparts
    have hbehind := h.right
    rw [length_packedComponent, ← Nat.add_assoc] at hbehind
    rw [List.length_cons, unpackMultipartFrom, hlen, ok_bind, hslice, ok_bind,
      readMultipartPartsPacked_partsText hcount hpacks, ok_bind, ih hbehind hrest, ok_bind,
      List.map_cons]

theorem unpackMultipartParts_packedFrame {lists : List (List Part)} (hcount : lists.length < 2 ^ 32)
    (hlists : ∀ parts ∈ lists, (partsText parts).length < 2 ^ 32) :
    unpackMultipartParts decode (packedFrame (lists.map partsText)) =
      .ok (lists.map fun parts => parts.map (·.decoded decode)) := by
  have hall : StandsAt (packedFrame (lists.map partsText)) 0
      (le32 lists.length ++ (lists.map partsText).flatMap packedComponent) := by
    refine ⟨Nat.zero_le _, ?_⟩
    rw [packedFrame, List.length_map]
    exact List.prefix_refl _
  have hlength : ¬ (packedFrame (lists.map partsText)).length < 4 := by
    rw [packedFrame, List.length_append, length_le32]
    omega
  rw [unpackMultipartParts, if_neg hlength, readU32_of_standsAt hall.left hcount, ok_bind]
  exact unpackMultipartFrom_of_standsAt hall.right hlists

/-- **Packed parts, end to end.** If the packed size is a `usize`, the length is that of the vector, and
a buffer gets the bytes of the vector if it is large enough, and is left alone if not. If the number of
parts and their lengths fit their fields, the reader gives the parts back, each text as the decoder
reads it; and so for a batch of bodies, by any workers. -/
theorem multipartParts_consistent (decode : Bytes → String) :
    (∀ parts out, (partsToPacked parts []).length < 2 ^ 64 →
      partsPackedLen parts = .ok (partsToPacked parts []).length ∧
      ((partsToPacked parts []).length ≤ out.length → partsToPackedInto parts out =
        .ok (some (partsToPacked parts []).length,
          partsToPacked parts [] ++ out.drop (partsToPacked parts []).length)) ∧
      (out.length < (partsToPacked parts []).length →
        partsToPackedInto parts out = .ok (none, out))) ∧
    (∀ parts : List Part, parts.length < 2 ^ 32 → (∀ p ∈ parts, p.Packs) →
      readMultipartPartsPacked decode (partsToPacked parts []) =
        .ok (parts.map (·.decoded decode))) ∧
    (∀ pool data boundary, WellFormed data →
      (∀ body ∈ items data,
        (partsToPacked (parseMultipart body boundary) []).length < 2 ^ 32) →
      ∃ out, multipartParseBatchPacked pool data boundary = .ok out ∧
        unpackMultipartParts decode out = .ok ((items data).map fun body =>
          (parseMultipart body boundary).map (·.decoded decode))) := by
  simp only [partsToPacked_eq, List.nil_append]
  refine ⟨fun parts out hsize => ⟨?_, fun hroom => ?_, fun hroom => ?_⟩,
    fun parts => readMultipartPartsPacked_partsText, fun pool data boundary hwell hshort => ?_⟩
  · rw [partsPackedLen_eq, if_pos hsize]
  · rw [partsToPackedInto_eq hsize, if_neg (Nat.not_lt.mpr hroom)]
  · rw [partsToPackedInto_eq hsize, if_pos hroom]
  · -- a batch: one frame of parts for each body, in order
    have hcount : ((items data).map (parseMultipart · boundary)).length < 2 ^ 32 := by
      rw [List.length_map, hwell.2]
      exact declared_lt data
    have hlists : ∀ parts ∈ (items data).map (parseMultipart · boundary),
        (partsText parts).length < 2 ^ 32 := by
      intro parts hparts
      obtain ⟨body, hbody, rfl⟩ := List.mem_map.mp hparts
      exact hshort body hbody
    have hread : unpackMultipartParts decode _ = _ :=
      unpackMultipartParts_packedFrame hcount hlists
    rw [List.map_map, List.map_map] at hread
    refine ⟨_, ?_, hread⟩
    rw [multipartParseBatchPacked, runPackedBatch_of_wellFormed pool hwell]
    simp only [partsToPacked_eq, List.nil_append]
    rfl

/-- The text of bytes that are ASCII. -/
def asciiText (bytes : Bytes) : String := String.ofList (bytes.map fun b => Char.ofNat b.toNat)

/-- A part with a filename and no content type. -/
def packedSample : List Part :=
  [{ name := [97], filename := some [98, 99], contentType := none, data := [0, 255] }]

theorem multipartParts_consistent_sample :
    partsPackedLen packedSample = .ok 27 ∧
      partsToPackedInto packedSample (List.replicate 26 7) = .ok (none, List.replicate 26 7) ∧
      readMultipartPartsPacked asciiText (partsToPacked packedSample []) =
        .ok [{ name := "a", filename := some "bc", contentType := none, data := [0, 255] }] := by
  obtain ⟨hwrite, hread, -⟩ := multipartParts_consistent asciiText
  obtain ⟨hlen, -, hsmall⟩ := hwrite packedSample (List.replicate 26 7) (by decide)
  exact ⟨hlen, hsmall (by decide),
    hread packedSample (by decide) fun p hp => by
      obtain rfl := List.mem_singleton.mp hp
      exact ⟨by decide, by decide, by decide, by decide⟩⟩

/-! ## A part that is too long -/

theorem readPart_data_lt {decode : Bytes → String} {bytes : Bytes} {offset : Nat}
    {r : MultipartPart × Nat} (h : readPart decode bytes offset = .ok r) :
    r.1.data.length < 2 ^ 32 := by
  rw [readPart] at h
  simp only [bind_eq_ok_iff] at h
  obtain ⟨nameLen, -, name, -, filename, -, contentType, -, dataLen, hlen, data, hdata, h⟩ := h
  rw [Except.ok.injEq] at h
  rw [readU32, orFail_eq_ok_iff] at hlen
  rw [readSlice, orFail_eq_ok_iff] at hdata
  rw [← h]
  show data.length < 2 ^ 32
  rw [length_readBytes hdata]
  exact readWord_lt hlen

/-- No part is read with more data than its field can announce. -/
theorem readParts_data_lt {decode : Bytes → String} {bytes : Bytes} {n offset : Nat}
    {parts : List MultipartPart} (h : readParts decode bytes n offset = .ok parts) :
    ∀ p ∈ parts, p.data.length < 2 ^ 32 := by
  induction n generalizing offset parts with
  | zero =>
    rw [readParts, Except.ok.injEq] at h
    rw [← h]
    exact fun p hp => absurd hp List.not_mem_nil
  | succ n ih =>
    rw [readParts] at h
    simp only [bind_eq_ok_iff] at h
    obtain ⟨r, hpart, rest, hrest, h⟩ := h
    rw [Except.ok.injEq] at h
    rw [← h]
    exact List.forall_mem_cons.mpr ⟨readPart_data_lt hpart, ih hrest⟩

/-- A part of `n` zeros. -/
def zerosPart (n : Nat) : Part :=
  { name := [97], filename := none, contentType := none, data := List.replicate n 0 }

/-- The data of a part that has `2 ^ 32` bytes are not read back. -/
theorem readMultipartPartsPacked_loses_huge :
    readMultipartPartsPacked asciiText (partsToPacked [zerosPart (2 ^ 32)] []) ≠
      .ok [(zerosPart (2 ^ 32)).decoded asciiText] := by
  intro h
  rw [readMultipartPartsPacked] at h
  split at h
  · cases h
  · rw [bind_eq_ok_iff] at h
    obtain ⟨count, -, h⟩ := h
    have hlt := readParts_data_lt h _ List.mem_cons_self
    rw [Part.decoded, zerosPart, List.length_replicate] at hlt
    exact Nat.lt_irrefl _ hlt

end PackedWire

end Castrum
