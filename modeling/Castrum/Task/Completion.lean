import Castrum.Lib.Output
import Castrum.Task.Runtime
import Castrum.Util.Wire

/-!
# Castrum — the completion ring (`rust/task/completion.rs`, `drainNow` in `src/task/runtime.ts`)

Finished tasks wait in a ring until JavaScript drains them all at once, as
`[u32 count]{[u64 id][u32 status][u32 len][body]}`. A buffer that is too small learns the exact size
and nothing is taken.

* `drain_eq` — what a drain writes, by the size of the buffer;
* `parseDrained_drain` — what `drainNow` reads out of the buffer is the ring, in order.
-/

namespace Castrum.Completions

open Castrum.Task (Status)

/-- `STATUS_OK` … `STATUS_UNSUPPORTED`. -/
def statusCode : Status → Nat
  | .ok => 0
  | .error => 1
  | .cancelled => 2
  | .tooSmall => 3
  | .unsupported => 4

/-- One finished task. -/
structure Completion where
  id : Nat
  status : Status
  body : Bytes
  deriving DecidableEq

/-- The size of a drain of everything. -/
def needed (ring : List Completion) : Nat := ring.foldl (fun n c => n + (16 + c.body.length)) 4

/-- One entry, from its offset on: the offset behind it, and the buffer. -/
def writeEntry (r : Nat × Bytes) (c : Completion) : Nat × Bytes :=
  let out := placed r.2 r.1 (le64 c.id)
  let out := placed out (r.1 + 8) (le32 (statusCode c.status))
  let out := placed out (r.1 + 12) (le32 c.body.length)
  (r.1 + 16 + c.body.length, placed out (r.1 + 16) c.body)

/-- `drain`: the size that is returned, the buffer and the ring behind it. -/
def drain (ring : List Completion) (out : Bytes) : Nat × Bytes × List Completion :=
  if ring = [] then (0, out, ring)
  else if out.length < needed ring then (needed ring, out, ring)
  else (needed ring, (ring.foldl writeEntry (4, placed out 0 (le32 ring.length))).2, [])

/-- `castrum_task_drain`: nothing is drained into a null pointer. -/
def castrumTaskDrain (ring : List Completion) (out : Option Bytes) : Nat × Bytes × List Completion :=
  match out with
  | none => (0, [], ring)
  | some out => drain ring out

/-! ## What JavaScript reads -/

/-- What `drainNow` reads of one entry. -/
structure Drained where
  id : Nat
  status : Nat
  body : Bytes
  deriving DecidableEq

/-- `readU64At`, which is exact below `2 ^ 53`. -/
def readU64At (view : Bytes) (off : Nat) : Option Nat := do
  let low ← readU32 view off
  let high ← readU32 view (off + 4)
  some (low + high * 4294967296)

/-- The loop of `drainNow` over the entries of a view. -/
def readEntries (view : Bytes) : Nat → Nat → Option (List Drained)
  | 0, _ => some []
  | count + 1, off => do
    let id ← readU64At view off
    let status ← readU32 view (off + 8)
    let len ← readU32 view (off + 12)
    let body ← readBytes view (off + 16) len
    let rest ← readEntries view count (off + 16 + len)
    some (⟨id, status, body⟩ :: rest)

/-- One round of `drainNow`: what the buffer holds after a drain that returned `written`. There is
nothing below four bytes, and the buffer was too small if it is shorter. -/
def parseDrained (written : Nat) (out : Bytes) : Option (List Drained) :=
  if written < 4 ∨ out.length < written then some []
  else (readU32 (out.take written) 0).bind fun count => readEntries (out.take written) count 4

def Completion.drained (c : Completion) : Drained := ⟨c.id, statusCode c.status, c.body⟩

/-! ## The bytes of a ring -/

def entryText (c : Completion) : Bytes :=
  le64 c.id ++ (le32 (statusCode c.status) ++ (le32 c.body.length ++ c.body))

def ringText (ring : List Completion) : Bytes := le32 ring.length ++ ring.flatMap entryText

theorem length_entryText (c : Completion) : (entryText c).length = 16 + c.body.length := by
  simp only [entryText, List.length_append, length_le64, length_le32]
  omega

theorem needed_eq (ring : List Completion) : needed ring = (ringText ring).length := by
  have hfold : ∀ n, ring.foldl (fun n c => n + (16 + c.body.length)) n =
      n + (ring.flatMap entryText).length := by
    induction ring with
    | nil => exact fun n => rfl
    | cons c ring ih =>
      intro n
      rw [List.foldl_cons, ih, List.flatMap_cons, List.length_append, length_entryText]
      omega
  rw [needed, hfold, ringText, List.length_append, length_le32]

theorem le_needed {ring : List Completion} {c : Completion} (h : c ∈ ring) :
    20 + c.body.length ≤ needed ring := by
  have hsub : (entryText c).length ≤ (ring.flatMap entryText).length := by
    induction ring with
    | nil => exact absurd h List.not_mem_nil
    | cons d ring ih =>
      rw [List.flatMap_cons, List.length_append]
      rcases List.mem_cons.mp h with rfl | h
      · exact Nat.le_add_right _ _
      · exact Nat.le_trans (ih h) (Nat.le_add_left _ _)
  rw [needed_eq, ringText, List.length_append, length_le32]
  rw [length_entryText] at hsub
  omega

theorem length_le_needed (ring : List Completion) : 4 + 16 * ring.length ≤ needed ring := by
  have hlen : 16 * ring.length ≤ (ring.flatMap entryText).length := by
    induction ring with
    | nil => exact Nat.zero_le _
    | cons c ring ih =>
      rw [List.flatMap_cons, List.length_append, length_entryText, List.length_cons]
      omega
  rw [needed_eq, ringText, List.length_append, length_le32]
  omega

theorem writeEntry_appends {r : Nat × Bytes} {c : Completion}
    (h : r.1 + (16 + c.body.length) ≤ r.2.length) : Appends r (writeEntry r c) (entryText c) := by
  obtain ⟨off, out⟩ := r
  change off + (16 + c.body.length) ≤ out.length at h
  have hid : off + (le64 c.id).length ≤ out.length := by
    rw [length_le64]
    omega
  have hstatus : off + 8 + (le32 (statusCode c.status)).length ≤ (placed out off (le64 c.id)).length := by
    rw [length_placed hid, length_le32]
    omega
  have hlen : off + 12 + (le32 c.body.length).length ≤
      (placed (placed out off (le64 c.id)) (off + 8) (le32 (statusCode c.status))).length := by
    rw [length_placed hstatus, length_placed hid, length_le32]
    omega
  have hbody : off + 16 + c.body.length ≤
      (placed (placed (placed out off (le64 c.id)) (off + 8) (le32 (statusCode c.status))) (off + 12)
        (le32 c.body.length)).length := by
    rw [length_placed hlen, length_placed hstatus, length_placed hid]
    omega
  exact (Appends.placed hid).trans ((Appends.placed hstatus).trans
    ((Appends.placed hlen).trans (Appends.placed hbody)))

theorem length_writeEntry {r : Nat × Bytes} {c : Completion}
    (h : r.1 + (16 + c.body.length) ≤ r.2.length) : (writeEntry r c).2.length = r.2.length := by
  obtain ⟨off, out⟩ := r
  change off + (16 + c.body.length) ≤ out.length at h
  have hid : (placed out off (le64 c.id)).length = out.length :=
    length_placed (by rw [length_le64]; omega)
  have hstatus : (placed (placed out off (le64 c.id)) (off + 8) (le32 (statusCode c.status))).length =
      out.length := (length_placed (by rw [hid, length_le32]; omega)).trans hid
  have hlen : (placed (placed (placed out off (le64 c.id)) (off + 8) (le32 (statusCode c.status)))
      (off + 12) (le32 c.body.length)).length = out.length :=
    (length_placed (by rw [hstatus, length_le32]; omega)).trans hstatus
  exact (length_placed (by rw [hlen]; omega)).trans hlen

theorem writeEntries_appends (ring : List Completion) {r : Nat × Bytes}
    (h : r.1 + (ring.flatMap entryText).length ≤ r.2.length) :
    Appends r (ring.foldl writeEntry r) (ring.flatMap entryText) ∧
      (ring.foldl writeEntry r).2.length = r.2.length := by
  induction ring generalizing r with
  | nil => exact ⟨Appends.refl (by simpa using h), rfl⟩
  | cons c ring ih =>
    rw [List.flatMap_cons, List.length_append, length_entryText] at h
    have hone : r.1 + (16 + c.body.length) ≤ r.2.length := by omega
    have hentry := writeEntry_appends hone
    have hlength := length_writeEntry hone
    have hrest : (writeEntry r c).1 + (ring.flatMap entryText).length ≤ (writeEntry r c).2.length := by
      rw [hentry.next, length_entryText, hlength]
      omega
    obtain ⟨happends, hsize⟩ := ih hrest
    rw [List.foldl_cons, List.flatMap_cons]
    exact ⟨hentry.trans happends, hsize.trans hlength⟩

/-- **What a drain does**, by the size of the buffer: it takes all or nothing. -/
theorem drain_eq (ring : List Completion) (out : Bytes) :
    (ring = [] → drain ring out = (0, out, [])) ∧
    (ring ≠ [] → out.length < needed ring → drain ring out = (needed ring, out, ring)) ∧
    (ring ≠ [] → needed ring ≤ out.length →
      (drain ring out).1 = needed ring ∧ (drain ring out).2.2 = [] ∧
      (drain ring out).2.1.length = out.length ∧
      (drain ring out).2.1.take (needed ring) = ringText ring) := by
  unfold drain
  refine ⟨fun hnil => by rw [if_pos hnil, hnil], fun hne hsmall => ?_, fun hne hroom => ?_⟩
  · rw [if_neg hne, if_pos hsmall]
  -- The count and the entries are written one behind the other, and together they are the text of
  -- the ring.
  · have hcount : (le32 ring.length).length ≤ out.length := by
      have hmin := length_le_needed ring
      rw [length_le32]
      omega
    have hfirst : (placed out 0 (le32 ring.length)).length = out.length :=
      length_placed (by omega)
    have hsize : needed ring = 4 + (ring.flatMap entryText).length := by
      rw [needed_eq, ringText, List.length_append, length_le32]
    have hfits : 4 + (ring.flatMap entryText).length ≤ (placed out 0 (le32 ring.length)).length := by
      omega
    obtain ⟨happends, hlength⟩ :=
      writeEntries_appends ring (r := (4, placed out 0 (le32 ring.length))) hfits
    have hcount' : 0 + (le32 ring.length).length ≤ out.length := by omega
    have hstart := Appends.placed hcount'
    have hall : Appends (0, out) (ring.foldl writeEntry (4, placed out 0 (le32 ring.length)))
        (ringText ring) := hstart.trans happends
    rw [if_neg hne, if_neg (Nat.not_lt.mpr hroom)]
    refine ⟨rfl, rfl, hlength.trans hfirst, ?_⟩
    have htake := hall.take
    rw [hall.next, ← needed_eq, Nat.zero_add, List.take_zero, List.nil_append] at htake
    exact htake

/-! ## Reading them back -/

theorem readU64At_append {n : Nat} (h : n < 2 ^ 64) (before behind : Bytes) :
    readU64At (before ++ (le64 n ++ behind)) before.length = some n := by
  have hlow := readU32_append n before (le32 (n / 2 ^ 32) ++ behind)
  have hhigh := readU32_append (n / 2 ^ 32) (before ++ le32 n) behind
  rw [List.length_append, length_le32] at hhigh
  simp only [List.append_assoc] at hhigh
  unfold readU64At
  rw [le64, List.append_assoc, hlow, hhigh]
  show some (n % 2 ^ 32 + n / 2 ^ 32 % 2 ^ 32 * 4294967296) = some n
  congr 1
  omega

theorem statusCode_lt (s : Status) : statusCode s < 2 ^ 32 := by
  cases s <;> decide

/-- An entry can be written so that it is read back: its id and its size fit their fields. -/
def Completion.Fits (c : Completion) : Prop := c.id < 2 ^ 64 ∧ c.body.length < 2 ^ 32

theorem readEntries_append {ring : List Completion} (h : ∀ c ∈ ring, c.Fits) (before behind : Bytes) :
    readEntries (before ++ (ring.flatMap entryText ++ behind)) ring.length before.length =
      some (ring.map Completion.drained) := by
  induction ring generalizing before with
  | nil => rfl
  | cons c ring ih =>
    obtain ⟨hid, hbody⟩ := h c List.mem_cons_self
    let rest := ring.flatMap entryText ++ behind
    let view := before ++ ((c :: ring).flatMap entryText ++ behind)
    -- the view, cut before each field of the entry
    have hview : view = before ++ (le64 c.id ++ (le32 (statusCode c.status) ++
        (le32 c.body.length ++ (c.body ++ rest)))) := by
      simp only [view, rest, List.flatMap_cons, entryText, List.append_assoc]
    have hreadId : readU64At view before.length = some c.id := by
      rw [hview]
      exact readU64At_append hid before _
    have hreadStatus : readU32 view (before.length + 8) = some (statusCode c.status) := by
      have hread := readU32_append (statusCode c.status) (before ++ le64 c.id)
        (le32 c.body.length ++ (c.body ++ rest))
      rw [List.length_append, length_le64, List.append_assoc, Nat.mod_eq_of_lt (statusCode_lt _)] at hread
      rw [hview]
      exact hread
    have hreadLen : readU32 view (before.length + 12) = some c.body.length := by
      have hread := readU32_append c.body.length
        (before ++ (le64 c.id ++ le32 (statusCode c.status))) (c.body ++ rest)
      rw [Nat.mod_eq_of_lt hbody] at hread
      simp only [List.length_append, length_le64, length_le32, List.append_assoc] at hread
      rw [hview]
      exact hread
    have hreadBody : readBytes view (before.length + 16) c.body.length = some c.body := by
      have hread := readBytes_append
        (before ++ (le64 c.id ++ (le32 (statusCode c.status) ++ le32 c.body.length))) c.body rest
      simp only [List.length_append, length_le64, length_le32, List.append_assoc] at hread
      rw [hview]
      exact hread
    have hreadRest : readEntries view ring.length (before.length + 16 + c.body.length) =
        some (ring.map Completion.drained) := by
      have hrest := ih (fun d hd => h d (List.mem_cons_of_mem c hd)) (before ++ entryText c)
      rw [List.length_append, length_entryText, ← Nat.add_assoc] at hrest
      have hcut : view = (before ++ entryText c) ++ (ring.flatMap entryText ++ behind) := by
        simp only [view, List.flatMap_cons, List.append_assoc]
      rw [hcut]
      exact hrest
    show readEntries view (ring.length + 1) before.length = _
    simp only [readEntries, hreadId, hreadStatus, hreadLen, hreadBody, hreadRest,
      Option.bind_eq_bind, Option.bind_some]
    rfl

/-- No typed array is longer. -/
def maxBuffer : Nat := 2 ^ 32

/-- **What JavaScript parses out of a drain is the ring, in push order.** -/
theorem parseDrained_drain {ring : List Completion} (hids : ∀ c ∈ ring, c.id < 2 ^ 64) {out : Bytes}
    (hout : out.length ≤ maxBuffer) (hroom : needed ring ≤ out.length) :
    parseDrained (drain ring out).1 (drain ring out).2.1 = some (ring.map Completion.drained) := by
  have hmax : maxBuffer = 2 ^ 32 := rfl
  by_cases hnil : ring = []
  · rw [(drain_eq ring out).1 hnil, hnil]
    rfl
  · obtain ⟨hwritten, -, hlength, htake⟩ := (drain_eq ring out).2.2 hnil hroom
    have hmin := length_le_needed ring
    have hfits : ∀ c ∈ ring, c.Fits := by
      intro c hc
      have hle := le_needed hc
      exact ⟨hids c hc, by omega⟩
    have hcount : readU32 (ringText ring) 0 = some ring.length := by
      have hread := readU32_append ring.length [] (ring.flatMap entryText)
      rwa [Nat.mod_eq_of_lt (by omega)] at hread
    have hentries := readEntries_append hfits (le32 ring.length) []
    rw [List.append_nil, length_le32] at hentries
    unfold parseDrained
    rw [hwritten, hlength, if_neg (by omega), htake, hcount, Option.bind_some]
    exact hentries

end Castrum.Completions
