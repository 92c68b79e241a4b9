import Mathlib.Data.List.Basic
import Mathlib.Tactic

/-!
# Castrum — event streams

The format of server-sent events as its receiver reads it. A carriage return, a line feed, or the two
together end a line. A line is a field and its value, a comment, or empty; an empty line dispatches what
was gathered since the last one. What stands behind the last line that has ended is not read.

* `lines_lf` / `lines_crlf` / `lines_cr` — the line at the front of a stream;
* `run_clean` — no line break gets into a type or an id;
* `run_weight` — all the data that is dispatched was gained from some line.
-/

namespace Castrum

namespace EventStream

/-! ## Lines -/

/-- Each line break as one line feed; the flag says that a carriage return was just met. -/
def normaliseFrom : Bool → List UInt8 → List UInt8
  | _, [] => []
  | afterCr, b :: rest =>
    if b = 10 then if afterCr then normaliseFrom false rest else 10 :: normaliseFrom false rest
    else if b = 13 then 10 :: normaliseFrom true rest
    else b :: normaliseFrom false rest

def normalise (s : List UInt8) : List UInt8 := normaliseFrom false s

/-- The lines that have ended, the first of which has started already. -/
def completeLines : List UInt8 → List UInt8 → List (List UInt8)
  | _, [] => []
  | line, b :: rest =>
    if b = 10 then line :: completeLines [] rest else completeLines (line ++ [b]) rest

def lines (s : List UInt8) : List (List UInt8) := completeLines [] (normalise s)

/-! ## Events -/

structure Event where
  type : List UInt8
  data : List UInt8
  lastEventId : List UInt8
  deriving DecidableEq, Repr

/-- What is gathered for the next event. The id and the reconnection time stay for those behind it. -/
structure Buffers where
  data : List UInt8 := []
  type : List UInt8 := []
  lastEventId : List UInt8 := []
  reconnectionTime : Option Nat := none
  deriving DecidableEq, Repr

/-- `event`. -/
def eventField : List UInt8 := [101, 118, 101, 110, 116]

/-- `data`. -/
def dataField : List UInt8 := [100, 97, 116, 97]

/-- `id`. -/
def idField : List UInt8 := [105, 100]

/-- `retry`. -/
def retryField : List UInt8 := [114, 101, 116, 114, 121]

/-- `message`, the type of an event that was given none. -/
def defaultType : List UInt8 := [109, 101, 115, 115, 97, 103, 101]

/-- The name in front of the first colon. -/
def fieldName (line : List UInt8) : List UInt8 := line.takeWhile (· ≠ 58)

/-- The value behind the first colon, without the one space it may start with. -/
def fieldValue (line : List UInt8) : List UInt8 :=
  match line.dropWhile (· ≠ 58) with
  | [] => []
  | _ :: value => if value.head? = some 32 then value.tail else value

def readNumber (digits : List UInt8) : Nat :=
  digits.foldl (fun n b => 10 * n + (b.toNat - 48)) 0

/-- A field that has a meaning; the others are ignored. -/
def processField (b : Buffers) (name value : List UInt8) : Buffers :=
  if name = eventField then { b with type := value }
  else if name = dataField then { b with data := b.data ++ value ++ [10] }
  else if name = idField then if 0 ∈ value then b else { b with lastEventId := value }
  else if name = retryField then
    if value ≠ [] ∧ value.all (fun d => 48 ≤ d && d ≤ 57) then
      { b with reconnectionTime := some (readNumber value) }
    else b
  else b

/-- Nothing is dispatched without data. -/
def dispatch (b : Buffers) : Buffers × Option Event :=
  if b.data = [] then ({ b with type := [] }, none)
  else
    ({ b with data := [], type := [] },
      some
        { type := if b.type = [] then defaultType else b.type
          data := if b.data.getLast? = some 10 then b.data.dropLast else b.data
          lastEventId := b.lastEventId })

def processLine (b : Buffers) (line : List UInt8) : Buffers × Option Event :=
  if line = [] then dispatch b
  else if line.head? = some 58 then (b, none)
  else (processField b (fieldName line) (fieldValue line), none)

def run : Buffers → List (List UInt8) → List Event
  | _, [] => []
  | b, line :: rest => (processLine b line).2.toList ++ run (processLine b line).1 rest

/-- The byte order mark a stream may start with. -/
def stripBom (s : List UInt8) : List UInt8 :=
  match s with
  | 0xEF :: 0xBB :: 0xBF :: rest => rest
  | s => s

/-- **The events of a stream**, read from its start to its end. -/
def parse (s : List UInt8) : List Event := run {} (lines (stripBom s))

theorem stripBom_cons {c : UInt8} (hc : c ≠ 0xEF) (s : List UInt8) : stripBom (c :: s) = c :: s := by
  unfold stripBom
  split
  · next h => exact absurd (List.cons.inj h).1 hc
  · rfl

/-! ## The line at the front -/

/-- A text without a line break. -/
def Unbroken (s : List UInt8) : Prop := 10 ∉ s ∧ 13 ∉ s

instance (s : List UInt8) : Decidable (Unbroken s) := inferInstanceAs (Decidable (_ ∧ _))

section

variable {t r : List UInt8}

theorem unbroken_nil : Unbroken [] := ⟨List.not_mem_nil, List.not_mem_nil⟩

theorem unbroken_append {s : List UInt8} : Unbroken (s ++ t) ↔ Unbroken s ∧ Unbroken t := by
  unfold Unbroken
  rw [List.mem_append, List.mem_append, not_or, not_or]
  exact and_and_and_comm

theorem normaliseFrom_unbroken (ht : Unbroken t) (afterCr : Bool) (hne : t ≠ []) :
    normaliseFrom afterCr (t ++ r) = t ++ normaliseFrom false r := by
  induction t generalizing afterCr with
  | nil => exact absurd rfl hne
  | cons b t ih =>
    obtain ⟨hlf, hcr⟩ := ht
    rw [List.mem_cons, not_or] at hlf hcr
    rw [List.cons_append, normaliseFrom, if_neg (Ne.symm hlf.1), if_neg (Ne.symm hcr.1)]
    by_cases htnil : t = []
    · rw [htnil]
      rfl
    · rw [ih ⟨hlf.2, hcr.2⟩ false htnil]
      rfl

theorem normalise_unbroken_append (ht : Unbroken t) : normalise (t ++ r) = t ++ normalise r := by
  by_cases hne : t = []
  · rw [hne]
    rfl
  · exact normaliseFrom_unbroken ht false hne

theorem normalise_unbroken (ht : Unbroken t) : normalise t = t := by
  have h := normalise_unbroken_append (r := []) ht
  rw [List.append_nil] at h
  rw [h]
  exact List.append_nil t

theorem normalise_lf (ht : Unbroken t) : normalise (t ++ 10 :: r) = t ++ 10 :: normalise r := by
  rw [normalise_unbroken_append ht]
  rfl

theorem normalise_crlf (ht : Unbroken t) :
    normalise (t ++ 13 :: 10 :: r) = t ++ 10 :: normalise r := by
  rw [normalise_unbroken_append ht]
  rfl

/-- In front of anything but a line feed the flag does not matter. -/
theorem normaliseFrom_true (hr : r.head? ≠ some 10) : normaliseFrom true r = normalise r := by
  cases r with
  | nil => rfl
  | cons b r =>
    have hb : b ≠ 10 := fun h => hr (by rw [h]; rfl)
    show (if b = 10 then _ else _) = if b = 10 then _ else _
    rw [if_neg hb, if_neg hb]

theorem normalise_cr (ht : Unbroken t) (hr : r.head? ≠ some 10) :
    normalise (t ++ 13 :: r) = t ++ 10 :: normalise r := by
  rw [normalise_unbroken_append ht]
  show t ++ 10 :: normaliseFrom true r = _
  rw [normaliseFrom_true hr]

/-- Behind a line feed it starts afresh. -/
theorem normaliseFrom_append_lf (afterCr : Bool) (t r : List UInt8) :
    normaliseFrom afterCr (t ++ 10 :: r) = normaliseFrom afterCr (t ++ [10]) ++ normalise r := by
  induction t generalizing afterCr with
  | nil => cases afterCr <;> rfl
  | cons b t ih =>
    rw [List.cons_append, List.cons_append, normaliseFrom, normaliseFrom]
    split
    · split
      · exact ih false
      · exact congrArg (10 :: ·) (ih false)
    · split
      · exact congrArg (10 :: ·) (ih true)
      · exact congrArg (b :: ·) (ih false)

theorem length_normaliseFrom_lf (afterCr : Bool) (t : List UInt8) :
    (normaliseFrom afterCr (t ++ [10])).length ≤ (normaliseFrom afterCr t).length + 1 := by
  induction t generalizing afterCr with
  | nil => cases afterCr <;> decide
  | cons b t ih =>
    rw [List.cons_append, normaliseFrom, normaliseFrom]
    split
    · split
      · exact ih false
      · exact Nat.succ_le_succ (ih false)
    · split
      · exact Nat.succ_le_succ (ih true)
      · exact Nat.succ_le_succ (ih false)

theorem completeLines_lf (line : List UInt8) (ht : 10 ∉ t) :
    completeLines line (t ++ 10 :: r) = (line ++ t) :: completeLines [] r := by
  induction t generalizing line with
  | nil =>
    rw [List.append_nil]
    exact if_pos rfl
  | cons b t ih =>
    rw [List.mem_cons, not_or] at ht
    rw [List.cons_append, completeLines, if_neg (Ne.symm ht.1), ih _ ht.2, List.append_assoc]
    rfl

theorem lines_of_normalise {s : List UInt8} (ht : Unbroken t)
    (h : normalise s = t ++ 10 :: normalise r) : lines s = t :: lines r := by
  unfold lines
  rw [h, completeLines_lf [] ht.1]
  rfl

theorem lines_lf (ht : Unbroken t) : lines (t ++ 10 :: r) = t :: lines r :=
  lines_of_normalise ht (normalise_lf ht)

theorem lines_crlf (ht : Unbroken t) : lines (t ++ 13 :: 10 :: r) = t :: lines r :=
  lines_of_normalise ht (normalise_crlf ht)

theorem lines_cr (ht : Unbroken t) (hr : r.head? ≠ some 10) :
    lines (t ++ 13 :: r) = t :: lines r :=
  lines_of_normalise ht (normalise_cr ht hr)

/-- No carriage return is left. -/
theorem cr_not_mem_normaliseFrom (afterCr : Bool) (s : List UInt8) :
    13 ∉ normaliseFrom afterCr s := by
  induction s generalizing afterCr with
  | nil => exact List.not_mem_nil
  | cons b s ih =>
    have hcons : ∀ {c : UInt8} (flag : Bool), c ≠ 13 → 13 ∉ c :: normaliseFrom flag s := by
      intro c flag hc hmem
      rcases List.mem_cons.mp hmem with h | h
      · exact hc h.symm
      · exact ih flag h
    rw [normaliseFrom]
    split
    · split
      · exact ih false
      · exact hcons false (by decide)
    · split
      · exact hcons true (by decide)
      · next hb => exact hcons false hb

theorem completeLines_unbroken {line s : List UInt8} (hline : Unbroken line) (hs : 13 ∉ s) :
    ∀ l ∈ completeLines line s, Unbroken l := by
  induction s generalizing line with
  | nil =>
    intro l hl
    cases hl
  | cons b s ih =>
    rw [List.mem_cons, not_or] at hs
    intro l hl
    rw [completeLines] at hl
    split at hl
    · rcases List.mem_cons.mp hl with rfl | hl
      · exact hline
      · exact ih unbroken_nil hs.2 l hl
    · next hb =>
      apply ih _ hs.2 l hl
      rw [unbroken_append]
      refine ⟨hline, ?_, ?_⟩
      · rw [List.mem_singleton]
        exact Ne.symm hb
      · rw [List.mem_singleton]
        exact hs.1

/-- The lines of a stream hold no line break. -/
theorem lines_unbroken (s : List UInt8) : ∀ l ∈ lines s, Unbroken l :=
  completeLines_unbroken unbroken_nil (cr_not_mem_normaliseFrom false s)

end

/-! ## What every run keeps

Buffers stay free of line breaks except at the ends of the lines of the data. -/

section

variable {line : List UInt8} {ls : List (List UInt8)} {b : Buffers}

/-- The type and the id of the buffers hold no line break, and every line of the data has ended. -/
structure Buffers.Clean (b : Buffers) : Prop where
  type : Unbroken b.type
  lastEventId : Unbroken b.lastEventId
  ended : b.data ≠ [] → b.data.getLast? = some 10

theorem Buffers.clean_empty : Buffers.Clean {} where
  type := unbroken_nil
  lastEventId := unbroken_nil
  ended := fun h => absurd rfl h

theorem fieldValue_mem {x : UInt8} (hx : x ∈ fieldValue line) : x ∈ line := by
  have hdrop : ∀ {c : UInt8} {value : List UInt8}, line.dropWhile (· ≠ 58) = c :: value →
      ∀ y ∈ value, y ∈ line := by
    intro c value h y hy
    apply (List.dropWhile_suffix (· ≠ 58)).subset
    rw [h]
    exact List.mem_cons_of_mem _ hy
  unfold fieldValue at hx
  split at hx
  · cases hx
  · next value h =>
    split at hx
    · exact hdrop h x (List.mem_of_mem_tail hx)
    · exact hdrop h x hx

theorem fieldValue_unbroken (hline : Unbroken line) : Unbroken (fieldValue line) :=
  ⟨fun h => hline.1 (fieldValue_mem h), fun h => hline.2 (fieldValue_mem h)⟩

theorem processField_clean (hb : b.Clean) {name value : List UInt8} (hvalue : Unbroken value) :
    (processField b name value).Clean := by
  unfold processField
  split
  · exact ⟨hvalue, hb.lastEventId, hb.ended⟩
  split
  · exact ⟨hb.type, hb.lastEventId, fun _ => List.getLast?_concat⟩
  split
  · split
    · exact hb
    · exact ⟨hb.type, hvalue, hb.ended⟩
  split
  · split
    · exact ⟨hb.type, hb.lastEventId, hb.ended⟩
    · exact hb
  · exact hb

theorem processLine_clean (hb : b.Clean) (hline : Unbroken line) :
    (processLine b line).1.Clean ∧
      ∀ e ∈ (processLine b line).2, Unbroken e.type ∧ Unbroken e.lastEventId := by
  unfold processLine
  split
  · unfold dispatch
    split
    · exact ⟨⟨unbroken_nil, hb.lastEventId, hb.ended⟩, fun e he => by cases he⟩
    · refine ⟨⟨unbroken_nil, hb.lastEventId, fun h => absurd rfl h⟩, ?_⟩
      intro e he
      cases he
      refine ⟨?_, hb.lastEventId⟩
      show Unbroken (if b.type = [] then defaultType else b.type)
      split
      · exact ⟨by decide, by decide⟩
      · exact hb.type
  split
  · exact ⟨hb, fun e he => by cases he⟩
  · exact ⟨processField_clean hb (fieldValue_unbroken hline), fun e he => by cases he⟩

/-- **No line break gets into a type or an id.** -/
theorem run_clean (hb : b.Clean) (hls : ∀ l ∈ ls, Unbroken l) :
    ∀ e ∈ run b ls, Unbroken e.type ∧ Unbroken e.lastEventId := by
  induction ls generalizing b with
  | nil =>
    intro e he
    cases he
  | cons line ls ih =>
    obtain ⟨hnext, hevent⟩ := processLine_clean hb (hls line List.mem_cons_self)
    intro e he
    rcases List.mem_append.mp he with he | he
    · exact hevent e (Option.mem_toList.mp he)
    · exact ih hnext (fun l hl => hls l (List.mem_cons_of_mem _ hl)) e he

/-! ## Data -/

/-- What a line adds to the data: its value and a line feed. -/
def gain (line : List UInt8) : Nat :=
  if fieldName line = dataField then (fieldValue line).length + 1 else 0

/-- A line that adds something is longer than its value. -/
theorem gain_le (line : List UInt8) : gain line ≤ line.length := by
  unfold gain
  split
  · next hname =>
    have hsplit : (fieldName line).length + (line.dropWhile (· ≠ 58)).length = line.length := by
      rw [fieldName, ← List.length_append, List.takeWhile_append_dropWhile]
    have hvalue : (fieldValue line).length ≤ (line.dropWhile (· ≠ 58)).length := by
      unfold fieldValue
      split
      · exact Nat.zero_le _
      · next c value h =>
        rw [h, List.length_cons]
        split
        · rw [List.length_tail]
          omega
        · omega
    rw [hname] at hsplit
    have hlen : dataField.length = 4 := rfl
    omega
  · exact Nat.zero_le _

theorem processField_gain (b : Buffers) (line : List UInt8) :
    (processField b (fieldName line) (fieldValue line)).data.length =
      b.data.length + gain line := by
  have hne : eventField ≠ dataField := by decide
  unfold processField gain
  split
  · next h => rw [if_neg (by rw [h]; exact hne), Nat.add_zero]
  split
  · next h =>
    show (b.data ++ fieldValue line ++ [10]).length = _
    rw [List.length_append, List.length_append, List.length_singleton, Nat.add_assoc]
  split
  · split <;> rfl
  split
  · split <;> rfl
  · rfl

/-- An event weighs its data and the line feed that was taken off. -/
def Event.weight (e : Event) : Nat := e.data.length + 1

/-- One line: what is gathered and what is dispatched together gain what the line adds. -/
theorem processLine_weight (hb : b.Clean) (line : List UInt8) :
    (((processLine b line).2.toList).map Event.weight).sum + (processLine b line).1.data.length =
      b.data.length + gain line := by
  unfold processLine
  split
  · next hline =>
    rw [hline]
    unfold dispatch
    split
    · next hdata =>
      show 0 + b.data.length = b.data.length + 0
      omega
    · next hdata =>
      rw [if_pos (hb.ended hdata)]
      have hpos : 0 < b.data.length := List.length_pos_iff.mpr hdata
      show (b.data.dropLast.length + 1 + 0) + 0 = b.data.length + 0
      rw [List.length_dropLast]
      omega
  split
  · next hcomment =>
    have hname : fieldName line ≠ dataField := by
      rw [fieldName, List.eq_cons_of_mem_head? hcomment]
      show ([] : List UInt8) ≠ dataField
      decide
    rw [gain, if_neg hname]
    show 0 + b.data.length = b.data.length + 0
    omega
  · show 0 + (processField b (fieldName line) (fieldValue line)).data.length = _
    rw [processField_gain, Nat.zero_add]

/-- **All the data that is dispatched was gained from some line.** -/
theorem run_weight (hb : b.Clean) (hls : ∀ l ∈ ls, Unbroken l) :
    ((run b ls).map Event.weight).sum ≤ b.data.length + (ls.map gain).sum := by
  induction ls generalizing b with
  | nil => exact Nat.zero_le _
  | cons line ls ih =>
    have hline := hls line List.mem_cons_self
    have hstep := processLine_weight hb line
    have hrest := ih (processLine_clean hb hline).1 (fun l hl => hls l (List.mem_cons_of_mem _ hl))
    rw [run, List.map_append, List.sum_append, List.map_cons, List.sum_cons]
    omega

end

end EventStream

end Castrum
