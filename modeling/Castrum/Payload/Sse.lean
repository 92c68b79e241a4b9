import Castrum.Json.Decimal
import Castrum.Lib.EventStream
import Castrum.Lib.Output
import Castrum.Lib.Split
import Castrum.Util.Wire

/-!
# Castrum — server-sent events (`rust/payload/sse.rs`)

One event is written as the lines `id`, `event` and `retry`, where they are given, a `data` line for
each line of the data, and an empty line. Only a line feed ends a line of the data.

* `encodeEvent_eq` — the buffer has room for exactly what is written;
* `parse_eventText` — what a receiver makes of it, line by line of the data;
* `encodeEvent_iff` — the events that arrive as they were given.
-/

namespace Castrum

open EventStream

/-! ## The encoder -/

/-- The digit loop, from the last digit to the first. -/
def retryDigits (n : Nat) : Bytes :=
  UInt8.ofNat (48 + n % 10) :: if n / 10 = 0 then [] else retryDigits (n / 10)

/-- `u64_digits`. -/
def u64Digits (n : Nat) : Nat := if n < 10 then 1 else u64Digits (n / 10) + 1

def encodeEventSize (event : Option Bytes) (data : Bytes) (id : Option Bytes)
    (retry : Option UInt64) : Nat :=
  let idLine := (id.map fun id => 5 + id.length).getD 0
  let eventLine := (event.map fun event => 8 + event.length).getD 0
  let retryLine := (retry.map fun retry => 8 + u64Digits retry.toNat).getD 0
  let lineCount := data.count 10 + 1
  idLine + eventLine + retryLine + lineCount * 7 + data.length - (lineCount - 1) + 1

/-- A field is copied in three pieces; one that does not fit is a panic. -/
def putField (o : Out UInt8) (name value : Bytes) : Option (Out UInt8) := do
  let o ← o.put name
  let o ← o.put value
  o.put [10]

/-- A field that is written only if it is given. -/
def putOptional (o : Out UInt8) (name : Bytes) (value : Option Bytes) : Option (Out UInt8) :=
  match value with
  | some value => putField o name value
  | none => some o

def putDataLines (o : Out UInt8) : List Bytes → Option (Out UInt8)
  | [] => some o
  | line :: rest => do
    let o ← putField o (utf8 "data: ") line
    putDataLines o rest

def encodeEventIntoSlice (event : Option Bytes) (data : Bytes) (id : Option Bytes)
    (retry : Option UInt64) (out : Bytes) : Except (Failure String) (Out UInt8) :=
  if out.length < encodeEventSize event data id retry then
    .error (.fail "sse encode: output buffer too small")
  else
    orFail .panic do
      let o := Out.new out
      let o ← putOptional o (utf8 "id: ") id
      let o ← putOptional o (utf8 "event: ") event
      let o ← putOptional o (utf8 "retry: ")
        (retry.map fun retry => (retryDigits retry.toNat).reverse)
      let o ← putDataLines o (data.splitOn 10)
      o.put [10]

/-- `encode_event`: a buffer of the exact size, and what is written of it. -/
def encodeEvent (event : Option Bytes) (data : Bytes) (id : Option Bytes) (retry : Option UInt64) :
    Option Bytes :=
  match encodeEventIntoSlice event data id retry
      (List.replicate (encodeEventSize event data id retry) 0) with
  | .ok o => some (o.bytes.take o.pos)
  | .error _ => none

/-! ## What is written -/

def fieldLine (name value : Bytes) : Bytes := name ++ value ++ [10]

def optionalLine (name : Bytes) (value : Option Bytes) : Bytes :=
  (value.map (fieldLine name)).getD []

/-- The lines in front of the data. -/
def headLines (event id : Option Bytes) (retry : Option UInt64) : Bytes :=
  optionalLine (utf8 "id: ") id ++ optionalLine (utf8 "event: ") event ++
    optionalLine (utf8 "retry: ") (retry.map fun retry => (retryDigits retry.toNat).reverse)

def dataLines (segments : List Bytes) : Bytes := segments.flatMap (fieldLine (utf8 "data: "))

def eventText (event : Option Bytes) (data : Bytes) (id : Option Bytes) (retry : Option UInt64) :
    Bytes := headLines event id retry ++ dataLines (data.splitOn 10) ++ [10]

theorem length_retryDigits (n : Nat) : (retryDigits n).length = u64Digits n := by
  induction n using Nat.strong_induction_on with
  | _ n ih =>
    rw [retryDigits, u64Digits]
    by_cases hn : n < 10
    · rw [if_pos (Nat.div_eq_of_lt hn), if_pos hn]
      rfl
    · have hdiv : n / 10 ≠ 0 := by omega
      rw [if_neg hdiv, if_neg hn, List.length_cons, ih _ (by omega)]

theorem mem_retryDigits {n : Nat} {b : UInt8} (h : b ∈ retryDigits n) :
    48 ≤ b.toNat ∧ b.toNat ≤ 57 := by
  induction n using Nat.strong_induction_on with
  | _ n ih =>
    rw [retryDigits, List.mem_cons] at h
    rcases h with rfl | h
    · rw [UInt8.toNat_ofNat']
      omega
    · split at h
      · cases h
      · next hdiv => exact ih (n / 10) (by omega) h

theorem length_fieldLine (name value : Bytes) :
    (fieldLine name value).length = name.length + value.length + 1 := by
  rw [fieldLine, List.length_append, List.length_append, List.length_singleton]

theorem length_dataLines (data : Bytes) :
    (dataLines (data.splitOn 10)).length =
      (data.count 10 + 1) * 7 + data.length - data.count 10 := by
  have hbytes : (utf8 "data: ").length = 6 := by decide
  have hlen : (dataLines (data.splitOn 10)).length + data.count 10 =
      (data.count 10 + 1) * 7 + data.length := by
    induction data using splitInduction (10 : UInt8) with
    | last p hp =>
      rw [List.splitOn_eq_singleton hp, dataLines, List.flatMap_singleton, length_fieldLine,
        hbytes, List.count_eq_zero_of_not_mem hp]
      omega
    | piece p q hp ih =>
      rw [List.splitOn_append_cons_self_of_not_mem hp, dataLines, List.flatMap_cons,
        List.length_append, length_fieldLine, hbytes, List.count_append,
        List.count_eq_zero_of_not_mem hp, List.count_cons_self, List.length_append, List.length_cons]
      rw [dataLines] at ih
      omega
  omega

theorem length_optionalLine (name : Bytes) (value : Option Bytes) :
    (optionalLine name value).length =
      (value.map fun value => name.length + value.length + 1).getD 0 := by
  cases value with
  | none => rfl
  | some value => exact length_fieldLine name value

/-- **The exact size**: the buffer has room for the text of the event, and for no more. -/
theorem length_eventText (event : Option Bytes) (data : Bytes) (id : Option Bytes)
    (retry : Option UInt64) :
    (eventText event data id retry).length = encodeEventSize event data id retry := by
  have hid : (utf8 "id: ").length = 4 := by decide
  have hevent : (utf8 "event: ").length = 7 := by decide
  have hretry : (utf8 "retry: ").length = 7 := by decide
  have hcount : data.count 10 ≤ data.length := List.count_le_length
  rw [eventText, headLines, List.length_append, List.length_append, List.length_append,
    List.length_append, length_optionalLine, length_optionalLine, length_optionalLine,
    length_dataLines, List.length_singleton, encodeEventSize, hid, hevent, hretry]
  cases id <;> cases event <;> cases retry <;>
    simp only [Option.map_none, Option.map_some, Option.getD_none, Option.getD_some,
      List.length_reverse, length_retryDigits] <;> omega

theorem putField_eq (o : Out UInt8) (name value : Bytes) :
    putField o name value = o.put (fieldLine name value) := by
  show ((o.put name).bind fun o => (o.put value).bind fun o => o.put [10]) = _
  rw [Out.put_bind_put, Out.put_put]
  rfl

theorem putDataLines_eq (o : Out UInt8) (segments : List Bytes) :
    putDataLines o segments = o.put (dataLines segments) := by
  induction segments generalizing o with
  | nil => exact (Out.put_nil o).symm
  | cons line rest ih =>
    show (putField o (utf8 "data: ") line).bind (fun o => putDataLines o rest) = _
    simp only [ih, putField_eq]
    rw [Out.put_put]
    rfl

theorem putOptional_eq (o : Out UInt8) (name : Bytes) (value : Option Bytes) :
    putOptional o name value = o.put (optionalLine name value) := by
  cases value with
  | none => exact (Out.put_nil o).symm
  | some value => exact putField_eq o name value

/-- All the fields and the empty line are one write. -/
theorem putEvent_eq (o : Out UInt8) (event : Option Bytes) (data : Bytes) (id : Option Bytes)
    (retry : Option UInt64) :
    (do
      let o ← putOptional o (utf8 "id: ") id
      let o ← putOptional o (utf8 "event: ") event
      let o ← putOptional o (utf8 "retry: ")
        (retry.map fun retry => (retryDigits retry.toNat).reverse)
      let o ← putDataLines o (data.splitOn 10)
      o.put [10]) = o.put (eventText event data id retry) := by
  simp only [putOptional_eq, putDataLines_eq]
  show ((o.put _).bind fun o => (o.put _).bind fun o => (o.put _).bind fun o =>
    (o.put _).bind fun o => o.put _) = _
  rw [Out.put_bind_put, Out.put_bind_put, Out.put_bind_put, Out.put_put]
  rfl

/-- **What is written** is the text of the event: no write panics, and the buffer is not too small. -/
theorem encodeEvent_eq (event : Option Bytes) (data : Bytes) (id : Option Bytes)
    (retry : Option UInt64) :
    encodeEvent event data id retry = some (eventText event data id retry) := by
  have hlen := length_eventText event data id retry
  unfold encodeEvent encodeEventIntoSlice
  rw [if_neg (by rw [List.length_replicate]; exact Nat.lt_irrefl _)]
  dsimp only
  rw [putEvent_eq, Out.put_of_le (by rw [hlen]; exact le_of_eq List.length_replicate.symm)]
  show some ((([] ++ eventText event data id retry) ++ _).take
    ([] ++ eventText event data id retry).length) = _
  rw [List.take_left, List.nil_append]

/-! ## Where the data breaks

A line of the data is plain, or it ends with a carriage return, which the receiver takes together with
the line feed behind it, or the receiver breaks it elsewhere. -/

/-- Every carriage return of the data is directly followed by a line feed. -/
def Paired (data : Bytes) : Prop := ∀ p q, data = p ++ 13 :: q → q.head? = some 10

inductive PieceShape (p : Bytes) : Prop where
  | plain (hp : Unbroken p)
  | crlf (t : Bytes) (ht : Unbroken t) (hp : p = t ++ [13])
  | broken (t : Bytes) (c : UInt8) (u : Bytes) (ht : Unbroken t) (hu : 10 ∉ c :: u)
      (hp : p = t ++ 13 :: c :: u)

theorem pieceShape {p : Bytes} (hp : 10 ∉ p) : PieceShape p := by
  cases hcut : cutAt 13 p with
  | none => exact .plain ⟨hp, cutAt_eq_none_iff.mp hcut⟩
  | some cut =>
    obtain ⟨t, u⟩ := cut
    obtain ⟨ht, heq⟩ := cutAt_eq_some_iff.mp hcut
    rw [heq, List.mem_append, List.mem_cons, not_or, not_or] at hp
    cases u with
    | nil => exact .crlf t ⟨hp.1, ht⟩ heq
    | cons c u => exact .broken t c u ⟨hp.1, ht⟩ hp.2.2 heq

theorem head?_append_ne {c : UInt8} {u r : Bytes} (hu : 10 ∉ c :: u) :
    (c :: (u ++ r)).head? ≠ some 10 := by
  intro h
  have hc : c = 10 := Option.some.inj h
  rw [hc] at hu
  exact hu List.mem_cons_self

theorem paired_unbroken {p : Bytes} (hp : Unbroken p) : Paired p := by
  rintro a b rfl
  exact absurd (List.mem_append_right a List.mem_cons_self) hp.2

theorem not_paired_broken {t u r : Bytes} {c : UInt8} (hu : 10 ∉ c :: u) :
    ¬ Paired (t ++ 13 :: c :: (u ++ r)) := by
  intro h
  exact head?_append_ne hu (h t _ rfl)

/-- Behind a line that is plain or ends with a carriage return. -/
theorem paired_append_lf {p q : Bytes} (hp : Unbroken p ∨ ∃ t, Unbroken t ∧ p = t ++ [13]) :
    Paired (p ++ 10 :: q) ↔ Paired q := by
  constructor
  · rintro h a b rfl
    exact h (p ++ 10 :: a) b (by simp)
  · intro h a b heq
    -- the carriage return is the last of the line, or behind its line feed
    rcases List.append_eq_append_iff.mp heq with ⟨a', rfl, hrest⟩ | ⟨c', hpc, hrest⟩
    · cases a' with
      | nil => cases hrest
      | cons x a' =>
        obtain ⟨-, hq⟩ := List.cons.inj hrest
        exact h a' b hq
    · cases c' with
      | nil => cases hrest
      | cons x c' =>
        obtain ⟨rfl, hb⟩ := List.cons.inj hrest
        rcases hp with hplain | ⟨t, ht, hcrlf⟩
        · rw [hpc] at hplain
          exact absurd (List.mem_append_right a List.mem_cons_self) hplain.2
        · rw [hpc] at hcrlf
          have hnil : c' = [] := by
            cases c' using List.reverseRecOn with
            | nil => rfl
            | append_singleton c' y _ =>
              have hpre : a ++ 13 :: c' = t := by
                have h := congrArg List.dropLast hcrlf
                rw [List.dropLast_concat] at h
                rw [← h, ← List.cons_append, ← List.append_assoc, List.dropLast_concat]
              exact absurd (hpre ▸ List.mem_append_right a List.mem_cons_self) ht.2
          rw [hb, hnil]
          rfl

/-! ## What the receiver gains

Of a line that is broken elsewhere, what stands behind the break is at best a shorter value. -/

/-- What the lines of a stream add to the data. -/
def gains (s : Bytes) : Nat := ((lines s).map gain).sum

theorem gains_of_lines {t r s : Bytes} (h : lines s = t :: lines r) : gains s = gain t + gains r := by
  rw [gains, h, List.map_cons, List.sum_cons, gains]

theorem fieldName_data (value : Bytes) : fieldName (utf8 "data: " ++ value) = dataField := by
  have hbytes : utf8 "data: " = [100, 97, 116, 97, 58, 32] := by decide
  rw [hbytes]
  rfl

theorem fieldValue_data (value : Bytes) : fieldValue (utf8 "data: " ++ value) = value := by
  have hbytes : utf8 "data: " = [100, 97, 116, 97, 58, 32] := by decide
  rw [hbytes]
  rfl

theorem gain_data (value : Bytes) : gain (utf8 "data: " ++ value) = value.length + 1 := by
  rw [gain, if_pos (fieldName_data value), fieldValue_data]

theorem unbroken_data {value : Bytes} (h : Unbroken value) : Unbroken (utf8 "data: " ++ value) :=
  unbroken_append.mpr ⟨⟨by decide, by decide⟩, h⟩

/-- A text that is no field of ours gains less than its length. -/
theorem gains_lt (r : Bytes) {u : Bytes} (hu : 10 ∉ u) :
    gains (u ++ 10 :: r) + 1 ≤ (normalise (u ++ [10])).length + gains r := by
  induction hlen : u.length using Nat.strong_induction_on generalizing u with
  | _ n ih =>
    rcases pieceShape hu with hplain | ⟨t, ht, rfl⟩ | ⟨t, c, v, ht, hv, rfl⟩
    · have hgain := gain_le u
      rw [gains_of_lines (lines_lf hplain), normalise_lf hplain, List.length_append]
      show _ ≤ u.length + 1 + gains r
      omega
    · have hgain := gain_le t
      rw [List.append_assoc, List.append_assoc]
      show gains (t ++ 13 :: 10 :: r) + 1 ≤ (normalise (t ++ 13 :: 10 :: [])).length + gains r
      rw [gains_of_lines (lines_crlf ht), normalise_crlf ht, List.length_append]
      show _ ≤ t.length + 1 + gains r
      omega
    · have hgain := gain_le t
      have hshort : (c :: v).length < n := by
        simp only [← hlen, List.length_append, List.length_cons]
        omega
      have hrest := ih (c :: v).length hshort hv rfl
      rw [List.append_assoc, List.append_assoc]
      show gains (t ++ 13 :: (c :: (v ++ 10 :: r))) + 1 ≤
        (normalise (t ++ 13 :: (c :: (v ++ [10])))).length + gains r
      rw [gains_of_lines (lines_cr ht (head?_append_ne hv)), normalise_cr ht (head?_append_ne hv),
        List.length_append, List.length_cons]
      rw [List.cons_append, List.cons_append] at hrest
      omega

/-- One line of the data: it gains what it has after normalising, if the receiver breaks it nowhere
else. -/
theorem gains_dataLine (r : Bytes) {p : Bytes} (hp : 10 ∉ p) :
    gains (fieldLine (utf8 "data: ") p ++ r) ≤ (normalise (p ++ [10])).length + gains r ∧
    ((∃ t c u, 10 ∉ c :: u ∧ p = t ++ 13 :: c :: u) →
      gains (fieldLine (utf8 "data: ") p ++ r) < (normalise (p ++ [10])).length + gains r) := by
  have hline : fieldLine (utf8 "data: ") p ++ r = utf8 "data: " ++ p ++ 10 :: r := by
    rw [fieldLine, List.append_assoc]
    rfl
  rw [hline]
  rcases pieceShape hp with hplain | ⟨t, ht, rfl⟩ | ⟨t, c, v, ht, hv, rfl⟩
  · rw [gains_of_lines (lines_lf (unbroken_data hplain)), gain_data, normalise_lf hplain,
      List.length_append]
    refine ⟨le_refl _, ?_⟩
    rintro ⟨t, c, u, -, rfl⟩
    exact absurd (List.mem_append_right t List.mem_cons_self) hplain.2
  · have hcrlf : utf8 "data: " ++ (t ++ [13]) ++ 10 :: r = (utf8 "data: " ++ t) ++ 13 :: 10 :: r := by
      simp
    rw [hcrlf, gains_of_lines (lines_crlf (unbroken_data ht)), gain_data, List.append_assoc]
    show _ ≤ (normalise (t ++ 13 :: 10 :: [])).length + gains r ∧
      (_ → _ < (normalise (t ++ 13 :: 10 :: [])).length + gains r)
    rw [normalise_crlf ht, List.length_append]
    refine ⟨le_refl _, ?_⟩
    rintro ⟨a, c, u, -, heq⟩
    -- the only carriage return is the last byte
    have hpre : a ++ 13 :: (c :: u).dropLast = t := by
      have h := congrArg List.dropLast heq
      rw [List.dropLast_concat, List.dropLast_append_of_ne_nil (List.cons_ne_nil _ _),
        List.dropLast_cons_of_ne_nil (List.cons_ne_nil _ _)] at h
      exact h.symm
    exact absurd (hpre ▸ List.mem_append_right a List.mem_cons_self) ht.2
  · have hbroken : utf8 "data: " ++ (t ++ 13 :: c :: v) ++ 10 :: r =
        (utf8 "data: " ++ t) ++ 13 :: (c :: (v ++ 10 :: r)) := by simp
    have hrest := gains_lt r hv
    rw [hbroken, gains_of_lines (lines_cr (unbroken_data ht) (head?_append_ne hv)), gain_data,
      List.append_assoc]
    have hshape : normalise (t ++ (13 :: c :: v ++ [10])) =
        t ++ 10 :: normalise (c :: (v ++ [10])) := normalise_cr ht (head?_append_ne hv)
    rw [hshape, List.length_append, List.length_cons]
    rw [List.cons_append, List.cons_append] at hrest
    exact ⟨by omega, fun _ => by omega⟩

theorem dataLines_last {p : Bytes} (hp : 10 ∉ p) (r : Bytes) :
    dataLines (p.splitOn 10) ++ r = fieldLine (utf8 "data: ") p ++ r := by
  rw [List.splitOn_eq_singleton hp, dataLines, List.flatMap_singleton]

theorem dataLines_piece {p : Bytes} (hp : 10 ∉ p) (q r : Bytes) :
    dataLines ((p ++ 10 :: q).splitOn 10) ++ r =
      fieldLine (utf8 "data: ") p ++ (dataLines (q.splitOn 10) ++ r) := by
  rw [List.splitOn_append_cons_self_of_not_mem hp, dataLines, List.flatMap_cons, List.append_assoc]
  rfl

/-- **The data lines gain the data**, and less where a carriage return of it stands alone. -/
theorem gains_dataLines (data : Bytes) :
    gains (dataLines (data.splitOn 10) ++ [10]) ≤ (normalise data).length + 1 ∧
    (¬ Paired data →
      gains (dataLines (data.splitOn 10) ++ [10]) < (normalise data).length + 1) := by
  induction data using splitInduction (10 : UInt8) with
  | last p hp =>
    rw [dataLines_last hp]
    obtain ⟨hle, hlt⟩ := gains_dataLine [10] hp
    have hend : gains [10] = 0 := rfl
    have hlen : (normalise (p ++ [10])).length ≤ (normalise p).length + 1 :=
      length_normaliseFrom_lf false p
    refine ⟨by omega, ?_⟩
    intro hpaired
    rcases pieceShape hp with hplain | ⟨t, ht, rfl⟩ | ⟨t, c, v, ht, hv, rfl⟩
    · exact absurd (paired_unbroken hplain) hpaired
    · -- the line feed behind the last carriage return is the encoder's
      have hlast : (normalise (t ++ [13] ++ [10])).length = (normalise (t ++ [13])).length := by
        rw [List.append_assoc]
        show (normalise (t ++ 13 :: 10 :: [])).length = _
        rw [normalise_crlf ht, normalise_cr ht (by decide)]
      omega
    · have hbroken := hlt ⟨t, c, v, hv, rfl⟩
      omega
  | piece p q hp ih =>
    rw [dataLines_piece hp]
    obtain ⟨hle, hlt⟩ := gains_dataLine (dataLines (q.splitOn 10) ++ [10]) hp
    have hsplit : (normalise (p ++ 10 :: q)).length =
        (normalise (p ++ [10])).length + (normalise q).length := by
      rw [← List.length_append]
      exact congrArg List.length (normaliseFrom_append_lf false p q)
    refine ⟨by omega, ?_⟩
    intro hpaired
    rcases pieceShape hp with hplain | ⟨t, ht, rfl⟩ | ⟨t, c, v, ht, hv, rfl⟩
    · rw [paired_append_lf (.inl hplain)] at hpaired
      have hrest := ih.2 hpaired
      omega
    · rw [paired_append_lf (.inr ⟨t, ht, rfl⟩)] at hpaired
      have hrest := ih.2 hpaired
      omega
    · have hbroken := hlt ⟨t, c, v, hv, rfl⟩
      omega

/-! ## What the receiver reads -/

theorem processLine_data {t : Bytes} (b : Buffers) :
    processLine b (utf8 "data: " ++ t) = ({ b with data := b.data ++ t ++ [10] }, none) := by
  have hbytes : utf8 "data: " = [100, 97, 116, 97, 58, 32] := by decide
  have hline : processLine b (utf8 "data: " ++ t) =
      (processField b (fieldName (utf8 "data: " ++ t)) (fieldValue (utf8 "data: " ++ t)), none) := by
    rw [hbytes]
    rfl
  rw [hline, fieldName_data, fieldValue_data]
  rfl

theorem run_cons {b b' : Buffers} {line : Bytes} {rest : List Bytes}
    (h : processLine b line = (b', none)) : run b (line :: rest) = run b' rest := by
  rw [run, h]
  rfl

/-- **The data of the event**: paired, it arrives with its line breaks as line feeds. -/
theorem run_dataLines {data : Bytes} (hdata : Paired data) (b : Buffers) :
    run b (lines (dataLines (data.splitOn 10) ++ [10])) =
      [{ type := if b.type = [] then defaultType else b.type
         data := b.data ++ normalise data
         lastEventId := b.lastEventId }] := by
  induction data using splitInduction (10 : UInt8) generalizing b with
  | last p hp =>
    have hplain : Unbroken p := by
      rcases pieceShape hp with hplain | ⟨t, ht, rfl⟩ | ⟨t, c, v, ht, hv, rfl⟩
      · exact hplain
      · cases hdata t [] rfl
      · exact absurd (by simpa using hdata) (not_paired_broken (t := t) (r := []) hv)
    have hlines : lines (dataLines (p.splitOn 10) ++ [10]) = [utf8 "data: " ++ p, []] := by
      rw [dataLines_last hp, fieldLine, List.append_assoc]
      exact lines_lf (unbroken_data hplain)
    have hne : b.data ++ p ++ [10] ≠ [] := by simp
    rw [hlines, run_cons (processLine_data b), normalise_unbroken hplain]
    show (dispatch { b with data := b.data ++ p ++ [10] }).2.toList ++ [] = _
    rw [dispatch, if_neg hne]
    show [_] ++ [] = _
    rw [List.append_nil, List.getLast?_concat, if_pos rfl, List.dropLast_concat]
  | piece p q hp ih =>
    rw [dataLines_piece hp]
    -- the piece without the carriage return in front of its line feed
    have hshape : ∃ t, Unbroken t ∧ Paired q ∧
        lines (fieldLine (utf8 "data: ") p ++ (dataLines (q.splitOn 10) ++ [10])) =
          (utf8 "data: " ++ t) :: lines (dataLines (q.splitOn 10) ++ [10]) ∧
        normalise (p ++ 10 :: q) = t ++ 10 :: normalise q := by
      rcases pieceShape hp with hplain | ⟨t, ht, rfl⟩ | ⟨t, c, v, ht, hv, rfl⟩
      · refine ⟨p, hplain, (paired_append_lf (.inl hplain)).mp hdata, ?_, normalise_lf hplain⟩
        rw [fieldLine, List.append_assoc]
        exact lines_lf (unbroken_data hplain)
      · refine ⟨t, ht, (paired_append_lf (.inr ⟨t, ht, rfl⟩)).mp hdata, ?_, ?_⟩
        · have hcrlf : fieldLine (utf8 "data: ") (t ++ [13]) ++ (dataLines (q.splitOn 10) ++ [10]) =
              (utf8 "data: " ++ t) ++ 13 :: 10 :: (dataLines (q.splitOn 10) ++ [10]) := by
            simp [fieldLine]
          rw [hcrlf]
          exact lines_crlf (unbroken_data ht)
        · rw [List.append_assoc]
          exact normalise_crlf ht
      · exact absurd (by simpa using hdata) (not_paired_broken (t := t) (r := 10 :: q) hv)
    obtain ⟨t, ht, hq, hlines, hnormal⟩ := hshape
    rw [hlines, run_cons (processLine_data b), ih hq, hnormal]
    simp

/-! ## The event that arrives -/

/-- A line in front of the data, if it is there, does to the buffers what its field says. -/
theorem run_optionalLine {name : Bytes} {value : Option Bytes} {set : Buffers → Bytes → Buffers}
    (hname : Unbroken name) (hvalue : ∀ v ∈ value, Unbroken v)
    (hset : ∀ b, ∀ v ∈ value, processLine b (name ++ v) = (set b v, none)) (r : Bytes)
    (b : Buffers) :
    run b (lines (optionalLine name value ++ r)) = run (value.elim b (set b)) (lines r) := by
  cases value with
  | none => rfl
  | some v =>
    have hline : lines (optionalLine name (some v) ++ r) = (name ++ v) :: lines r := by
      show lines (name ++ v ++ [10] ++ r) = _
      rw [List.append_assoc]
      exact lines_lf (unbroken_append.mpr ⟨hname, hvalue v rfl⟩)
    rw [hline, run_cons (hset b v rfl)]
    rfl

theorem processLine_id {v : Bytes} (hv : 0 ∉ v) (b : Buffers) :
    processLine b (utf8 "id: " ++ v) = ({ b with lastEventId := v }, none) := by
  have hbytes : utf8 "id: " = [105, 100, 58, 32] := by decide
  have hline : processLine b (utf8 "id: " ++ v) = (processField b idField v, none) := by
    rw [hbytes]
    rfl
  have hfield : processField b idField v = if 0 ∈ v then b else { b with lastEventId := v } := rfl
  rw [hline, hfield, if_neg hv]

theorem processLine_event (v : Bytes) (b : Buffers) :
    processLine b (utf8 "event: " ++ v) = ({ b with type := v }, none) := by
  have hbytes : utf8 "event: " = [101, 118, 101, 110, 116, 58, 32] := by decide
  have hline : processLine b (utf8 "event: " ++ v) = (processField b eventField v, none) := by
    rw [hbytes]
    rfl
  rw [hline]
  rfl

/-- The reconnection time does not touch the event. -/
def setRetry (b : Buffers) (v : Bytes) : Buffers := processField b retryField v

theorem processLine_retry (v : Bytes) (b : Buffers) :
    processLine b (utf8 "retry: " ++ v) = (setRetry b v, none) := by
  have hbytes : utf8 "retry: " = [114, 101, 116, 114, 121, 58, 32] := by decide
  rw [hbytes]
  rfl

theorem setRetry_eq (b : Buffers) (v : Bytes) : ∃ time, setRetry b v =
    { b with reconnectionTime := time } := by
  have hfield : setRetry b v = if v ≠ [] ∧ v.all (fun d => 48 ≤ d && d ≤ 57) then
      { b with reconnectionTime := some (EventStream.readNumber v) } else b := rfl
  rw [hfield]
  split
  · exact ⟨_, rfl⟩
  · exact ⟨b.reconnectionTime, rfl⟩

theorem unbroken_retryDigits (n : Nat) : Unbroken (retryDigits n).reverse := by
  constructor
  · intro h
    exact absurd (mem_retryDigits (List.mem_reverse.mp h)).1 (by decide)
  · intro h
    exact absurd (mem_retryDigits (List.mem_reverse.mp h)).1 (by decide)

section

variable {event id : Option Bytes} {data : Bytes} {retry : Option UInt64}

/-- What the lines in front of the data leave in the buffers. -/
theorem run_headLines (hevent : ∀ e ∈ event, Unbroken e) (hid : ∀ i ∈ id, Unbroken i)
    (hnul : ∀ i ∈ id, 0 ∉ i) (r : Bytes) :
    ∃ time, run {} (lines (headLines event id retry ++ r)) =
      run { type := event.getD [], lastEventId := id.getD [], reconnectionTime := time }
        (lines r) := by
  have hretry : ∀ v ∈ retry.map fun retry => (retryDigits retry.toNat).reverse, Unbroken v := by
    intro v hv
    obtain ⟨n, -, rfl⟩ := Option.map_eq_some_iff.mp hv
    exact unbroken_retryDigits n.toNat
  rw [headLines, List.append_assoc, List.append_assoc,
    run_optionalLine ⟨by decide, by decide⟩ hid (fun b i hi => processLine_id (hnul i hi) b),
    run_optionalLine ⟨by decide, by decide⟩ hevent (fun b e _ => processLine_event e b),
    run_optionalLine ⟨by decide, by decide⟩ hretry (fun b v _ => processLine_retry v b)]
  generalize hb : event.elim _ _ = b
  have hbuffers : b = { type := event.getD [], lastEventId := id.getD [] } := by
    rw [← hb]
    cases event <;> cases id <;> rfl
  cases retry with
  | none =>
    refine ⟨none, ?_⟩
    rw [hbuffers]
    rfl
  | some n =>
    obtain ⟨time, htime⟩ := setRetry_eq b (retryDigits n.toNat).reverse
    refine ⟨time, ?_⟩
    show run (setRetry b (retryDigits n.toNat).reverse) (lines r) = _
    rw [htime, hbuffers]

/-- The text starts with the name of a field. -/
theorem eventText_head : ∃ c s, eventText event data id retry = c :: s ∧ c ≠ 0xEF := by
  obtain ⟨line, rest, hsplit⟩ := List.exists_cons_of_ne_nil (List.splitOn_ne_nil 10 data)
  have hnames : utf8 "id: " = [105, 100, 58, 32] ∧
      utf8 "event: " = [101, 118, 101, 110, 116, 58, 32] ∧
      utf8 "retry: " = [114, 101, 116, 114, 121, 58, 32] ∧
      utf8 "data: " = [100, 97, 116, 97, 58, 32] := by decide
  obtain ⟨hid, hevent, hretry, hdata⟩ := hnames
  rw [eventText, headLines, hid, hevent, hretry, hsplit, dataLines, List.flatMap_cons, hdata]
  cases id with
  | some i => exact ⟨105, _, rfl, by decide⟩
  | none =>
    cases event with
    | some e => exact ⟨101, _, rfl, by decide⟩
    | none =>
      cases retry with
      | some n => exact ⟨114, _, rfl, by decide⟩
      | none => exact ⟨100, _, rfl, by decide⟩

theorem parse_eventText :
    parse (eventText event data id retry) = run {} (lines (eventText event data id retry)) := by
  obtain ⟨c, s, htext, hc⟩ : ∃ c s, eventText event data id retry = c :: s ∧ c ≠ 0xEF :=
    eventText_head
  rw [parse, htext, stripBom_cons hc]

/-- The event that was given: `message` where no type was, and the data with each line break as one line
feed. -/
def givenEvent (event : Option Bytes) (data : Bytes) (id : Option Bytes) : EventStream.Event :=
  { type := event.getD defaultType, data := normalise data, lastEventId := id.getD [] }

/-- **What survives the framing**: a type and an id without line breaks, and data whose carriage returns
are followed by line feeds. -/
structure Framed (event : Option Bytes) (data : Bytes) (id : Option Bytes) : Prop where
  event : ∀ e ∈ event, Unbroken e
  id : ∀ i ∈ id, Unbroken i
  data : Paired data

/-- Framed, an event arrives as it was given. -/
theorem parse_of_framed (h : Framed event data id) (hevent : event ≠ some [])
    (hnul : ∀ i ∈ id, 0 ∉ i) :
    parse (eventText event data id retry) = [givenEvent event data id] := by
  rw [parse_eventText, eventText, List.append_assoc]
  obtain ⟨time, hhead⟩ : ∃ time, run {} (lines (headLines event id retry ++ _)) = run _ (lines _) :=
    run_headLines h.event h.id hnul (dataLines (data.splitOn 10) ++ [10])
  rw [hhead, run_dataLines h.data]
  cases event with
  | none => rfl
  | some e =>
    have he : e ≠ [] := fun hnil => hevent (by rw [hnil])
    show [EventStream.Event.mk (if e = [] then defaultType else e) _ _] = _
    rw [if_neg he]
    rfl

/-- What arrives as it was given was framed: a receiver never sees a line break in a type or an id, and
never more data than the lines gain. -/
theorem framed_of_parse (hnul : ∀ i ∈ id, 0 ∉ i)
    (h : parse (eventText event data id retry) = [givenEvent event data id]) :
    Framed event data id := by
  rw [parse_eventText] at h
  have hclean := run_clean Buffers.clean_empty (lines_unbroken (eventText event data id retry))
    (givenEvent event data id) (by rw [h]; exact List.mem_singleton.mpr rfl)
  have hevent : ∀ e ∈ event, Unbroken e := by
    rintro e he
    have htype := hclean.1
    rw [givenEvent, Option.mem_def.mp he] at htype
    exact htype
  have hid : ∀ i ∈ id, Unbroken i := by
    rintro i hi
    have hlast := hclean.2
    rw [givenEvent, Option.mem_def.mp hi] at hlast
    exact hlast
  refine ⟨hevent, hid, ?_⟩
  rw [eventText, List.append_assoc] at h
  obtain ⟨time, hhead⟩ : ∃ time, run {} (lines (headLines event id retry ++ _)) = run _ (lines _) :=
    run_headLines hevent hid hnul (dataLines (data.splitOn 10) ++ [10])
  rw [hhead] at h
  -- the data of the event is no longer than what its lines gain, which paired data alone reaches
  generalize hb : Buffers.mk [] (event.getD []) (id.getD []) time = b at h
  have hbclean : b.Clean := by
    rw [← hb]
    refine ⟨?_, ?_, fun hne => absurd rfl hne⟩
    · cases event with
      | none => exact unbroken_nil
      | some e => exact hevent e rfl
    · cases id with
      | none => exact unbroken_nil
      | some i => exact hid i rfl
  have hweight := run_weight hbclean (lines_unbroken (dataLines (data.splitOn 10) ++ [10]))
  rw [h, ← hb] at hweight
  by_contra hpaired
  have hlt := (gains_dataLines data).2 hpaired
  have hsum : (normalise data).length + 1 ≤ 0 + gains (dataLines (data.splitOn 10) ++ [10]) := hweight
  omega

/-- **Injection-free framing**: a receiver dispatches exactly the event that was given, for a type that
is not empty and an id without NUL, if and only if it survives the framing. -/
theorem encodeEvent_iff (hevent : event ≠ some []) (hnul : ∀ i ∈ id, 0 ∉ i) :
    (encodeEvent event data id retry).map parse = some [givenEvent event data id] ↔
      Framed event data id := by
  rw [encodeEvent_eq, Option.map_some, Option.some.injEq]
  exact ⟨framed_of_parse hnul, fun h => parse_of_framed h hevent hnul⟩

end

/-- An event with a type and an id, whose data has a break of two bytes and one of one. -/
theorem encodeEvent_iff_update :
    (encodeEvent (some (utf8 "update")) (utf8 "a\r\nb\nc") (some (utf8 "42")) none).map parse =
      some [⟨utf8 "update", utf8 "a\nb\nc", utf8 "42"⟩] := by
  have hnul : ∀ i ∈ some (utf8 "42"), 0 ∉ i := by decide
  have hpaired : Paired (utf8 "a\r" ++ 10 :: (utf8 "b" ++ 10 :: utf8 "c")) := by
    rw [paired_append_lf (.inr ⟨utf8 "a", by decide, by decide⟩),
      paired_append_lf (.inl (by decide))]
    exact paired_unbroken (by decide)
  exact (encodeEvent_iff (by decide) hnul).mpr ⟨by decide, by decide, hpaired⟩

/-- A line break in the name of an event forges a second event, and a lone carriage return loses what
stands behind it. -/
theorem encodeEvent_forges :
    (encodeEvent (some (utf8 "a\ndata: forged\n")) (utf8 "b") none none).map parse =
      some [⟨utf8 "a", utf8 "forged", []⟩, ⟨defaultType, utf8 "b", []⟩] ∧
    (encodeEvent none (utf8 "a\rb") none none).map parse = some [⟨defaultType, utf8 "a", []⟩] := by
  rw [encodeEvent_eq, encodeEvent_eq]
  constructor <;> decide

end Castrum
