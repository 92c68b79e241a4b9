import Castrum.Lib.Calendar
import Castrum.Lib.Checked
import Castrum.Lib.Split
import Castrum.Util.Str

/-!
# Castrum — HTTP dates (`rust/http/http_date.rs`)

`Sun, 06 Nov 1994 08:49:37 GMT` to unix seconds and back. The dates are computed from the first of
March on, in eras of 400 years. What is parsed is a number of any size, and the arithmetic on it is
checked.

* `civilFromDays_spec` — the computed date is the Gregorian date of the day;
* `daysFromCivil_cases` — the day of a date, unless the year is out of all bounds;
* `parseDateFields_fixedText` — what is parsed from the fields of a date;
* `httpDate_roundtrip` — every second of the years 0 to 9999 is read back;
* `parseHttpDateSecs_total_iff` — exactly when the parser overflows.
-/

namespace Castrum

open Calendar

/-! ## The source functions -/

def dayNames : List Bytes :=
  [utf8 "Mon", utf8 "Tue", utf8 "Wed", utf8 "Thu", utf8 "Fri", utf8 "Sat", utf8 "Sun"]

def monthNames : List Bytes :=
  [utf8 "Jan", utf8 "Feb", utf8 "Mar", utf8 "Apr", utf8 "May", utf8 "Jun", utf8 "Jul", utf8 "Aug",
    utf8 "Sep", utf8 "Oct", utf8 "Nov", utf8 "Dec"]

/-- The year of an era that holds one of its days. -/
def yearOfEra (doe : Nat) : Nat := (doe - doe / 1460 + doe / 36524 - doe / 146096) / 365

/-- The days of `i64` seconds: nothing overflows here. -/
def civilFromDays (z : Int) : Int × Nat × Nat :=
  let z := z + 719468
  let era := (if 0 ≤ z then z else z - 146096).tdiv 146097
  let doe := (z - era * 146097).toNat
  let yoe := yearOfEra doe
  let y := yoe + era * 400
  let doy := doe - (365 * yoe + yoe / 4 - yoe / 100)
  let mp := (5 * doy + 2) / 153
  let d := doy - (153 * mp + 2) / 5 + 1
  let m := if mp < 10 then mp + 3 else mp - 9
  let y := if m ≤ 2 then y + 1 else y
  (y, m, d)

/-- The year of the era is a `u64`, and so is all that is computed from it. -/
def daysFromCivil (y : Int) (m d : Nat) : Except (Failure Unit) Int :=
  if ¬ (1 ≤ m ∧ m ≤ 12) ∨ d = 0 ∨ 31 < d then .error (.fail ())
  else do
    let y ← (if m ≤ 2 then i64 (y - 1) else .ok y)
    let e ← (if 0 ≤ y then .ok y else i64 (y - 399))
    let era := e.tdiv 400
    let start ← i64 (era * 400)
    let yoe ← i64 (y - start)
    let yoe := yoe.toNat
    let mp := (m + 9) % 12
    let doy := (153 * mp + 2) / 5 + (d - 1)
    let doe := yoe * 365 + yoe / 4 - yoe / 100 + doy
    let days ← i64 (era * 146097)
    let days ← i64 (days + doe)
    i64 (days - 719468)

/-- `write_padded`: the last `width` digits. -/
def padded : Nat → Nat → Bytes
  | 0, _ => []
  | width + 1, value => padded width (value / 10) ++ [48 + UInt8.ofNat (value % 10)]

structure HttpDateParts where
  y : Int
  m : Nat
  d : Nat
  hh : Nat
  mm : Nat
  ss : Nat
  wd : Nat
  deriving DecidableEq, Repr

def httpDateParts (secs : Int) : HttpDateParts :=
  let days := secs / 86400
  let rem := (secs % 86400).toNat
  let (y, m, d) := civilFromDays days
  { y, m, d, hh := rem / 3600, mm := rem % 3600 / 60, ss := rem % 60,
    wd := ((days % 7 + 3) % 7).toNat }

/-- The layout of fixed width: `ddd, dd mmm yyyy hh:mm:ss GMT`. -/
def fixedText (p : HttpDateParts) : Bytes :=
  dayNames.getD p.wd [] ++ utf8 ", " ++ padded 2 p.d ++ utf8 " " ++ monthNames.getD (p.m - 1) [] ++
    utf8 " " ++ padded 4 p.y.toNat ++ utf8 " " ++ padded 2 p.hh ++ utf8 ":" ++ padded 2 p.mm ++
    utf8 ":" ++ padded 2 p.ss ++ utf8 " GMT"

def writeHttpDateParts (p : HttpDateParts) (out : Bytes) : Except String (Bytes × Nat) :=
  if out.length < 29 then .error "http-date: output buffer too small"
  else if ¬ (0 ≤ p.y ∧ p.y ≤ 9999) then
    .error "http-date: year out of range for fixed-width layout"
  else .ok (placed out 0 (fixedText p), 29)

/-- `{:0width}` of a number, its sign counted in. -/
def zeroPadded (width : Nat) (x : Int) : Bytes :=
  let digits := decimal x.natAbs
  if x < 0 then Ascii.minus :: (List.replicate (width - 1 - digits.length) 48 ++ digits)
  else List.replicate (width - digits.length) 48 ++ digits

/-- What `format!` makes of years that have no fixed layout. -/
def formattedText (p : HttpDateParts) : Bytes :=
  dayNames.getD p.wd [] ++ utf8 ", " ++ zeroPadded 2 p.d ++ utf8 " " ++
    monthNames.getD (p.m - 1) [] ++ utf8 " " ++ zeroPadded 4 p.y ++ utf8 " " ++ zeroPadded 2 p.hh ++
    utf8 ":" ++ zeroPadded 2 p.mm ++ utf8 ":" ++ zeroPadded 2 p.ss ++ utf8 " GMT"

def httpDateFromSecs (secs : Int) : Bytes :=
  let p := httpDateParts secs
  match writeHttpDateParts p (List.replicate 32 0) with
  | .ok (buf, n) => buf.take n
  | .error _ => formattedText p

def httpDateIntoSlice (secs : Int) (out : Bytes) : Except String (Bytes × Nat) :=
  writeHttpDateParts (httpDateParts secs) out

/-- The fields of a date, as they are parsed. -/
structure DateFields where
  day : Nat
  month : Nat
  year : Int
  hh : Nat
  mm : Nat
  ss : Nat
  deriving DecidableEq, Repr

/-- `eq_ignore_ascii_case` against the names, from 1 on. -/
def monthOf (mon : Bytes) : Option Nat :=
  (monthNames.findIdx? fun name => decide (name.map asciiLower = mon.map asciiLower)).map (· + 1)

/-- The time of day, in hours, minutes and seconds. -/
def parseTime (time : Str) : Option (Nat × Nat × Nat) :=
  match time.splitOn ':' with
  | hh :: mm :: ss :: _ => do
    let hh ← parseU32 (strBytes hh)
    let mm ← parseU32 (strBytes mm)
    let ss ← parseU32 (strBytes ss)
    if 23 < hh ∨ 59 < mm ∨ 60 < ss then none else some (hh, mm, ss)
  | _ => none

/-- The part of `parse_http_date_secs` that reads: what is behind the comma, word by word. -/
def parseDateFields (input : Bytes) : Option DateFields := do
  let s ← fromUtf8 input
  let (_, rest) ← cutAt ',' (strTrim s)
  match splitWhitespace (strTrim rest) with
  | day :: mon :: year :: time :: _ => do
    let day ← parseU32 (strBytes day)
    let year ← parseI64 (strBytes year)
    let month ← monthOf (strBytes mon)
    let (hh, mm, ss) ← parseTime time
    return { day, month, year := year.toInt, hh, mm, ss }
  | _ => none

/-- The part of `parse_http_date_secs` that computes. -/
def secsOfFields (f : DateFields) : Except (Failure Unit) Int := do
  let days ← daysFromCivil f.year f.month f.day
  let secs ← i64 (days * 86400)
  let secs ← i64 (secs + f.hh * 3600)
  let secs ← i64 (secs + f.mm * 60)
  i64 (secs + f.ss)

/-- `none` is a failure, overflow a panic. -/
def parseHttpDateSecs (input : Bytes) : Except (Failure Unit) Int := do
  let f ← orFail (.fail ()) (parseDateFields input)
  secsOfFields f

example : httpDateFromSecs 784111777 = utf8 "Sun, 06 Nov 1994 08:49:37 GMT" := by decide

example : parseHttpDateSecs (utf8 "Sun, 06 Nov 1994 08:49:37 GMT") = .ok 784111777 := by decide

/-! ## The days of an era -/

/-- The first day of a year of an era. -/
def eraStart (yoe : Nat) : Nat := 365 * yoe + yoe / 4 - yoe / 100 + yoe / 400

theorem yearOfEra_mono : Monotone yearOfEra := by
  refine monotone_nat_of_le_succ ?_
  intro doe
  refine Nat.div_le_div_right ?_
  omega

/-- Each year of an era is found from its first day on, and not before. -/
theorem yearOfEra_eraStart : ∀ yoe < 400,
    yearOfEra (eraStart yoe) = yoe ∧ yearOfEra (eraStart (yoe + 1) - 1) = yoe := by
  decide +kernel

theorem yearOfEra_spec {doe : Nat} (h : doe < 146097) :
    yearOfEra doe < 400 ∧ eraStart (yearOfEra doe) ≤ doe ∧ doe < eraStart (yearOfEra doe + 1) := by
  have hlt : yearOfEra doe < 400 := by
    have := yearOfEra_mono (Nat.le_of_lt_succ h)
    exact Nat.lt_of_le_of_lt this (by decide)
  refine ⟨hlt, ?_, ?_⟩
  · by_contra hbefore
    cases hy : yearOfEra doe with
    | zero =>
      rw [hy] at hbefore
      exact hbefore (Nat.zero_le _)
    | succ yoe =>
      rw [hy] at hbefore hlt
      have := yearOfEra_mono (show doe ≤ eraStart (yoe + 1) - 1 by omega)
      rw [(yearOfEra_eraStart yoe (by omega)).2] at this
      omega
  · by_contra hbehind
    by_cases hlast : yearOfEra doe + 1 < 400
    · have := yearOfEra_mono (Nat.le_of_not_lt hbehind)
      rw [(yearOfEra_eraStart _ hlast).1] at this
      omega
    · have hend : yearOfEra doe + 1 = 400 := by omega
      rw [hend, show eraStart 400 = 146097 by decide] at hbehind
      exact hbehind h

/-- The quotient is truncated: a negative number is lowered first. -/
theorem eraOfDays (z : Int) : (if 0 ≤ z then z else z - 146096).tdiv 146097 = z / 146097 := by
  rw [Int.tdiv_eq_ediv, show Int.sign 146097 = 1 from rfl]
  split <;> split <;> omega

theorem eraOfYear (y : Int) : (if 0 ≤ y then y else y - 399).tdiv 400 = y / 400 := by
  rw [Int.tdiv_eq_ediv, show Int.sign 400 = 1 from rfl]
  split <;> split <;> omega

/-- The days of the years before, in either count: an era begins in March of the year 0. -/
theorem yearStart_eq (era : Int) {yoe : Nat} (h : yoe < 400) :
    yearStart (yoe + era * 400 + 1) = era * 146097 + eraStart yoe - 719468 + 306 := by
  unfold yearStart eraStart
  omega

/-- A day of the year that begins in March: its month is counted from March on, and January and
February belong to the next year. -/
theorem date_of_marchDay (y : Int) {doy mp : Nat} (hle : doy ≤ 365)
    (hleap : doy = 365 → IsLeap (y + 1)) (hmp : mp = (5 * doy + 2) / 153) :
    let m := if mp < 10 then mp + 3 else mp - 9
    let y' := if m ≤ 2 then y + 1 else y
    let d := doy - (153 * mp + 2) / 5 + 1
    IsDate y' m d ∧ dayNumber y' m d = yearStart (y + 1) - 306 + doy := by
  have hyear := yearStart_succ y
  have hlow : (153 * mp + 2) / 5 ≤ doy := by omega
  have hhigh : doy < (153 * (mp + 1) + 2) / 5 := by omega
  have hlast : mp ≤ 11 := by omega
  clear hmp
  have hfebruary : doy - 337 + 1 ≤ if IsLeap (y + 1) then 29 else 28 := by
    by_cases hnext : IsLeap (y + 1)
    · rw [if_pos hnext]
      omega
    · rw [if_neg hnext]
      have := mt hleap hnext
      omega
  -- month by month; the days before a month of the same year depend on its February
  interval_cases mp <;>
    simp only [Nat.reduceMul, Nat.reduceAdd, Nat.reduceDiv, Nat.reduceLT, Nat.reduceSub,
      Nat.reduceLeDiff, if_true, if_false] at hlow hhigh ⊢ <;>
    refine ⟨⟨by decide, Nat.succ_pos _, ?_⟩, ?_⟩
  all_goals try rw [dayNumber, monthStart_eq _ (by decide)]
  all_goals
    split at hyear <;>
      simp only [*, daysInMonth, if_true, if_false, Nat.reduceLeDiff, Nat.reduceEqDiff, or_true,
        or_false]
  all_goals omega

/-- **The date of a day**: it is a date of the calendar, and the day is its number. -/
theorem civilFromDays_spec (z : Int) :
    IsDate (civilFromDays z).1 (civilFromDays z).2.1 (civilFromDays z).2.2 ∧
      dayNumber (civilFromDays z).1 (civilFromDays z).2.1 (civilFromDays z).2.2 = z := by
  unfold civilFromDays
  dsimp only
  rw [eraOfDays]
  generalize hera : (z + 719468) / 146097 = era
  generalize hdoe : (z + 719468 - era * 146097).toNat = doe
  have hz : z + 719468 = era * 146097 + doe := by omega
  have hday : doe < 146097 := by omega
  obtain ⟨hyoe, hstart, hend⟩ := yearOfEra_spec hday
  generalize yearOfEra doe = yoe at *
  rw [show 365 * yoe + yoe / 4 - yoe / 100 = eraStart yoe by unfold eraStart; omega]
  obtain ⟨doy, rfl⟩ := Nat.exists_eq_add_of_le hstart
  rw [Nat.add_sub_cancel_left]
  have hle : doy ≤ 365 := by
    unfold eraStart at hend
    omega
  have hleap : doy = 365 → IsLeap (yoe + era * 400 + 1) := by
    unfold eraStart at hend
    unfold IsLeap
    omega
  obtain ⟨hdate, hnumber⟩ := date_of_marchDay (yoe + era * 400) hle hleap rfl
  refine ⟨hdate, hnumber.trans ?_⟩
  rw [yearStart_eq era hyoe]
  omega

/-! ## The day of a date -/

/-- The day of a month, counted in the year that begins in March. -/
theorem dayNumber_eq_marchDay (y : Int) {m : Nat} (hm : 1 ≤ m ∧ m ≤ 12) (d : Nat) :
    let y' := if m ≤ 2 then y - 1 else y
    dayNumber y m d =
      yearStart (y' + 1) - 306 + ((153 * ((m + 9) % 12) + 2) / 5 : Nat) + (d - 1) := by
  have hyear := yearStart_succ y
  obtain ⟨hlow, hhigh⟩ := hm
  dsimp only
  rw [dayNumber, monthStart_eq y ⟨hlow, hhigh⟩]
  split at hyear <;> interval_cases m <;>
    simp only [*, Nat.reduceMul, Nat.reduceDiv, Nat.reduceSub, Nat.reduceLeDiff, if_true, if_false,
      Int.sub_add_cancel] <;> omega

/-- **The day of a date.** A day the month does not have is counted on into the next one. Only in a
year out of all bounds does some step overflow. -/
theorem daysFromCivil_cases (y : Int) {m d : Nat} (hm : 1 ≤ m ∧ m ≤ 12) (hd : 1 ≤ d ∧ d ≤ 31) :
    OkUnless (y < -2 ^ 50 ∨ 2 ^ 50 < y) (dayNumber y m d) (daysFromCivil y m d) := by
  have hday := dayNumber_eq_marchDay y hm d
  dsimp only at hday
  have hfirst : OkUnless (y < -2 ^ 50 ∨ 2 ^ 50 < y) (if m ≤ 2 then y - 1 else y)
      (if m ≤ 2 then i64 (y - 1) else .ok y : Except (Failure Unit) Int) := by
    split
    · exact okUnless_i64 (by omega)
    · exact .ok _
  have hnear : y - 1 ≤ (if m ≤ 2 then y - 1 else y) ∧ (if m ≤ 2 then y - 1 else y) ≤ y := by
    split <;> omega
  generalize (if m ≤ 2 then y - 1 else y) = y' at *
  have hsecond : OkUnless (y < -2 ^ 50 ∨ 2 ^ 50 < y) (if 0 ≤ y' then y' else y' - 399)
      (if 0 ≤ y' then .ok y' else i64 (y' - 399) : Except (Failure Unit) Int) := by
    split
    · exact .ok _
    · exact okUnless_i64 (by omega)
  unfold daysFromCivil
  rw [if_neg (by omega)]
  -- the year is near the given one, so that no step overflows unless the year is out of bounds
  refine hfirst.bind ?_
  dsimp only
  refine hsecond.bind ?_
  rw [eraOfYear]
  generalize hera : y' / 400 = era
  have hyoe : (y' - era * 400).toNat < 400 := by omega
  have hstart := yearStart_eq era hyoe
  rw [show ((y' - era * 400).toNat : Int) + era * 400 = y' by omega] at hstart
  unfold eraStart at hstart
  rw [hstart] at hday
  refine (okUnless_i64 (by omega)).bind ?_
  refine (okUnless_i64 (by omega)).bind ?_
  refine (okUnless_i64 (by omega)).bind ?_
  refine (okUnless_i64 (by omega)).bind ?_
  refine Eq.mp (congrArg (OkUnless _ · _) ?_) (okUnless_i64 ?_)
  · omega
  · omega

/-! ## What is parsed -/

namespace DateFields

/-- The seconds of the day. -/
def time (f : DateFields) : Nat := f.hh * 3600 + f.mm * 60 + f.ss

/-- The seconds since 1970. -/
def secs (f : DateFields) : Int := dayNumber f.year f.month f.day * 86400 + f.time

/-- What the parser has seen to; the day is looked at later. -/
structure Checked (f : DateFields) : Prop where
  month : 1 ≤ f.month ∧ f.month ≤ 12
  hh : f.hh ≤ 23
  mm : f.mm ≤ 59
  ss : f.ss ≤ 60

/-- Before the 28th of January of the year -292277022657: not even the day has a number of seconds. -/
def TooEarly (f : DateFields) : Prop :=
  f.year < -292277022657 ∨ (f.year = -292277022657 ∧ f.month = 1 ∧ f.day < 28)

/-- After 15:30:07 of the 4th of December 292277026596. -/
def TooLate (f : DateFields) : Prop :=
  292277026596 < f.year ∨ (f.year = 292277026596 ∧ f.month = 12 ∧
    (4 < f.day ∨ (f.day = 4 ∧ 15 * 3600 + 30 * 60 + 7 < f.time)))

instance (f : DateFields) : Decidable f.TooEarly := by unfold TooEarly; infer_instance

instance (f : DateFields) : Decidable f.TooLate := by unfold TooLate; infer_instance

theorem Checked.time_le {f : DateFields} (h : f.Checked) : f.time ≤ 86400 := by
  have := h.hh
  have := h.mm
  have := h.ss
  unfold time
  omega

/-- The day is too early for a number of seconds. -/
theorem tooEarly_iff {f : DateFields} (h : f.Checked) (hd : 1 ≤ f.day ∧ f.day ≤ 31) :
    f.TooEarly ↔ dayNumber f.year f.month f.day * 86400 < -2 ^ 63 := by
  have hmonth := monthStart_le f.year h.month
  unfold TooEarly dayNumber
  obtain hlt | heq | hgt := Int.lt_trichotomy f.year (-292277022657)
  · have hmono := yearStart_strictMono.monotone (show f.year ≤ -292277022658 by omega)
    rw [show yearStart (-292277022658) = -106751991167692 by decide] at hmono
    omega
  · have hstart : yearStart f.year = -106751991167327 := by
      rw [heq]
      decide
    have := h.month
    omega
  · have hmono := yearStart_strictMono.monotone (show -292277022656 ≤ f.year by omega)
    rw [show yearStart (-292277022656) = -106751991166962 by decide] at hmono
    omega

/-- The second is too late to be numbered. -/
theorem tooLate_iff {f : DateFields} (h : f.Checked) (hd : 1 ≤ f.day ∧ f.day ≤ 31) :
    f.TooLate ↔ 2 ^ 63 ≤ f.secs := by
  have hmonth := monthStart_le f.year h.month
  have htime := h.time_le
  unfold TooLate secs dayNumber
  obtain hlt | heq | hgt := Int.lt_trichotomy f.year 292277026596
  · have hmono := yearStart_strictMono.monotone (show f.year ≤ 292277026595 by omega)
    rw [show yearStart 292277026595 = 106751991166597 by decide] at hmono
    omega
  · have hstart : yearStart f.year = 106751991166962 := by
      rw [heq]
      decide
    have hleap : IsLeap f.year := by
      rw [heq]
      decide
    have hmonth := monthStart_eq f.year h.month
    rw [if_pos hleap] at hmonth
    split at hmonth <;> omega
  · have hmono := yearStart_strictMono.monotone (show 292277026597 ≤ f.year by omega)
    rw [show yearStart 292277026597 = 106751991167328 by decide] at hmono
    omega

end DateFields

theorem parseTime_bounds {time : Str} {hh mm ss : Nat} (h : parseTime time = some (hh, mm, ss)) :
    hh ≤ 23 ∧ mm ≤ 59 ∧ ss ≤ 60 := by
  unfold parseTime at h
  split at h
  · obtain ⟨hh', -, h⟩ := Option.bind_eq_some_iff.mp h
    obtain ⟨mm', -, h⟩ := Option.bind_eq_some_iff.mp h
    obtain ⟨ss', -, h⟩ := Option.bind_eq_some_iff.mp h
    split at h
    · nomatch h
    · obtain ⟨rfl, rfl, rfl⟩ : hh' = hh ∧ mm' = mm ∧ ss' = ss := by simpa using h
      omega
  · nomatch h

theorem monthOf_bounds {mon : Bytes} {m : Nat} (h : monthOf mon = some m) : 1 ≤ m ∧ m ≤ 12 := by
  obtain ⟨k, hk, rfl⟩ := Option.map_eq_some_iff.mp h
  obtain ⟨-, -, -, -, hlt⟩ := findIdx?_eq_some_cut hk
  have : monthNames.length = 12 := rfl
  omega

theorem parseDateFields_checked {input : Bytes} {f : DateFields} (h : parseDateFields input = some f) :
    f.Checked := by
  unfold parseDateFields at h
  obtain ⟨s, -, h⟩ := Option.bind_eq_some_iff.mp h
  obtain ⟨⟨_, rest⟩, -, h⟩ := Option.bind_eq_some_iff.mp h
  dsimp only at h
  split at h
  · obtain ⟨day, -, h⟩ := Option.bind_eq_some_iff.mp h
    obtain ⟨year, -, h⟩ := Option.bind_eq_some_iff.mp h
    obtain ⟨month, hmonth, h⟩ := Option.bind_eq_some_iff.mp h
    obtain ⟨⟨hh, mm, ss⟩, htime, h⟩ := Option.bind_eq_some_iff.mp h
    obtain rfl := Option.some.inj h
    obtain ⟨hhh, hmm, hss⟩ := parseTime_bounds htime
    exact ⟨monthOf_bounds hmonth, hhh, hmm, hss⟩
  · nomatch h

/-- **What is parsed from the fields of a date**: its seconds, if they have a number. -/
theorem secsOfFields_eq {f : DateFields} (h : f.Checked) (hd : 1 ≤ f.day ∧ f.day ≤ 31) :
    secsOfFields f = if f.TooEarly ∨ f.TooLate then .error .panic else .ok f.secs := by
  have hearly := f.tooEarly_iff h hd
  have hlate := f.tooLate_iff h hd
  have htime := h.time_le
  have hdays : OkUnless (f.TooEarly ∨ f.TooLate) (dayNumber f.year f.month f.day)
      (daysFromCivil f.year f.month f.day) := by
    refine (daysFromCivil_cases f.year h.month hd).imp ?_
    unfold DateFields.TooEarly DateFields.TooLate
    omega
  rw [if_congr (or_congr hearly hlate) rfl rfl]
  rw [hearly, hlate] at hdays
  unfold DateFields.secs at hdays ⊢
  unfold DateFields.time at hdays htime ⊢
  generalize hday : dayNumber f.year f.month f.day = days at *
  -- each step overflows only if the seconds are out of bounds ...
  have hsteps : OkUnless (days * 86400 < -2 ^ 63 ∨ 2 ^ 63 ≤
        days * 86400 + ((f.hh * 3600 + f.mm * 60 + f.ss : Nat) : Int))
      (days * 86400 + f.hh * 3600 + f.mm * 60 + f.ss) (secsOfFields f) :=
    hdays.bind ((okUnless_i64 (by omega)).bind ((okUnless_i64 (by omega)).bind
      ((okUnless_i64 (by omega)).bind (okUnless_i64 (by omega)))))
  split
  · next hbad =>
    -- ... and if they are, the day or the last step does
    obtain hok | ⟨hpanic, -⟩ := hsteps
    · obtain ⟨days', hdays', hok⟩ := bind_eq_ok_iff.mp hok
      obtain ⟨s₁, hs₁, hok⟩ := bind_eq_ok_iff.mp hok
      obtain ⟨s₂, hs₂, hok⟩ := bind_eq_ok_iff.mp hok
      obtain ⟨s₃, hs₃, hok⟩ := bind_eq_ok_iff.mp hok
      obtain rfl : days' = days := by
        obtain h' | ⟨h', -⟩ := hdays
        · exact Except.ok.inj (hdays'.symm.trans h')
        · nomatch hdays'.symm.trans h'
      have hfirst := i64_eq_ok_iff.mp hs₁
      have hlast := i64_eq_ok_iff.mp hok
      omega
    · exact hpanic
  · next hfine =>
    obtain hok | ⟨-, hbad⟩ := hsteps
    · rw [hok]
      congr 1
      omega
    · exact absurd hbad hfine

theorem secsOfFields_of_day {f : DateFields} (hd : f.day = 0 ∨ 31 < f.day) :
    secsOfFields f = .error (.fail ()) := by
  unfold secsOfFields daysFromCivil
  rw [if_pos (.inr hd)]
  rfl

/-- **Exactly when the parser overflows**: the year is a number of any size. The condition is about
what stands in the date. -/
theorem parseHttpDateSecs_total_iff (input : Bytes) :
    parseHttpDateSecs input ≠ .error .panic ↔
      ∀ f, parseDateFields input = some f → 1 ≤ f.day → f.day ≤ 31 → ¬ f.TooEarly ∧ ¬ f.TooLate := by
  unfold parseHttpDateSecs
  cases hf : parseDateFields input with
  | none => exact iff_of_true nofun nofun
  | some f =>
    have hchecked := parseDateFields_checked hf
    rw [orFail_some, ok_bind]
    by_cases hd : 1 ≤ f.day ∧ f.day ≤ 31
    · rw [secsOfFields_eq hchecked hd]
      split
      · next hbad =>
        refine iff_of_false (fun hne => hne rfl) fun hall => ?_
        obtain ⟨hearly, hlate⟩ := hall f rfl hd.1 hd.2
        exact hbad.elim hearly hlate
      · next hfine =>
        refine iff_of_true nofun ?_
        rintro _ ⟨⟩ - -
        exact not_or.mp hfine
    · rw [secsOfFields_of_day (by omega)]
      refine iff_of_true nofun ?_
      rintro _ ⟨⟩ hlow hhigh
      exact absurd ⟨hlow, hhigh⟩ hd

/-- A year that is a good `i64`. -/
theorem parseHttpDateSecs_overflows :
    parseHttpDateSecs (utf8 "Sun, 06 Nov 300000000000 08:49:37 GMT") = .error .panic := by
  decide

/-! ## Digits and words -/

theorem length_padded (width value : Nat) : (padded width value).length = width := by
  induction width generalizing value with
  | zero => rfl
  | succ width ih => rw [padded, List.length_append, ih, List.length_singleton]

theorem digit_toNat (k : Nat) : (48 + UInt8.ofNat (k % 10)).toNat = 48 + k % 10 := by
  rw [UInt8.toNat_add, UInt8.toNat_ofNat']
  have : k % 10 < 10 := Nat.mod_lt _ (by decide)
  show (48 + k % 10 % 256) % 256 = _
  omega

theorem isDigit_of_mem_padded {width value : Nat} {b : UInt8} (h : b ∈ padded width value) :
    isDigit b = true := by
  induction width generalizing value with
  | zero => nomatch h
  | succ width ih =>
    obtain h | h := List.mem_append.mp h
    · exact ih h
    · rw [List.mem_singleton.mp h, isDigit, Bool.and_eq_true, decide_eq_true_eq, decide_eq_true_eq,
        UInt8.le_iff_toNat_le, UInt8.le_iff_toNat_le, digit_toNat]
      exact ⟨Nat.le_add_right _ _, by show _ ≤ 57; omega⟩

/-- The last digits of a number are the number, if it has no more. -/
theorem readDigits_padded (width value : Nat) : readDigits (padded width value) = value % 10 ^ width := by
  induction width generalizing value with
  | zero => rw [Nat.pow_zero, Nat.mod_one]; rfl
  | succ width ih =>
    unfold readDigits at ih ⊢
    rw [padded, List.foldl_append, ih, List.foldl_cons, List.foldl_nil, digit_toNat,
      Nat.add_sub_cancel_left, Nat.pow_succ, Nat.mul_comm (10 ^ width) 10, Nat.mod_mul]
    omega

/-- A word of visible ASCII, without the delimiters of a date. -/
structure IsWord (word : Bytes) : Prop where
  ne_nil : word ≠ []
  visible : ∀ b ∈ word, 33 ≤ b ∧ b < 0x7F
  delimiter : 44 ∉ word

instance (word : Bytes) : Decidable (IsWord word) :=
  decidable_of_iff (word ≠ [] ∧ (∀ b ∈ word, 33 ≤ b ∧ b < 0x7F) ∧ 44 ∉ word)
    ⟨fun h => ⟨h.1, h.2.1, h.2.2⟩, fun h => ⟨h.ne_nil, h.visible, h.delimiter⟩⟩

theorem mem_asciiStr {bytes : Bytes} {c : Char} (hascii : ∀ b ∈ bytes, b < 0x80)
    (h : c ∈ asciiStr bytes) : UInt8.ofNat c.toNat ∈ bytes ∧ c.toNat < 0x80 := by
  obtain ⟨b, hb, rfl⟩ := List.mem_map.mp h
  have key : ∀ n : Fin 0x80, (Char.ofNat n.val).toNat = n.val := by decide
  have hc := key ⟨b.toNat, hascii b hb⟩
  dsimp only at hc
  rw [hc, UInt8.ofNat_toNat]
  exact ⟨hb, hascii b hb⟩

namespace IsWord

variable {word : Bytes}

theorem ascii (h : IsWord word) : ∀ b ∈ word, b < 0x80 :=
  fun b hb => UInt8.lt_trans (h.visible b hb).2 (by decide)

theorem asciiStr_ne_nil (h : IsWord word) : asciiStr word ≠ [] :=
  fun hnil => h.ne_nil (List.map_eq_nil_iff.mp hnil)

theorem not_whitespace (h : IsWord word) : ∀ c ∈ asciiStr word, isUnicodeWhitespace c = false := by
  intro c hc
  obtain ⟨b, hb, rfl⟩ := List.mem_map.mp hc
  have key : ∀ n : Fin 0x7F, 33 ≤ n.val → isUnicodeWhitespace (Char.ofNat n.val) = false := by decide
  obtain ⟨hlow, hhigh⟩ := h.visible b hb
  exact key ⟨b.toNat, hhigh⟩ hlow

theorem comma_not_mem (h : IsWord word) : ',' ∉ asciiStr word :=
  fun hc => h.delimiter (mem_asciiStr h.ascii hc).1

theorem splitWhitespace_cons (h : IsWord word) (rest : Str) :
    splitWhitespace (asciiStr word ++ ' ' :: rest) = asciiStr word :: splitWhitespace rest :=
  splitWhitespace_append h.asciiStr_ne_nil h.not_whitespace rest

theorem strTrim_eq (h : IsWord word) {s : Str} {d : Char} (hd : s.getLast? = some d)
    (hdw : isUnicodeWhitespace d = false) : strTrim (asciiStr word ++ s) = asciiStr word ++ s := by
  obtain ⟨c, cs, hcs⟩ := List.exists_cons_of_ne_nil h.asciiStr_ne_nil
  refine strTrim_of_ends (c := c) ?_ ?_ (h.not_whitespace c (by rw [hcs]; exact List.mem_cons_self)) hdw
  · rw [hcs]
    rfl
  · rw [List.getLast?_append, hd]
    rfl

theorem append {word' : Bytes} (h : IsWord word) (h' : IsWord word') : IsWord (word ++ word') where
  ne_nil hnil := h.ne_nil (List.append_eq_nil_iff.mp hnil).1
  visible b hb := (List.mem_append.mp hb).elim (h.visible b) (h'.visible b)
  delimiter hb := (List.mem_append.mp hb).elim h.delimiter h'.delimiter

end IsWord

theorem isWord_padded {width : Nat} (hw : width ≠ 0) (value : Nat) : IsWord (padded width value) where
  ne_nil hnil := hw (by rw [← length_padded width value, hnil]; rfl)
  visible b hb := by
    have hdigit := isDigit_of_mem_padded hb
    rw [isDigit, Bool.and_eq_true, decide_eq_true_eq, decide_eq_true_eq] at hdigit
    exact ⟨UInt8.le_trans (by decide) hdigit.1, UInt8.lt_of_le_of_lt hdigit.2 (by decide)⟩
  delimiter hb := absurd (isDigit_of_mem_padded hb) (by decide)

theorem isWord_dayName : ∀ wd < 7, IsWord (dayNames.getD wd []) := by decide

theorem isWord_monthName : ∀ k < 12, IsWord (monthNames.getD k []) := by decide

theorem parseU32_padded {width value : Nat} (hw : width ≠ 0) (hv : value < 10 ^ width)
    (hlt : value < 2 ^ 32) : parseU32 (strBytes (asciiStr (padded width value))) = some value := by
  have hword := isWord_padded hw value
  have hread : readDigits (padded width value) = value := by
    rw [readDigits_padded, Nat.mod_eq_of_lt hv]
  rw [strBytes_asciiStr hword.ascii, parseU32_digits hword.ne_nil (fun _ => isDigit_of_mem_padded)
    (by rw [hread]; exact hlt), hread]

theorem monthOf_monthName : ∀ k < 12, monthOf (monthNames.getD k []) = some (k + 1) := by decide

/-! ## Reading a written date -/

/-- The time of day, as it is written. -/
def timeText (p : HttpDateParts) : Bytes :=
  padded 2 p.hh ++ utf8 ":" ++ padded 2 p.mm ++ utf8 ":" ++ padded 2 p.ss

theorem isWord_timeText (p : HttpDateParts) : IsWord (timeText p) :=
  have hcolon : IsWord (utf8 ":") := by decide
  ((((isWord_padded (by decide) _).append hcolon).append (isWord_padded (by decide) _)).append
    hcolon).append (isWord_padded (by decide) _)

theorem parseTime_timeText {p : HttpDateParts} (hhh : p.hh ≤ 23) (hmm : p.mm ≤ 59) (hss : p.ss ≤ 59) :
    parseTime (asciiStr (timeText p)) = some (p.hh, p.mm, p.ss) := by
  have hcolon : ∀ value, ':' ∉ asciiStr (padded 2 value) := by
    intro value hc
    have := (mem_asciiStr (isWord_padded (by decide) value).ascii hc).1
    exact absurd (isDigit_of_mem_padded this) (by decide)
  have hsplit : (asciiStr (timeText p)).splitOn ':' =
      [asciiStr (padded 2 p.hh), asciiStr (padded 2 p.mm), asciiStr (padded 2 p.ss)] := by
    have htext : asciiStr (timeText p) = asciiStr (padded 2 p.hh) ++ ':' ::
        (asciiStr (padded 2 p.mm) ++ ':' :: asciiStr (padded 2 p.ss)) := by
      simp only [timeText, asciiStr_append, List.append_assoc]
      rfl
    rw [htext, List.splitOn_append_cons_self_of_not_mem (hcolon _),
      List.splitOn_append_cons_self_of_not_mem (hcolon _), List.splitOn_eq_singleton (hcolon _)]
  unfold parseTime
  rw [hsplit]
  dsimp only
  rw [parseU32_padded (by decide) (by omega) (by omega), parseU32_padded (by decide) (by omega) (by omega),
    parseU32_padded (by decide) (by omega) (by omega)]
  exact if_neg (by omega)

/-- **A written date is read back**, field by field. -/
theorem parseDateFields_fixedText {p : HttpDateParts} (hwd : p.wd < 7) (hm : 1 ≤ p.m ∧ p.m ≤ 12)
    (hd : p.d ≤ 31) (hy : 0 ≤ p.y ∧ p.y ≤ 9999) (hhh : p.hh ≤ 23) (hmm : p.mm ≤ 59) (hss : p.ss ≤ 59) :
    parseDateFields (fixedText p) =
      some { day := p.d, month := p.m, year := p.y, hh := p.hh, mm := p.mm, ss := p.ss } := by
  have hday := isWord_dayName p.wd hwd
  have hmonth := isWord_monthName (p.m - 1) (by omega)
  have htime := isWord_timeText p
  have hdigits : ∀ {width value : Nat}, width ≠ 0 → IsWord (padded width value) :=
    fun hw => isWord_padded hw _
  have hascii : ∀ b ∈ fixedText p, b < 0x80 := by
    simp only [fixedText, List.forall_mem_append, and_assoc]
    exact ⟨hday.ascii, by decide, (hdigits (by decide)).ascii, by decide, hmonth.ascii, by decide,
      (hdigits (by decide)).ascii, by decide, (hdigits (by decide)).ascii, by decide,
      (hdigits (by decide)).ascii, by decide, (hdigits (by decide)).ascii, by decide⟩
  have htext : asciiStr (fixedText p) = asciiStr (dayNames.getD p.wd []) ++ ',' :: ' ' ::
      (asciiStr (padded 2 p.d) ++ ' ' :: (asciiStr (monthNames.getD (p.m - 1) []) ++ ' ' ::
        (asciiStr (padded 4 p.y.toNat) ++ ' ' :: (asciiStr (timeText p) ++ ' ' ::
          asciiStr (utf8 "GMT"))))) := by
    simp only [fixedText, timeText, asciiStr_append, List.append_assoc]
    rfl
  have hgmt : (asciiStr (utf8 "GMT")).getLast? = some 'T' := rfl
  have hyear : (parseI64 (strBytes (asciiStr (padded 4 p.y.toNat)))).map Int64.toInt = some p.y := by
    have hread : readDigits (padded 4 p.y.toNat) = p.y.toNat := by
      rw [readDigits_padded, Nat.mod_eq_of_lt (by omega)]
    rw [strBytes_asciiStr (hdigits (by decide)).ascii, parseI64_digits (hdigits (by decide)).ne_nil
      (fun _ => isDigit_of_mem_padded) (by rw [hread]; omega), hread, Option.map_some,
      Int64.toInt_ofInt_of_le (by omega) (by omega), Int.toNat_of_nonneg hy.1]
  obtain ⟨year, hparsed, hyear⟩ := Option.map_eq_some_iff.mp hyear
  -- every field is a word, so that trimming and splitting give back what was joined
  unfold parseDateFields
  rw [fromUtf8_ascii hascii, htext, Option.bind_eq_bind, Option.bind_some, hday.strTrim_eq (d := 'T'),
    cutAt_append hday.comma_not_mem, Option.bind_eq_bind, Option.bind_some]
  · dsimp only
    rw [strTrim_cons (by decide), (hdigits (by decide)).strTrim_eq (d := 'T'),
      (hdigits (by decide)).splitWhitespace_cons, hmonth.splitWhitespace_cons,
      (hdigits (by decide)).splitWhitespace_cons, htime.splitWhitespace_cons]
    · dsimp only
      rw [parseU32_padded (by decide) (by omega) (by omega), hparsed, strBytes_asciiStr hmonth.ascii,
        monthOf_monthName _ (by omega), parseTime_timeText hhh hmm hss, ← hyear,
        Nat.sub_add_cancel hm.1]
      rfl
    · simp only [List.getLast?_append, List.getLast?_cons, hgmt, Option.some_or, Option.getD_some]
    · decide
  · simp only [List.getLast?_append, List.getLast?_cons, hgmt, Option.some_or, Option.getD_some]
  · decide

/-! ## The round trip -/

theorem httpDateParts_bounds (secs : Int) :
    (httpDateParts secs).wd = weekday (secs / 86400) ∧ (httpDateParts secs).wd < 7 ∧
      (httpDateParts secs).hh ≤ 23 ∧ (httpDateParts secs).mm ≤ 59 ∧ (httpDateParts secs).ss ≤ 59 := by
  unfold httpDateParts weekday
  dsimp only
  omega

/-- The date and the time of day of a second. -/
theorem secs_httpDateParts (secs : Int) :
    let p := httpDateParts secs
    IsDate p.y p.m p.d ∧
      dayNumber p.y p.m p.d * 86400 + ((p.hh * 3600 + p.mm * 60 + p.ss : Nat) : Int) = secs := by
  obtain ⟨hdate, hday⟩ := civilFromDays_spec (secs / 86400)
  unfold httpDateParts
  dsimp only
  rw [hday]
  refine ⟨hdate, ?_⟩
  omega

/-- The year of a date, from the seconds. -/
theorem year_httpDateParts {secs : Int}
    (h : yearStart 0 * 86400 ≤ secs ∧ secs < yearStart 10000 * 86400) :
    0 ≤ (httpDateParts secs).y ∧ (httpDateParts secs).y ≤ 9999 := by
  obtain ⟨hdate, hsecs⟩ := secs_httpDateParts secs
  obtain ⟨-, -, hhh, hmm, hss⟩ := httpDateParts_bounds secs
  obtain ⟨hfirst, hlast⟩ := dayNumber_mem_year hdate
  refine ⟨?_, ?_⟩
  · by_contra hneg
    have := yearStart_strictMono.monotone (show (httpDateParts secs).y + 1 ≤ 0 by omega)
    omega
  · by_contra hbig
    have := yearStart_strictMono.monotone (show 10000 ≤ (httpDateParts secs).y by omega)
    omega

theorem length_dayName : ∀ wd < 7, (dayNames.getD wd []).length = 3 := by decide

theorem length_monthName : ∀ k < 12, (monthNames.getD k []).length = 3 := by decide

theorem length_fixedText {p : HttpDateParts} (hwd : p.wd < 7) (hm : 1 ≤ p.m ∧ p.m ≤ 12) :
    (fixedText p).length = 29 := by
  simp only [fixedText, List.length_append, length_padded, length_dayName _ hwd,
    length_monthName (p.m - 1) (by omega)]
  rfl

theorem writeHttpDateParts_eq {p : HttpDateParts} (hy : 0 ≤ p.y ∧ p.y ≤ 9999) {out : Bytes}
    (hout : 29 ≤ out.length) : writeHttpDateParts p out = .ok (placed out 0 (fixedText p), 29) := by
  unfold writeHttpDateParts
  rw [if_neg (by omega), if_neg (by omega)]

theorem httpDateFromSecs_eq {secs : Int}
    (hy : 0 ≤ (httpDateParts secs).y ∧ (httpDateParts secs).y ≤ 9999) :
    httpDateFromSecs secs = fixedText (httpDateParts secs) := by
  obtain ⟨hdate, -⟩ := secs_httpDateParts secs
  have hlen := length_fixedText (httpDateParts_bounds secs).2.1 hdate.month
  unfold httpDateFromSecs
  dsimp only
  rw [writeHttpDateParts_eq hy (by decide)]
  dsimp only
  rw [placed, List.take_zero, List.nil_append, List.take_left' hlen]

/-- **Every second of the years 0 to 9999 is written and read back**: the text names the day of the
week, and is the same in a buffer. -/
theorem httpDate_roundtrip (t : Int) (h : yearStart 0 * 86400 ≤ t ∧ t < yearStart 10000 * 86400) :
    parseHttpDateSecs (httpDateFromSecs t) = .ok t ∧
      dayNames[weekday (t / 86400)]? = some ((httpDateFromSecs t).take 3) ∧
      (httpDateFromSecs t).length = 29 ∧
      ∀ out, 29 ≤ out.length →
        httpDateIntoSlice t out = .ok (placed out 0 (httpDateFromSecs t), 29) := by
  obtain ⟨hdate, hsecs⟩ := secs_httpDateParts t
  obtain ⟨hweekday, hwd, hhh, hmm, hss⟩ := httpDateParts_bounds t
  have hyear := year_httpDateParts h
  -- a day of its month is one of the 31 that the parser allows
  have hd : 1 ≤ (httpDateParts t).d ∧ (httpDateParts t).d ≤ 31 := by
    refine ⟨hdate.day.1, Nat.le_trans hdate.day.2 ?_⟩
    unfold daysInMonth
    split
    · split <;> omega
    · split <;> omega
  rw [httpDateFromSecs_eq hyear]
  refine ⟨?_, ?_, length_fixedText hwd hdate.month, fun out hout => writeHttpDateParts_eq hyear hout⟩
  · have hparsed := parseDateFields_fixedText hwd hdate.month hd.2 hyear hhh hmm hss
    unfold parseHttpDateSecs
    rw [hparsed, orFail_some, ok_bind, secsOfFields_eq (parseDateFields_checked hparsed) hd, if_neg]
    · exact congrArg Except.ok hsecs
    · unfold DateFields.TooEarly DateFields.TooLate
      dsimp only
      omega
  · rw [← hweekday]
    have hname := List.getElem?_eq_getElem (l := dayNames) hwd
    have hget : dayNames.getD (httpDateParts t).wd [] = dayNames[(httpDateParts t).wd] := by
      rw [List.getD_eq_getElem?_getD, hname]
      rfl
    have hlen := length_dayName _ hwd
    rw [hname, ← hget]
    simp only [fixedText, List.append_assoc]
    rw [← hlen, List.take_left]

/-- The sixth of November 1994 was a Sunday. -/
theorem httpDate_roundtrip_1994 :
    (yearStart 0 * 86400 ≤ 784111777 ∧ 784111777 < yearStart 10000 * 86400) ∧
      parseHttpDateSecs (httpDateFromSecs 784111777) = .ok 784111777 :=
  ⟨by decide, (httpDate_roundtrip 784111777 (by decide)).1⟩

end Castrum
