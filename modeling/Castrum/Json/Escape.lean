import Castrum.Json.Utf8
import Castrum.Lib.Output
import Castrum.Lib.Split
import Castrum.Util.Wire

/-!
# Castrum — JSON string escaping (`rust/json/json_ser.rs`)

`json_escaped_len` measures and `write_json_escaped` writes, in two loops of their own: both jump
from one `"`, `\` or newline to the next and look at the bytes between them. Input that is not UTF-8
is written as `\u00XX`, byte for byte. Lengths are `Nat`: `saturating_mul` on `usize` clips nothing
that fits in memory.

* `escaped` — what is written, one byte at a time;
* `writeJsonEscaped_eq` / `jsonEscapedLen_eq` — the writer writes it, the measure is its length;
* `escapedLenGaps_isSome` — the gap-wise UTF-8 check is the check of the whole;
* `decodes_escaped` — it is a legal string body, and reads back as the text.
-/

namespace Castrum

open Ascii

/-! ## The source functions -/

/-- Word-at-a-time ASCII test; the last, shorter chunk is looked at byte by byte. -/
def isAsciiFrom : Nat → Bytes → Bool
  | 0, bytes => bytes.all (· < 0x80)
  | n + 1, bytes =>
    if (wordOf (bytes.take 8) &&& 0x8080808080808080) ≠ 0 then false
    else isAsciiFrom n (bytes.drop 8)

def isAscii (bytes : Bytes) : Bool := isAsciiFrom (bytes.length / 8) bytes

def isValidUtf8 (bytes : Bytes) : Bool :=
  if bytes = [] then true
  else if isAscii bytes then true
  else validUtf8 bytes

/-- `memchr3(b'"', b'\\', b'\n', ..)`. -/
def isSpecial (b : UInt8) : Bool := b = quote || b = backslash || b = 10

def memchr3 (bytes : Bytes) : Option Nat := bytes.findIdx? isSpecial

/-- Bytes a run without specials needs beyond its own. -/
def controlEscapeExtra (run : Bytes) : Nat :=
  run.foldl (fun extra b =>
    if b < 0x20 then extra + (if b = 13 ∨ b = 9 ∨ b = 8 ∨ b = 12 then 1 else 5) else extra) 0

/-- The measuring loop for ASCII. -/
def escapedLenFrom : Nat → Bytes → Nat → Nat
  | 0, _, total => total
  | n + 1, rest, total =>
    match memchr3 rest with
    | some pos =>
      escapedLenFrom n (rest.drop (pos + 1)) (total + controlEscapeExtra (rest.take pos) + 1)
    | none => total + controlEscapeExtra rest

def jsonEscapedLenImpl (bytes : Bytes) : Nat :=
  escapedLenFrom (bytes.length + 1) bytes bytes.length

/-- The measuring loop otherwise: it stops at a gap that is not UTF-8. -/
def escapedLenGaps : Nat → Bytes → Nat → Option Nat
  | 0, _, total => some total
  | n + 1, rest, total =>
    match memchr3 rest with
    | some pos =>
      if validUtf8 (rest.take pos) = false then none
      else escapedLenGaps n (rest.drop (pos + 1)) (total + controlEscapeExtra (rest.take pos) + 1)
    | none =>
      if validUtf8 rest = false then none else some (total + controlEscapeExtra rest)

def jsonEscapedLen (bytes : Bytes) : Nat :=
  if isAscii bytes then jsonEscapedLenImpl bytes
  else
    match escapedLenGaps (bytes.length + 1) bytes bytes.length with
    | some total => total
    | none => bytes.length * 6

/-- `\u00XX`. -/
def unicodeEscape (b : UInt8) : Bytes :=
  [backslash, 117, 48, 48, hexDigit (b >>> 4), hexDigit (b &&& 0x0f)]

/-- The loop of `write_escaped_run`. -/
def writeRunFrom : Nat → Out UInt8 → Bytes → Option (Out UInt8)
  | 0, out, _ => some out
  | _ + 1, out, [] => some out
  | n + 1, out, b :: r =>
    if b = 13 then (out.put [backslash, 114]).bind (writeRunFrom n · r)
    else if b = 9 then (out.put [backslash, 116]).bind (writeRunFrom n · r)
    else if b = 8 then (out.put [backslash, 98]).bind (writeRunFrom n · r)
    else if b = 12 then (out.put [backslash, 102]).bind (writeRunFrom n · r)
    else if b < 0x20 then (out.put (unicodeEscape b)).bind (writeRunFrom n · r)
    else
      -- bulk copy up to the next control character
      match (b :: r).findIdx? (· < 0x20) with
      | some k => (out.put ((b :: r).take k)).bind (writeRunFrom n · ((b :: r).drop k))
      | none => out.put (b :: r)

def writeEscapedRun (out : Out UInt8) (run : Bytes) : Option (Out UInt8) :=
  writeRunFrom run.length out run

/-- The escape of a `memchr3` hit. -/
def writeSpecial (out : Out UInt8) (b : UInt8) : Option (Out UInt8) :=
  if b = quote then out.put [backslash, quote]
  else if b = backslash then out.put [backslash, backslash]
  else out.put [backslash, 110]

/-- The loop of `write_json_escaped_utf8`. -/
def writeUtf8From : Nat → Out UInt8 → Bytes → Option (Out UInt8)
  | 0, out, _ => some out
  | n + 1, out, rest =>
    match memchr3 rest with
    | some idx =>
      (writeEscapedRun out (rest.take idx)).bind fun out =>
        (writeSpecial out (rest.getD idx 0)).bind (writeUtf8From n · (rest.drop (idx + 1)))
    | none => writeEscapedRun out rest

def writeJsonEscapedUtf8 (out : Out UInt8) (bytes : Bytes) : Option (Out UInt8) :=
  writeUtf8From (bytes.length + 1) out bytes

/-- The loop for input that is not UTF-8. -/
def writeBinary : Out UInt8 → Bytes → Option (Out UInt8)
  | out, [] => some out
  | out, b :: bs => (out.put (unicodeEscape b)).bind (writeBinary · bs)

/-- Returns the number of bytes written, and the buffer. -/
def writeJsonEscaped (out : Out UInt8) (bytes : Bytes) : Option (Nat × Out UInt8) :=
  (if isValidUtf8 bytes then writeJsonEscapedUtf8 out bytes else writeBinary out bytes).map
    fun out' => (out'.pos - out.pos, out')

/-! ## The ASCII test -/

theorem highBit_eq_zero_iff (b : UInt8) : b.toNat &&& 0x80 = 0 ↔ b < 0x80 := by
  have hall : ∀ n < 256, n &&& 0x80 = 0 ↔ n < 0x80 := by decide +kernel
  rw [UInt8.lt_iff_toNat_lt]
  exact hall _ (UInt8.toNat_lt b)

theorem and_eq_zero_iff_byte {b : UInt8} {w m : Nat} :
    (b.toNat + 256 * w) &&& (0x80 + 256 * m) = 0 ↔ b < 0x80 ∧ w &&& m = 0 := by
  have hb := UInt8.toNat_lt b
  have hmod : ((b.toNat + 256 * w) &&& (0x80 + 256 * m)) % 2 ^ 8 = b.toNat &&& 0x80 := by
    rw [Nat.and_mod_two_pow, show (b.toNat + 256 * w) % 2 ^ 8 = b.toNat by omega,
      show (0x80 + 256 * m) % 2 ^ 8 = 0x80 by omega]
  have hdiv : ((b.toNat + 256 * w) &&& (0x80 + 256 * m)) / 2 ^ 8 = w &&& m := by
    rw [Nat.and_div_two_pow, show (b.toNat + 256 * w) / 2 ^ 8 = w by omega,
      show (0x80 + 256 * m) / 2 ^ 8 = m by omega]
  rw [← highBit_eq_zero_iff, ← hmod, ← hdiv]
  omega

/-- The high bits of `n` bytes. -/
def highMask : Nat → Nat
  | 0 => 0
  | n + 1 => 0x80 + 256 * highMask n

theorem wordOf_and_highMask (chunk : Bytes) :
    wordOf chunk &&& highMask chunk.length = 0 ↔ ∀ b ∈ chunk, b < 0x80 := by
  induction chunk with
  | nil => exact iff_of_true rfl nofun
  | cons b chunk ih =>
    rw [List.forall_mem_cons, ← ih]
    exact and_eq_zero_iff_byte

theorem isAsciiFrom_iff {n : Nat} {bytes : Bytes} (h : 8 * n ≤ bytes.length) :
    isAsciiFrom n bytes = true ↔ ∀ b ∈ bytes, b < 0x80 := by
  induction n generalizing bytes with
  | zero => simp [isAsciiFrom]
  | succ n ih =>
    have hchunk := wordOf_and_highMask (bytes.take 8)
    rw [List.length_take, show min 8 bytes.length = 8 by omega,
      show highMask 8 = 0x8080808080808080 from rfl] at hchunk
    have hall : (∀ b ∈ bytes, b < 0x80) ↔
        (∀ b ∈ bytes.take 8, b < 0x80) ∧ ∀ b ∈ bytes.drop 8, b < 0x80 := by
      conv_lhs => rw [← List.take_append_drop 8 bytes]
      exact List.forall_mem_append
    rw [hall, ← hchunk, ← ih (by rw [List.length_drop]; omega), isAsciiFrom]
    split
    · next hne => exact iff_of_false nofun fun hn => hne hn.1
    · next heq => exact (and_iff_right (not_not.mp heq)).symm

theorem isAscii_iff {bytes : Bytes} : isAscii bytes = true ↔ ∀ b ∈ bytes, b < 0x80 :=
  isAsciiFrom_iff (by omega)

/-- The shortcuts of `is_valid_utf8` do not change it. -/
theorem isValidUtf8_eq (bytes : Bytes) : isValidUtf8 bytes = validUtf8 bytes := by
  unfold isValidUtf8
  split
  · next h => rw [h, validUtf8_nil]
  · split
    · next h => exact (validUtf8_ascii (isAscii_iff.mp h)).symm
    · rfl

/-! ## What is written -/

/-- A byte of a run without specials. -/
def escapeControl (b : UInt8) : Bytes :=
  if b = 13 then [backslash, 114]
  else if b = 9 then [backslash, 116]
  else if b = 8 then [backslash, 98]
  else if b = 12 then [backslash, 102]
  else if b < 0x20 then unicodeEscape b
  else [b]

def escapeByte (b : UInt8) : Bytes :=
  if b = quote then [backslash, quote]
  else if b = backslash then [backslash, backslash]
  else if b = 10 then [backslash, 110]
  else escapeControl b

/-- What `write_json_escaped` leaves in the buffer. -/
def escaped (bytes : Bytes) : Bytes :=
  if validUtf8 bytes = true then bytes.flatMap escapeByte else bytes.flatMap unicodeEscape

theorem flatMap_eq_self {f : UInt8 → Bytes} {l : Bytes} (h : ∀ b ∈ l, f b = [b]) :
    l.flatMap f = l := by
  induction l with
  | nil => rfl
  | cons b l ih =>
    rw [List.flatMap_cons, h b List.mem_cons_self, ih fun x hx => h x (List.mem_cons_of_mem _ hx)]
    rfl

theorem escapeControl_of_le {b : UInt8} (h : ¬ b < 0x20) : escapeControl b = [b] := by
  have hne : ∀ c : UInt8, c < 0x20 → b ≠ c := fun c hc heq => h (heq ▸ hc)
  rw [escapeControl, if_neg (hne 13 (by decide)), if_neg (hne 9 (by decide)),
    if_neg (hne 8 (by decide)), if_neg (hne 12 (by decide)), if_neg h]

theorem writeRunFrom_eq {n : Nat} {run : Bytes} (h : run.length ≤ n) (out : Out UInt8) :
    writeRunFrom n out run = out.put (run.flatMap escapeControl) := by
  induction n generalizing run out with
  | zero =>
    rw [List.eq_nil_of_length_eq_zero (Nat.le_zero.mp h)]
    exact out.put_nil.symm
  | succ n ih =>
    cases run with
    | nil => exact out.put_nil.symm
    | cons b r =>
      rw [List.length_cons] at h
      have hshort : ∀ w, (out.put w).bind (writeRunFrom n · r) =
          out.put (w ++ r.flatMap escapeControl) := by
        intro w
        rw [← Out.put_put]
        exact Option.bind_congr fun o _ => ih (by omega) o
      rw [writeRunFrom, List.flatMap_cons]
      by_cases hb : b < 0x20
      · unfold escapeControl
        simp only [hshort, if_pos hb]
        split
        · rfl
        split
        · rfl
        split
        · rfl
        split <;> rfl
      · have hne : ∀ c : UInt8, c < 0x20 → b ≠ c := fun c hc heq => hb (heq ▸ hc)
        rw [if_neg (hne 13 (by decide)), if_neg (hne 9 (by decide)), if_neg (hne 8 (by decide)),
          if_neg (hne 12 (by decide)), if_neg hb]
        rw [← List.flatMap_cons]
        split
        · next k hk =>
          obtain ⟨c, hc, hbefore, hcut, hlt⟩ := findIdx?_eq_some_cut hk
          -- the run that is copied is not empty: its first byte is no control character
          have hpos : k ≠ 0 := by
            rintro rfl
            rw [List.take_zero, List.nil_append, List.cons.injEq] at hcut
            rw [← hcut.1] at hc
            exact hb (of_decide_eq_true hc)
          have hplain : ((b :: r).take k).flatMap escapeControl = (b :: r).take k :=
            flatMap_eq_self fun x hx => escapeControl_of_le (of_decide_eq_false (hbefore x hx))
          have hdrop : ((b :: r).drop k).length ≤ n := by
            rw [List.length_drop, List.length_cons]
            omega
          conv_rhs => rw [← List.take_append_drop k (b :: r), List.flatMap_append, hplain,
            ← Out.put_put]
          exact Option.bind_congr fun o _ => ih hdrop o
        · next hk =>
          have hplain : (b :: r).flatMap escapeControl = b :: r := by
            apply flatMap_eq_self
            intro x hx
            exact escapeControl_of_le (of_decide_eq_false (List.findIdx?_eq_none_iff.mp hk x hx))
          rw [hplain]

theorem escapeByte_of_not_special {b : UInt8} (h : isSpecial b = false) :
    escapeByte b = escapeControl b := by
  simp only [isSpecial, Bool.or_eq_false_iff, decide_eq_false_iff_not] at h
  rw [escapeByte, if_neg h.1.1, if_neg h.1.2, if_neg h.2]

theorem flatMap_escapeByte_run {run : Bytes} (h : ∀ b ∈ run, isSpecial b = false) :
    run.flatMap escapeByte = run.flatMap escapeControl :=
  List.flatMap_congr fun b hb => escapeByte_of_not_special (h b hb)

theorem writeSpecial_eq {b : UInt8} (h : isSpecial b = true) (out : Out UInt8) :
    writeSpecial out b = out.put (escapeByte b) := by
  simp only [isSpecial, Bool.or_eq_true, decide_eq_true_eq] at h
  unfold writeSpecial escapeByte
  split
  · rfl
  · split
    · rfl
    · next h₁ h₂ => rw [if_pos (by tauto)]

theorem writeUtf8From_eq {n : Nat} {rest : Bytes} (h : rest.length < n) (out : Out UInt8) :
    writeUtf8From n out rest = out.put (rest.flatMap escapeByte) := by
  induction n generalizing rest out with
  | zero => exact absurd h (Nat.not_lt_zero _)
  | succ n ih =>
    rw [writeUtf8From]
    split
    · next k hk =>
      obtain ⟨c, hc, hbefore, hcut, hlt⟩ := findIdx?_eq_some_cut hk
      have hget : rest.getD k 0 = c := by
        rw [List.getD_eq_getElem?_getD, hcut, List.getElem?_append_right (by simp)]
        simp [Nat.min_eq_left (Nat.le_of_lt hlt)]
      have hdrop : (rest.drop (k + 1)).length < n := by
        rw [List.length_drop]
        omega
      conv_rhs => rw [hcut, List.flatMap_append, List.flatMap_cons, flatMap_escapeByte_run hbefore,
        ← Out.put_put]
      rw [writeEscapedRun, writeRunFrom_eq (Nat.le_refl _)]
      refine Option.bind_congr fun o _ => ?_
      rw [hget, writeSpecial_eq hc, ← Out.put_put]
      exact Option.bind_congr fun o' _ => ih hdrop o'
    · next hk =>
      rw [writeEscapedRun, writeRunFrom_eq (Nat.le_refl _),
        flatMap_escapeByte_run fun b hb => List.findIdx?_eq_none_iff.mp hk b hb]

theorem writeBinary_eq (bytes : Bytes) (out : Out UInt8) :
    writeBinary out bytes = out.put (bytes.flatMap unicodeEscape) := by
  induction bytes generalizing out with
  | nil => exact out.put_nil.symm
  | cons b bytes ih =>
    rw [writeBinary, List.flatMap_cons, ← Out.put_put]
    exact Option.bind_congr fun o _ => ih o

/-- **The writer writes `escaped`** and reports how much that is. -/
theorem writeJsonEscaped_eq (out : Out UInt8) (bytes : Bytes) :
    writeJsonEscaped out bytes =
      (out.put (escaped bytes)).map fun out' => ((escaped bytes).length, out') := by
  have hwrite : (if isValidUtf8 bytes = true then writeJsonEscapedUtf8 out bytes
      else writeBinary out bytes) = out.put (escaped bytes) := by
    unfold escaped
    rw [isValidUtf8_eq]
    split
    · exact writeUtf8From_eq (Nat.lt_succ_self _) out
    · exact writeBinary_eq bytes out
  unfold writeJsonEscaped
  rw [hwrite]
  cases hput : out.put (escaped bytes) with
  | none => rfl
  | some out' =>
    obtain ⟨-, hw, -⟩ := Out.put_eq_some_iff.mp hput
    have hpos : out'.pos - out.pos = (escaped bytes).length := by
      rw [Out.pos, Out.pos, hw, List.length_append]
      omega
    rw [Option.map_some, Option.map_some, hpos]

/-! ## What is measured -/

theorem length_unicodeEscape (b : UInt8) : (unicodeEscape b).length = 6 := rfl

theorem length_escapeControl {b : UInt8} (hb : b < 0x20) :
    (escapeControl b).length = (if b = 13 ∨ b = 9 ∨ b = 8 ∨ b = 12 then 1 else 5) + 1 := by
  by_cases h : b = 13 ∨ b = 9 ∨ b = 8 ∨ b = 12
  · rw [if_pos h]
    obtain rfl | rfl | rfl | rfl := h
    all_goals rfl
  · rw [if_neg h, escapeControl]
    rw [not_or, not_or, not_or] at h
    rw [if_neg h.1, if_neg h.2.1, if_neg h.2.2.1, if_neg h.2.2.2, if_pos hb, length_unicodeEscape]

theorem controlEscapeExtra_eq (run : Bytes) :
    controlEscapeExtra run + run.length = (run.flatMap escapeControl).length := by
  have hfold : ∀ (run : Bytes) (extra : Nat),
      run.foldl (fun extra b =>
        if b < 0x20 then extra + (if b = 13 ∨ b = 9 ∨ b = 8 ∨ b = 12 then 1 else 5)
        else extra) extra + run.length = extra + (run.flatMap escapeControl).length := by
    intro run
    induction run with
    | nil => exact fun _ => rfl
    | cons b run ih =>
      intro extra
      have hbyte : (if b < 0x20 then extra + (if b = 13 ∨ b = 9 ∨ b = 8 ∨ b = 12 then 1 else 5)
          else extra) + 1 = extra + (escapeControl b).length := by
        by_cases hb : b < 0x20
        · rw [if_pos hb, length_escapeControl hb]
          omega
        · rw [if_neg hb, escapeControl_of_le hb]
          rfl
      rw [List.foldl_cons, List.length_cons, List.flatMap_cons, List.length_append]
      have := ih (if b < 0x20 then extra + (if b = 13 ∨ b = 9 ∨ b = 8 ∨ b = 12 then 1 else 5)
          else extra)
      omega
  have := hfold run 0
  unfold controlEscapeExtra
  omega

theorem length_escapeByte_special {b : UInt8} (h : isSpecial b = true) :
    (escapeByte b).length = 2 := by
  simp only [isSpecial, Bool.or_eq_true, decide_eq_true_eq] at h
  unfold escapeByte
  split
  · rfl
  · split
    · rfl
    · rw [if_pos (by tauto)]
      rfl

/-- The length of `rest` behind its first special, cut there. -/
theorem length_escape_cut {rest run tail : Bytes} {c : UInt8} (hcut : rest = run ++ c :: tail)
    (hc : isSpecial c = true) (hrun : ∀ b ∈ run, isSpecial b = false) :
    (rest.flatMap escapeByte).length =
      controlEscapeExtra run + run.length + 2 + (tail.flatMap escapeByte).length := by
  rw [hcut, List.flatMap_append, List.flatMap_cons, flatMap_escapeByte_run hrun, List.length_append,
    List.length_append, length_escapeByte_special hc, ← controlEscapeExtra_eq]
  omega

theorem escapedLenFrom_eq {n : Nat} {rest : Bytes} (h : rest.length < n) (extra : Nat) :
    escapedLenFrom n rest (rest.length + extra) = (rest.flatMap escapeByte).length + extra := by
  induction n generalizing rest extra with
  | zero => exact absurd h (Nat.not_lt_zero _)
  | succ n ih =>
    rw [escapedLenFrom]
    split
    · next k hk =>
      obtain ⟨c, hc, hbefore, hcut, hlt⟩ := findIdx?_eq_some_cut hk
      have hlen := congrArg List.length hcut
      rw [List.length_append, List.length_cons] at hlen
      rw [length_escape_cut hcut hc hbefore]
      have hrest := @ih (rest.drop (k + 1)) (by rw [List.length_drop]; omega)
        (extra + controlEscapeExtra (rest.take k) + (rest.take k).length + 2)
      rw [show rest.length + extra + controlEscapeExtra (rest.take k) + 1 =
        (rest.drop (k + 1)).length +
          (extra + controlEscapeExtra (rest.take k) + (rest.take k).length + 2) by omega, hrest]
      omega
    · next hk =>
      rw [flatMap_escapeByte_run fun b hb => List.findIdx?_eq_none_iff.mp hk b hb,
        ← controlEscapeExtra_eq]
      omega

theorem isSpecial_lt {b : UInt8} (h : isSpecial b = true) : b < 0x80 := by
  simp only [isSpecial, Bool.or_eq_true, decide_eq_true_eq] at h
  obtain (rfl | rfl) | rfl := h
  all_goals decide

/-- **The gap-wise check** stops the measure exactly on what is not UTF-8. -/
theorem escapedLenGaps_eq {n : Nat} {rest : Bytes} (h : rest.length < n) (extra : Nat) :
    escapedLenGaps n rest (rest.length + extra) =
      if validUtf8 rest = true then some ((rest.flatMap escapeByte).length + extra) else none := by
  induction n generalizing rest extra with
  | zero => exact absurd h (Nat.not_lt_zero _)
  | succ n ih =>
    rw [escapedLenGaps]
    split
    · next k hk =>
      obtain ⟨c, hc, hbefore, hcut, hlt⟩ := findIdx?_eq_some_cut hk
      have hlen := congrArg List.length hcut
      rw [List.length_append, List.length_cons] at hlen
      -- the special byte is ASCII, so the gap in front of it is checked by itself
      have hvalid : validUtf8 rest = true ↔
          validUtf8 (rest.take k) = true ∧ validUtf8 (rest.drop (k + 1)) = true := by
        conv_lhs => rw [hcut]
        exact validUtf8_cut (isSpecial_lt hc)
      have hrest := @ih (rest.drop (k + 1)) (by rw [List.length_drop]; omega)
        (extra + controlEscapeExtra (rest.take k) + (rest.take k).length + 2)
      rw [length_escape_cut hcut hc hbefore,
        show rest.length + extra + controlEscapeExtra (rest.take k) + 1 =
          (rest.drop (k + 1)).length +
            (extra + controlEscapeExtra (rest.take k) + (rest.take k).length + 2) by omega, hrest]
      simp only [hvalid]
      by_cases hgap : validUtf8 (rest.take k) = true
      · rw [if_neg (by rw [hgap]; decide)]
        by_cases htail : validUtf8 (rest.drop (k + 1)) = true
        · rw [if_pos htail, if_pos ⟨hgap, htail⟩, Option.some.injEq]
          omega
        · rw [if_neg htail, if_neg fun hn => htail hn.2]
      · rw [if_pos (Bool.eq_false_iff.mpr hgap), if_neg fun hn => hgap hn.1]
    · next hk =>
      rw [flatMap_escapeByte_run fun b hb => List.findIdx?_eq_none_iff.mp hk b hb,
        ← controlEscapeExtra_eq]
      by_cases hv : validUtf8 rest = true
      · rw [if_pos hv, if_neg (by rw [hv]; decide), Option.some.injEq]
        omega
      · rw [if_neg hv, if_pos (Bool.eq_false_iff.mpr hv)]

theorem escapedLenGaps_isSome (bytes : Bytes) :
    (escapedLenGaps (bytes.length + 1) bytes bytes.length).isSome = validUtf8 bytes := by
  have h := escapedLenGaps_eq (Nat.lt_succ_self bytes.length) 0
  rw [Nat.add_zero] at h
  rw [h]
  cases validUtf8 bytes <;> rfl

theorem length_flatMap_unicodeEscape (bytes : Bytes) :
    (bytes.flatMap unicodeEscape).length = bytes.length * 6 := by
  induction bytes with
  | nil => rfl
  | cons b bytes ih =>
    rw [List.flatMap_cons, List.length_append, ih, length_unicodeEscape, List.length_cons]
    omega

/-- **The measure is the length of what is written.** -/
theorem jsonEscapedLen_eq (bytes : Bytes) : jsonEscapedLen bytes = (escaped bytes).length := by
  unfold jsonEscapedLen escaped
  split
  · next h =>
    rw [if_pos (validUtf8_ascii (isAscii_iff.mp h))]
    exact escapedLenFrom_eq (Nat.lt_succ_self bytes.length) 0
  · have hgaps := escapedLenGaps_eq (Nat.lt_succ_self bytes.length) 0
    rw [Nat.add_zero] at hgaps
    rw [hgaps]
    by_cases hv : validUtf8 bytes = true
    · simp only [if_pos hv]
      rfl
    · simp only [if_neg hv]
      exact (length_flatMap_unicodeEscape bytes).symm

/-! ## Reading it back -/

/-- The four digits behind `\u` are the byte. -/
theorem hex4_unicodeEscape (b : UInt8) :
    hex4 [48, 48, hexDigit (b >>> 4), hexDigit (b &&& 0x0f)] = some b.toNat := by
  have key : ∀ b : UInt8, hex4 [48, 48, hexDigit (b >>> 4), hexDigit (b &&& 0x0f)] = some b.toNat :=
    forall_byte (by decide +kernel)
  exact key b

theorem Decodes.unicodeEscape (b : UInt8) {r : Bytes} {cps : List Nat} (h : Decodes r cps) :
    Decodes (Castrum.unicodeEscape b ++ r) (b.toNat :: cps) := by
  have hlt := UInt8.toNat_lt b
  refine Decodes.unit (hex4_unicodeEscape b) ?_ h
  rw [isHigh, Bool.and_eq_false_iff]
  exact .inl (decide_eq_false (by omega))

/-- Each ASCII character is written as one plain byte or one escape. -/
theorem Decodes.escapeByte {b : UInt8} (hb : b < 0x80) {r : Bytes} {cps : List Nat}
    (h : Decodes r cps) : Decodes (Castrum.escapeByte b ++ r) (b.toNat :: cps) := by
  unfold Castrum.escapeByte escapeControl
  split
  · next heq =>
    subst heq
    exact Decodes.escape (e := 34) (c := 34) rfl h
  split
  · next heq =>
    subst heq
    exact Decodes.escape (e := 92) (c := 92) rfl h
  split
  · next heq =>
    subst heq
    exact Decodes.escape (e := 110) (c := 10) rfl h
  split
  · next heq =>
    subst heq
    exact Decodes.escape (e := 114) (c := 13) rfl h
  split
  · next heq =>
    subst heq
    exact Decodes.escape (e := 116) (c := 9) rfl h
  split
  · next heq =>
    subst heq
    exact Decodes.escape (e := 98) (c := 8) rfl h
  split
  · next heq =>
    subst heq
    exact Decodes.escape (e := 102) (c := 12) rfl h
  split
  · exact h.unicodeEscape b
  · next hq hbs _ _ _ _ _ hge =>
      -- none of the escapes applies: the byte stands for itself
    exact Decodes.ascii hq hbs (UInt8.not_lt.mp hge) hb h

/-- Bytes beyond ASCII are copied. -/
theorem flatMap_escapeByte_of_not_ascii {l : Bytes} (h : ∀ b ∈ l, ¬ b < 0x80) :
    l.flatMap escapeByte = l := by
  apply flatMap_eq_self
  intro b hb
  have hne : ∀ c : UInt8, c < 0x80 → b ≠ c := fun c hc heq => h b hb (heq ▸ hc)
  rw [escapeByte, if_neg (hne quote (by decide)), if_neg (hne backslash (by decide)),
    if_neg (hne 10 (by decide))]
  apply escapeControl_of_le
  intro hlt
  exact h b hb (UInt8.lt_trans hlt (by decide))

/-- A text, escaped, reads back as its characters. Induction on them. -/
theorem Spells.decodes {bytes : Bytes} {cps : List Nat} (h : Spells bytes cps) :
    Decodes (bytes.flatMap Castrum.escapeByte) cps := by
  obtain ⟨hscalar, rfl⟩ := h
  induction cps with
  | nil => exact Decodes.nil
  | cons cp cps ih =>
    have hcp := hscalar cp List.mem_cons_self
    have hrest := ih fun x hx => hscalar x (List.mem_cons_of_mem _ hx)
    rw [List.flatMap_cons, List.flatMap_append]
    by_cases hlt : cp < 0x80
    · have hpush : pushCp cp = [UInt8.ofNat cp] := if_pos hlt
      have hb : (UInt8.ofNat cp).toNat = cp := ofNat_toNat_of_lt (by omega)
      rw [hpush, List.flatMap_singleton]
      have hdec := hrest.escapeByte (b := UInt8.ofNat cp)
        (by rw [UInt8.lt_iff_toNat_lt, hb]; exact hlt)
      rw [hb] at hdec
      exact hdec
    · have hge : 0x80 ≤ cp := Nat.le_of_not_lt hlt
      obtain ⟨b, t, -, -, hall⟩ := pushCp_spec hge hcp.1
      rw [flatMap_escapeByte_of_not_ascii fun x hx => (hall x hx).2]
      exact Decodes.utf8 hge hcp.1 hcp.2 hrest

theorem decodes_binary (bytes : Bytes) :
    Decodes (bytes.flatMap unicodeEscape) (bytes.map UInt8.toNat) := by
  induction bytes with
  | nil => exact Decodes.nil
  | cons b bytes ih => exact ih.unicodeEscape b

/-- A string body that reads as the given text, or as one code point a byte if that is no UTF-8. -/
def ReadsAs (body bytes : Bytes) : Prop :=
  (∃ cps, Spells bytes cps ∧ Decodes body cps) ∨
    (validUtf8 bytes = false ∧ Decodes body (bytes.map UInt8.toNat))

/-- **What is written is a legal string body**: of the text, or of its bytes as code points. -/
theorem decodes_escaped (bytes : Bytes) : ReadsAs (escaped bytes) bytes := by
  unfold ReadsAs escaped
  by_cases hv : validUtf8 bytes = true
  · rw [if_pos hv]
    obtain ⟨cps, hcps⟩ := validUtf8_iff_spells.mp hv
    exact .inl ⟨cps, hcps, hcps.decodes⟩
  · rw [if_neg hv]
    exact .inr ⟨Bool.eq_false_iff.mpr hv, decodes_binary bytes⟩

/-- **Escaping is exact and invertible.** What is written has the measured length, is a legal
string body, and unescapes to the input, or to one code point a byte if that is not UTF-8. -/
theorem writeJsonEscaped_exact (bytes : Bytes) :
    ∃ text : Bytes,
      (∀ out, writeJsonEscaped out bytes =
        (out.put text).map fun out' => (jsonEscapedLen bytes, out')) ∧
      text.length = jsonEscapedLen bytes ∧
      (∃ cps, Decodes text cps) ∧
      (validUtf8 bytes = true →
        textOf text = bytes ∧ ∃ cps, Spells bytes cps ∧ Decodes text cps) ∧
      (validUtf8 bytes = false →
        textOf text = (bytes.map UInt8.toNat).flatMap pushCp ∧
          Decodes text (bytes.map UInt8.toNat)) ∧
      (escapedLenGaps (bytes.length + 1) bytes bytes.length).isSome = validUtf8 bytes := by
  refine ⟨escaped bytes, ?_, (jsonEscapedLen_eq bytes).symm, ?_, ?_, ?_,
    escapedLenGaps_isSome bytes⟩
  · intro out
    rw [jsonEscapedLen_eq]
    exact writeJsonEscaped_eq out bytes
  · obtain ⟨cps, -, hdec⟩ | ⟨-, hdec⟩ := decodes_escaped bytes
    · exact ⟨cps, hdec⟩
    · exact ⟨_, hdec⟩
  · intro hv
    obtain ⟨cps, hcps, hdec⟩ | ⟨hn, -⟩ := decodes_escaped bytes
    · exact ⟨(textOf_of_decodes hdec).trans hcps.2.symm, cps, hcps, hdec⟩
    · exact nomatch hv.symm.trans hn
  · intro hv
    obtain ⟨cps, hcps, -⟩ | ⟨-, hdec⟩ := decodes_escaped bytes
    · exact nomatch (validUtf8_iff_spells.mpr ⟨cps, hcps⟩).symm.trans hv
    · exact ⟨textOf_of_decodes hdec, hdec⟩

end Castrum
