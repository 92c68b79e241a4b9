import Mathlib.Data.List.Basic
import Mathlib.Tactic

/-!
# Castrum — UTF-16 text and its UTF-8 bytes

A JavaScript string is a list of 16-bit code units. It is encoded character by character: a pair of
surrogates is one character, and a surrogate without its partner becomes U+FFFD.

* `Utf16.length_encode_le` — three bytes for a code unit are always enough;
* `Utf16.length_encode_le_of_latin1` — two are enough below 256;
* `Utf16.encode_append` — a text may be cut in front of every unit but a low surrogate;
* `Utf16.fitting_of_le` — an encoder that stops at the end of its room, where there is room.
-/

namespace Castrum

/-- A JavaScript string: its UTF-16 code units. -/
abbrev JsString : Type := List UInt16

namespace Utf16

def isHigh (u : UInt16) : Bool := 0xD800 ≤ u && u ≤ 0xDBFF

def isLow (u : UInt16) : Bool := 0xDC00 ≤ u && u ≤ 0xDFFF

/-- U+FFFD. -/
def replacement : Char := Char.ofNat 0xFFFD

/-- The character of a code unit that stands alone. -/
def single (u : UInt16) : Char :=
  if isHigh u || isLow u then replacement else Char.ofNat u.toNat

/-- The character of a pair of surrogates. -/
def pair (u v : UInt16) : Char :=
  Char.ofNat (0x10000 + (u.toNat - 0xD800) * 0x400 + (v.toNat - 0xDC00))

/-- The characters of a string. -/
def chars : JsString → List Char
  | [] => []
  | [u] => [single u]
  | u :: v :: rest =>
    if isHigh u && isLow v then pair u v :: chars rest else single u :: chars (v :: rest)

/-- The UTF-8 of a string. -/
def encode (s : JsString) : List UInt8 := (chars s).flatMap String.utf8EncodeChar

/-- Every code unit is below 256, as in what a header carries. -/
def Latin1 (s : JsString) : Prop := ∀ u ∈ s, u < 256

/-! ## The characters -/

theorem isHigh_iff {u : UInt16} : isHigh u = true ↔ 0xD800 ≤ u.toNat ∧ u.toNat ≤ 0xDBFF := by
  rw [isHigh, Bool.and_eq_true, decide_eq_true_iff, decide_eq_true_iff]
  rfl

theorem isLow_iff {u : UInt16} : isLow u = true ↔ 0xDC00 ≤ u.toNat ∧ u.toNat ≤ 0xDFFF := by
  rw [isLow, Bool.and_eq_true, decide_eq_true_iff, decide_eq_true_iff]
  rfl

/-- Only a low surrogate joins the unit in front of it. -/
theorem chars_cons {v : UInt16} (hv : isLow v = false) (u : UInt16) (rest : JsString) :
    chars (u :: v :: rest) = single u :: chars (v :: rest) := by
  rw [chars, hv, Bool.and_false, if_neg Bool.false_ne_true]

theorem chars_append {u : UInt16} (hu : isLow u = false) (s t : JsString) :
    chars (s ++ u :: t) = chars s ++ chars (u :: t) := by
  induction s using chars.induct with
  | case1 => rfl
  | case2 v => exact chars_cons hu v t
  | case3 v w rest h ih =>
    rw [List.cons_append, List.cons_append, chars, if_pos h, ih, chars, if_pos h]
    rfl
  | case4 v w rest h ih =>
    rw [List.cons_append, List.cons_append, chars, if_neg h, chars, if_neg h]
    show single v :: chars (w :: rest ++ u :: t) = _
    rw [ih]
    rfl

/-- **Cutting a text** in front of a unit that is not a low surrogate. -/
theorem encode_append {u : UInt16} (hu : isLow u = false) (s t : JsString) :
    encode (s ++ u :: t) = encode s ++ encode (u :: t) := by
  rw [encode, chars_append hu, List.flatMap_append]
  rfl

/-! ## Single units -/

theorem toNat_ofNat {n : Nat} (h : n.isValidChar) : (Char.ofNat n).toNat = n := by
  rw [Char.ofNat, dif_pos h]
  rfl

theorem toNat_single_le (u : UInt16) : (single u).toNat ≤ 0xFFFF := by
  unfold single
  split
  · decide
  · next h =>
    rw [Bool.or_eq_true, not_or, isHigh_iff, isLow_iff] at h
    have hlt := u.toNat_lt
    have hvalid : u.toNat.isValidChar := by
      unfold Nat.isValidChar
      omega
    rw [toNat_ofNat hvalid]
    omega

theorem single_of_lt {u : UInt16} (h : u.toNat < 0x800) : (single u).toNat = u.toNat := by
  have hsurrogate : ¬ ((isHigh u || isLow u) = true) := by
    rw [Bool.or_eq_true, isHigh_iff, isLow_iff]
    omega
  have hvalid : u.toNat.isValidChar := by
    unfold Nat.isValidChar
    omega
  rw [single, if_neg hsurrogate, toNat_ofNat hvalid]

/-- The UTF-8 of a character is one, two or three bytes long below the next power. -/
theorem utf8Size_le (c : Char) :
    (c.toNat < 0x80 → c.utf8Size = 1) ∧ (c.toNat < 0x800 → c.utf8Size ≤ 2) ∧
      (c.toNat ≤ 0xFFFF → c.utf8Size ≤ 3) := by
  have hone := @Char.utf8Size_eq_one_iff c
  have htwo := @Char.utf8Size_eq_two_iff c
  have hthree := @Char.utf8Size_eq_three_iff c
  have hval : c.val.toNat = c.toNat := rfl
  rw [UInt32.le_iff_toNat_le, hval] at hone
  rw [UInt32.lt_iff_toNat_lt, UInt32.le_iff_toNat_le, hval] at htwo hthree
  change _ ↔ c.toNat ≤ 0x7F at hone
  change _ ↔ 0x7F < c.toNat ∧ c.toNat ≤ 0x7FF at htwo
  change _ ↔ 0x7FF < c.toNat ∧ c.toNat ≤ 0xFFFF at hthree
  omega

/-! ## Lengths -/

theorem length_encode (s : JsString) : (encode s).length = ((chars s).map Char.utf8Size).sum := by
  rw [encode, List.length_flatMap]
  simp only [String.length_utf8EncodeChar]

/-- **Three bytes for each code unit** are enough. -/
theorem length_encode_le (s : JsString) : (encode s).length ≤ 3 * s.length := by
  rw [length_encode]
  induction s using chars.induct with
  | case1 => exact Nat.le_refl _
  | case2 u =>
    have hsize := (utf8Size_le (single u)).2.2 (toNat_single_le u)
    simpa [chars] using hsize
  | case3 u v rest h ih =>
    have hsize := (pair u v).utf8Size_le_four
    rw [chars, if_pos h, List.map_cons, List.sum_cons, List.length_cons, List.length_cons]
    omega
  | case4 u v rest h ih =>
    have hsize := (utf8Size_le (single u)).2.2 (toNat_single_le u)
    rw [chars, if_neg h, List.map_cons, List.sum_cons]
    have hcons : (u :: v :: rest).length = (v :: rest).length + 1 := rfl
    omega

/-- The characters of a text without surrogates are its units. -/
theorem chars_of_lt {s : JsString} (h : ∀ u ∈ s, u.toNat < 0x800) : chars s = s.map single := by
  induction s using chars.induct with
  | case1 => rfl
  | case2 u => rfl
  | case3 u v rest hpair ih =>
    rw [Bool.and_eq_true, isLow_iff] at hpair
    have hv := h v (List.mem_cons_of_mem _ List.mem_cons_self)
    omega
  | case4 u v rest hpair ih =>
    rw [chars, if_neg hpair, ih fun w hw => h w (List.mem_cons_of_mem _ hw)]
    rfl

theorem Latin1.toNat_lt {s : JsString} (h : Latin1 s) {u : UInt16} (hu : u ∈ s) : u.toNat < 256 :=
  UInt16.lt_iff_toNat_lt.mp (h u hu)

/-- **Two bytes for each code unit** are enough below 256. -/
theorem length_encode_le_of_latin1 {s : JsString} (h : Latin1 s) :
    (encode s).length ≤ 2 * s.length := by
  have hsmall : ∀ u ∈ s, u.toNat < 0x800 := fun u hu => by
    have hlt := h.toNat_lt hu
    omega
  rw [length_encode, chars_of_lt hsmall, List.map_map]
  clear h
  induction s with
  | nil => exact Nat.le_refl _
  | cons u s ih =>
    have hu := hsmall u List.mem_cons_self
    have hsize : (single u).utf8Size ≤ 2 := by
      apply (utf8Size_le _).2.1
      rw [single_of_lt hu]
      omega
    have hrest := ih fun v hv => hsmall v (List.mem_cons_of_mem _ hv)
    rw [List.map_cons, List.sum_cons, List.length_cons]
    show (single u).utf8Size + _ ≤ _
    omega

/-! ## ASCII -/

/-- The string of ASCII bytes. -/
def ofAscii (bytes : List UInt8) : JsString := bytes.map fun b => UInt16.ofNat b.toNat

theorem encode_single {u : UInt16} (hu : u.toNat < 0x80) :
    String.utf8EncodeChar (single u) = [u.toUInt8] := by
  have hval := single_of_lt (show u.toNat < 0x800 by omega)
  have hsize : (single u).utf8Size = 1 := by
    apply (utf8Size_le _).1
    rw [hval]
    omega
  rw [String.utf8EncodeChar_eq_singleton hsize]
  congr 1
  apply UInt8.toNat_inj.mp
  rw [UInt32.toNat_toUInt8, UInt16.toNat_toUInt8]
  exact congrArg (· % 2 ^ 8) hval

/-- An ASCII unit is a byte of its own in front of any text. -/
theorem encode_cons {u : UInt16} (hu : u.toNat < 0x80) (s : JsString) :
    encode (u :: s) = u.toUInt8 :: encode s := by
  have hhigh : isHigh u = false := by
    rw [← Bool.not_eq_true, isHigh_iff]
    omega
  cases s with
  | nil => exact congrArg (· ++ []) (encode_single hu)
  | cons v rest =>
    rw [encode, chars, hhigh, Bool.false_and, if_neg Bool.false_ne_true, List.flatMap_cons,
      encode_single hu]
    rfl

/-! ## Encoding into a limited room -/

/-- The characters that are written into so many bytes: an encoder stops in front of the first one
that has no room. -/
def fitting : Nat → List Char → List Char
  | _, [] => []
  | room, c :: cs => if c.utf8Size ≤ room then c :: fitting (room - c.utf8Size) cs else []

theorem fitting_of_le {room : Nat} {cs : List Char} (h : (cs.map Char.utf8Size).sum ≤ room) :
    fitting room cs = cs := by
  induction cs generalizing room with
  | nil => rfl
  | cons c cs ih =>
    rw [List.map_cons, List.sum_cons] at h
    rw [fitting, if_pos (by omega), ih (by omega)]

/-- What is written of a string. -/
def encodeFitting (room : Nat) (s : JsString) : List UInt8 :=
  (fitting room (chars s)).flatMap String.utf8EncodeChar

/-- **Where there is room for three bytes a unit**, all of the string is written. -/
theorem encodeFitting_of_le {room : Nat} {s : JsString} (h : 3 * s.length ≤ room) :
    encodeFitting room s = encode s := by
  have hlen := length_encode_le s
  rw [length_encode] at hlen
  rw [encodeFitting, fitting_of_le (by omega), encode]

end Utf16

end Castrum
