import Castrum.Json.Decimal
import Castrum.Json.Utf8

/-!
# Castrum — strings, their bytes and their words

What the standard library does with a `&str`: the text of some bytes, the words of a text, the number
a word spells.

* `fromUtf8_eq_some_iff` — a text is read from the bytes that spell it;
* `fromUtf8_ascii` / `strBytes_asciiStr` — bytes below `0x80` are characters;
* `fromUtf8Lossy_lower_iff` — what reads as an ASCII text, replacements and all;
* `splitWhitespace_append` — one word after the other;
* `parseU32_digits` / `parseI64_digits` — digits read as the number they spell.
-/

namespace Castrum

/-! ## The standard library -/

/-- A `&str`, as its scalar values. -/
abbrev Str := List Char

/-- `std::str::from_utf8`. -/
def fromUtf8 (bytes : Bytes) : Option Str :=
  (String.fromUTF8? (ByteArray.mk bytes.toArray)).map String.toList

/-- `str::as_bytes`. -/
def strBytes (s : Str) : Bytes := s.flatMap String.utf8EncodeChar

/-- `char::is_whitespace`. -/
def isUnicodeWhitespace (c : Char) : Bool :=
  let cp := c.toNat
  9 ≤ cp && cp ≤ 13 || cp = 0x20 || cp = 0x85 || cp = 0xA0 || cp = 0x1680 ||
    0x2000 ≤ cp && cp ≤ 0x200A || cp = 0x2028 || cp = 0x2029 || cp = 0x202F || cp = 0x205F ||
    cp = 0x3000

/-- `str::trim`. -/
def strTrim (s : Str) : Str :=
  ((s.dropWhile isUnicodeWhitespace).reverse.dropWhile isUnicodeWhitespace).reverse

/-- `str::split_whitespace`. -/
def splitWhitespace (s : Str) : List Str := (s.splitOnP isUnicodeWhitespace).filter (· ≠ [])

/-- The bytes of the character a byte begins; no character begins with any other byte. -/
def utf8Width (b : UInt8) : Nat :=
  if 0xC2 ≤ b ∧ b ≤ 0xDF then 2
  else if 0xE0 ≤ b ∧ b ≤ 0xEF then 3
  else if 0xF0 ≤ b ∧ b ≤ 0xF4 then 4
  else 1

/-- The bytes that may follow such a byte. -/
def secondRange (b : UInt8) : UInt8 × UInt8 :=
  if b = 0xE0 then (0xA0, 0xBF)
  else if b = 0xED then (0x80, 0x9F)
  else if b = 0xF0 then (0x90, 0xBF)
  else if b = 0xF4 then (0x80, 0x8F)
  else (0x80, 0xBF)

/-- How many of the next bytes go on with the character. -/
def goodConts (range : UInt8 × UInt8) : Nat → Bytes → Nat
  | 0, _ => 0
  | _ + 1, [] => 0
  | n + 1, b :: rest =>
    if range.1 ≤ b ∧ b ≤ range.2 then goodConts (0x80, 0xBF) n rest + 1 else 0

/-- The character that a byte from `0x80` on begins, and the number of bytes behind it that are its
own. What cannot become a character is replaced, as far as it could have. -/
def lossyChar (b : UInt8) (rest : Bytes) : Char × Nat :=
  let behind := utf8Width b - 1
  match fromUtf8 (b :: rest.take behind) with
  | some (c :: _) => (c, behind)
  | _ => (Char.ofNat 0xFFFD, goodConts (secondRange b) behind rest)

def fromUtf8LossyFrom : Nat → Bytes → Str
  | 0, _ => []
  | _ + 1, [] => []
  | n + 1, b :: rest =>
    if b < 0x80 then Char.ofNat b.toNat :: fromUtf8LossyFrom n rest
    else (lossyChar b rest).1 :: fromUtf8LossyFrom n (rest.drop (lossyChar b rest).2)

/-- `String::from_utf8_lossy`. -/
def fromUtf8Lossy (bytes : Bytes) : Str := fromUtf8LossyFrom bytes.length bytes

/-- `str::parse::<u32>`. -/
def parseU32 (s : Bytes) : Option Nat :=
  let digits := if s.head? = some Ascii.plus then s.tail else s
  if digits = [] ∨ digits.all isDigit = false then none
  else if readDigits digits < 2 ^ 32 then some (readDigits digits)
  else none

/-! ## Text and bytes -/

theorem fromUtf8_strBytes (s : Str) : fromUtf8 (strBytes s) = some s := by
  have hbytes : ByteArray.mk (strBytes s).toArray = (String.ofList s).toByteArray := by
    rw [String.toByteArray_ofList]
    exact ByteArray.ext List.data_toByteArray.symm
  unfold fromUtf8 String.fromUTF8?
  rw [hbytes, dif_pos (String.ofList s).isValidUTF8]
  exact congrArg some String.toList_ofList

/-- **A text is read from the bytes that spell it**, and from no others. -/
theorem fromUtf8_eq_some_iff {bytes : Bytes} {s : Str} :
    fromUtf8 bytes = some s ↔ bytes = strBytes s := by
  refine ⟨?_, fun h => h ▸ fromUtf8_strBytes s⟩
  intro h
  have hvalid : validUtf8 bytes = true := by
    by_contra hbad
    rw [validUtf8, ByteArray.validateUTF8_eq_true_iff] at hbad
    unfold fromUtf8 String.fromUTF8? at h
    rw [dif_neg hbad] at h
    cases h
  obtain ⟨m, hm⟩ := ByteArray.validateUTF8_eq_true_iff.mp hvalid
  have hspelled : bytes = strBytes m := by
    have hdata := congrArg (fun b : ByteArray => b.data.toList) hm
    simp only [List.utf8Encode, List.data_toByteArray] at hdata
    exact hdata
  rw [hspelled, fromUtf8_strBytes] at h
  rw [hspelled, Option.some.inj h]

/-- The text of ASCII bytes. -/
def asciiStr (bytes : Bytes) : Str := bytes.map fun b => Char.ofNat b.toNat

theorem asciiStr_append (p q : Bytes) : asciiStr (p ++ q) = asciiStr p ++ asciiStr q :=
  List.map_append

theorem utf8EncodeChar_of_lt {n : Nat} (h : n < 0x80) :
    String.utf8EncodeChar (Char.ofNat n) = [UInt8.ofNat n] := by
  have key : ∀ n : Fin 0x80, String.utf8EncodeChar (Char.ofNat n.val) = [UInt8.ofNat n.val] := by
    decide
  exact key ⟨n, h⟩

theorem toNat_ofNat_of_lt {n : Nat} (h : n < 0x80) : (Char.ofNat n).toNat = n := by
  have key : ∀ n : Fin 0x80, (Char.ofNat n.val).toNat = n.val := by decide
  exact key ⟨n, h⟩

theorem strBytes_asciiStr {bytes : Bytes} (h : ∀ b ∈ bytes, b < 0x80) :
    strBytes (asciiStr bytes) = bytes := by
  induction bytes with
  | nil => rfl
  | cons b bytes ih =>
    have hb := utf8EncodeChar_of_lt (UInt8.lt_iff_toNat_lt.mp (h b List.mem_cons_self))
    rw [UInt8.ofNat_toNat] at hb
    rw [asciiStr, List.map_cons, strBytes, List.flatMap_cons, hb]
    exact congrArg (b :: ·) (ih fun x hx => h x (List.mem_cons_of_mem _ hx))

theorem fromUtf8_ascii {bytes : Bytes} (h : ∀ b ∈ bytes, b < 0x80) :
    fromUtf8 bytes = some (asciiStr bytes) :=
  fromUtf8_eq_some_iff.mpr (strBytes_asciiStr h).symm

/-! ## Lossy reading -/

example : fromUtf8Lossy [0x66, 0xE2, 0x82, 0xAC, 0xE2, 0x82, 0x67, 0xFF] =
    ['f', '€', Char.ofNat 0xFFFD, 'g', Char.ofNat 0xFFFD] := by
  decide

/-- The character begins with a byte of its own, so it is no ASCII character. -/
theorem lossyChar_ge {b : UInt8} (hb : ¬ b < 0x80) (rest : Bytes) :
    0x80 ≤ (lossyChar b rest).1.toNat := by
  unfold lossyChar
  dsimp only
  split
  · next c s heq =>
    have hbytes := fromUtf8_eq_some_iff.mp heq
    by_contra hlow
    have hc := utf8EncodeChar_of_lt (Nat.lt_of_not_le hlow)
    rw [Char.ofNat_toNat] at hc
    rw [strBytes, List.flatMap_cons, hc] at hbytes
    have hfirst := (List.cons.inj hbytes).1
    refine hb (UInt8.lt_iff_toNat_lt.mpr ?_)
    rw [hfirst, UInt8.toNat_ofNat']
    exact Nat.lt_of_le_of_lt (Nat.mod_le _ _) (Nat.lt_of_not_le hlow)
  · exact (by decide : 0x80 ≤ (Char.ofNat 0xFFFD).toNat)

theorem toLower_ofNat {b : UInt8} (hb : b < 0x80) :
    (Char.ofNat b.toNat).toLower = Char.ofNat (asciiLower b).toNat ∧ asciiLower b < 0x80 := by
  have key : ∀ n : Fin 0x80,
      (Char.ofNat n.val).toLower = Char.ofNat (asciiLower (UInt8.ofNat n.val)).toNat ∧
        asciiLower (UInt8.ofNat n.val) < 0x80 := by
    decide
  have := key ⟨b.toNat, hb⟩
  rwa [UInt8.ofNat_toNat] at this

theorem toLower_ge {c : Char} (h : 0x80 ≤ c.toNat) : c.toLower = c := by
  unfold Char.toLower
  refine dif_neg ?_
  rintro ⟨-, hhigh⟩
  have : c.toNat ≤ 90 := hhigh
  omega

theorem asciiLower_ge {b : UInt8} (h : ¬ b < 0x80) : asciiLower b = b := by
  unfold asciiLower
  refine if_neg ?_
  rintro ⟨-, hhigh⟩
  exact h (UInt8.lt_of_le_of_lt hhigh (by decide))

theorem fromUtf8Lossy_ascii {bytes : Bytes} (h : ∀ b ∈ bytes, b < 0x80) :
    fromUtf8Lossy bytes = asciiStr bytes := by
  unfold fromUtf8Lossy
  induction bytes with
  | nil => rfl
  | cons b bytes ih =>
    obtain ⟨hb, h⟩ := List.forall_mem_cons.mp h
    rw [List.length_cons, fromUtf8LossyFrom, if_pos hb, ih h]
    rfl

/-- **A name read with replacements, in lower case, is an ASCII text** just if its bytes are. -/
theorem fromUtf8LossyFrom_lower_iff {n : Nat} {bytes s : Bytes} (hn : bytes.length ≤ n)
    (hs : ∀ b ∈ s, b < 0x80) :
    (fromUtf8LossyFrom n bytes).map Char.toLower = asciiStr s ↔ bytes.map asciiLower = s := by
  induction n generalizing bytes s with
  | zero =>
    obtain rfl := List.eq_nil_of_length_eq_zero (Nat.le_zero.mp hn)
    cases s with
    | nil => exact iff_of_true rfl rfl
    | cons x s => exact iff_of_false nofun nofun
  | succ n ih =>
    cases bytes with
    | nil =>
      cases s with
      | nil => exact iff_of_true rfl rfl
      | cons x s => exact iff_of_false nofun nofun
    | cons b rest =>
      rw [fromUtf8LossyFrom]
      cases s with
      | nil =>
        refine iff_of_false ?_ nofun
        split <;> nofun
      | cons x s =>
        have hx := hs x List.mem_cons_self
        rw [List.map_cons, List.cons.injEq]
        split
        · next hb =>
          obtain ⟨hlower, hlow⟩ := toLower_ofNat hb
          rw [List.map_cons, asciiStr, List.map_cons, List.cons.injEq, hlower]
          refine and_congr ?_ (ih (Nat.le_of_succ_le_succ hn) fun y hy => hs y (List.mem_cons_of_mem _ hy))
          refine ⟨?_, fun h => by rw [h]⟩
          intro h
          have := congrArg Char.toNat h
          rw [toNat_ofNat_of_lt (UInt8.lt_iff_toNat_lt.mp hlow),
            toNat_ofNat_of_lt (UInt8.lt_iff_toNat_lt.mp hx)] at this
          exact UInt8.toNat_inj.mp this
        · next hb =>
            -- a byte that is not ASCII makes a character that is not, before and after lower-casing
          rw [List.map_cons, asciiStr, List.map_cons, List.cons.injEq, toLower_ge (lossyChar_ge hb rest),
            asciiLower_ge hb]
          refine iff_of_false ?_ ?_
          · rintro ⟨h, -⟩
            have hge := lossyChar_ge hb rest
            rw [h, toNat_ofNat_of_lt (UInt8.lt_iff_toNat_lt.mp hx)] at hge
            exact absurd (UInt8.lt_iff_toNat_lt.mp hx) (Nat.not_lt.mpr hge)
          · rintro ⟨rfl, -⟩
            exact hb hx

theorem fromUtf8Lossy_lower_iff {bytes s : Bytes} (hs : ∀ b ∈ s, b < 0x80) :
    (fromUtf8Lossy bytes).map Char.toLower = asciiStr s ↔ bytes.map asciiLower = s :=
  fromUtf8LossyFrom_lower_iff (Nat.le_refl _) hs

/-! ## Words -/

theorem strTrim_of_ends {s : Str} {c d : Char} (hc : s.head? = some c) (hd : s.getLast? = some d)
    (hcw : isUnicodeWhitespace c = false) (hdw : isUnicodeWhitespace d = false) : strTrim s = s := by
  have hfront : s.dropWhile isUnicodeWhitespace = s := by
    cases s with
    | nil => rfl
    | cons x s =>
      obtain rfl := Option.some.inj hc
      rw [List.dropWhile_cons_of_neg (by simpa using hcw)]
  have hback : s.reverse.dropWhile isUnicodeWhitespace = s.reverse := by
    rw [← List.head?_reverse] at hd
    cases hr : s.reverse with
    | nil => rfl
    | cons x r =>
      rw [hr] at hd
      obtain rfl := Option.some.inj hd
      rw [List.dropWhile_cons_of_neg (by simpa using hdw)]
  rw [strTrim, hfront, hback, List.reverse_reverse]

theorem strTrim_cons {c : Char} (hc : isUnicodeWhitespace c = true) (s : Str) :
    strTrim (c :: s) = strTrim s := by
  unfold strTrim
  rw [List.dropWhile_cons_of_pos hc]

/-- A word, the space behind it, and the rest. -/
theorem splitWhitespace_append {word : Str} (hne : word ≠ [])
    (hword : ∀ c ∈ word, isUnicodeWhitespace c = false) (rest : Str) :
    splitWhitespace (word ++ ' ' :: rest) = word :: splitWhitespace rest := by
  unfold splitWhitespace
  rw [List.splitOnP_append_cons_of_forall_mem hword _ (by decide),
    List.filter_cons_of_pos (by simpa using hne)]

/-! ## Numbers -/

theorem not_sign_of_isDigit {b : UInt8} (h : isDigit b = true) : b ≠ Ascii.minus ∧ b ≠ Ascii.plus := by
  refine ⟨?_, ?_⟩
  · rintro rfl
    exact absurd h (by decide)
  · rintro rfl
    exact absurd h (by decide)

theorem parseU32_digits {s : Bytes} (hne : s ≠ []) (hdigits : ∀ b ∈ s, isDigit b = true)
    (hlt : readDigits s < 2 ^ 32) : parseU32 s = some (readDigits s) := by
  cases s with
  | nil => exact absurd rfl hne
  | cons b s =>
    have hplus := (not_sign_of_isDigit (hdigits b List.mem_cons_self)).2
    have hall : (b :: s).all isDigit = true := List.all_eq_true.mpr hdigits
    have hhead : (b :: s).head? ≠ some Ascii.plus := fun h => hplus (Option.some.inj h)
    unfold parseU32
    simp only [if_neg hhead]
    rw [if_neg (by simp only [hall]; simp), if_pos hlt]

theorem parseI64_digits {s : Bytes} (hne : s ≠ []) (hdigits : ∀ b ∈ s, isDigit b = true)
    (hlt : readDigits s < 2 ^ 63) : parseI64 s = some (Int64.ofInt (readDigits s)) := by
  cases s with
  | nil => exact absurd rfl hne
  | cons b s =>
    obtain ⟨hminus, hplus⟩ := not_sign_of_isDigit (hdigits b List.mem_cons_self)
    have hall : (b :: s).all isDigit = true := List.all_eq_true.mpr hdigits
    have hsign : signOf (b :: s) = (false, b :: s) := by
      unfold signOf
      split
      · next heq => exact absurd (List.cons.inj heq).1 hminus
      · next heq => exact absurd (List.cons.inj heq).1 hplus
      · rfl
    unfold parseI64
    rw [hsign]
    simp only [Bool.false_eq_true, if_false]
    rw [if_neg (by simp only [hall]; simp), if_pos (by omega)]

end Castrum
