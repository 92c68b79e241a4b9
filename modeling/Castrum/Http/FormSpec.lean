import Castrum.Http.FormIndexed
import Castrum.Json.Utf8
import Castrum.Lib.Utf16

/-!
# Castrum — form decoding and `decodeURIComponent`

The contract of the decoder is `try { decodeURIComponent(s.replace(/\+/g, " ")) } catch { return s }`.
`unescapeBytes` replaces the escapes of any byte string by the bytes they stand for; `decodeURIComponent`
is the algorithm of the language, on the characters of a string, where an escape of a byte above
`0x7F` has to open the UTF-8 of a character whose other bytes are escaped right behind it.

* `formDecode_eq_formValue` — the decoder's value, as the contract puts it for bytes;
* `formValue_utf8Of` — on the UTF-8 of a string the two decodings agree;
* `decodeFormComponent_spec` — the decoder, into a buffer and by way of the scratch buffer.
-/

namespace Castrum

/-! ## Bytes -/

/-- Every `%XX` by its byte: `none` for a `%` without two hex digits. -/
def unescapeBytes : Bytes → Option Bytes
  | [] => some []
  | b :: r =>
    if b = 37 then
      match r with
      | h :: l :: r' => do
        let hi ← hexVal h
        let lo ← hexVal l
        let d ← unescapeBytes r'
        return ((hi <<< 4) ||| lo) :: d
      | _ => none
    else (unescapeBytes r).map (b :: ·)

def plusToSpace (b : UInt8) : UInt8 := if b = 43 then 32 else b

/-- The value of a component: as it is, if it has a malformed escape or does not decode to UTF-8. -/
def formValue (src : Bytes) : Bytes :=
  match unescapeBytes (src.map plusToSpace) with
  | some d => if validUtf8 d = true then d else src
  | none => src

theorem hexVal_plusToSpace (b : UInt8) : hexVal (plusToSpace b) = hexVal b := by
  unfold plusToSpace
  split
  · next h =>
    rw [h]
    rfl
  · rfl

theorem plusToSpace_eq_percent {b : UInt8} : plusToSpace b = 37 ↔ b = 37 := by
  unfold plusToSpace
  split
  · next h =>
    rw [h]
    decide
  · exact Iff.rfl

theorem unescapeBytes_cons_of_ne {b : UInt8} (h : b ≠ 37) (r : Bytes) :
    unescapeBytes (b :: r) = (unescapeBytes r).map (b :: ·) := by
  conv_lhs => unfold unescapeBytes
  rw [if_neg h]

theorem percentDecode_eq_unescapeBytes (src : Bytes) :
    percentDecode src = unescapeBytes (src.map plusToSpace) := by
  fun_induction percentDecode src with
  | case1 => rfl
  | case2 r ih =>
    rw [List.map_cons, show plusToSpace 43 = 32 from rfl, unescapeBytes_cons_of_ne (by decide), ih]
  | case3 h l r' _ ih =>
    rw [List.map_cons, List.map_cons, List.map_cons, unescapeBytes]
    rw [if_pos (plusToSpace_eq_percent.mpr rfl), hexVal_plusToSpace, hexVal_plusToSpace, ← ih]
  | case4 r hshort _ =>
    rcases r with _ | ⟨x, _ | ⟨y, r'⟩⟩
    · rfl
    · rfl
    · exact (hshort x y r' rfl).elim
  | case5 b r hplus hpercent ih =>
    have hself : plusToSpace b = b := if_neg hplus
    rw [List.map_cons, hself, unescapeBytes_cons_of_ne hpercent, ih]

theorem formDecode_eq_formValue (src : Bytes) : formDecode src = formValue src := by
  unfold formDecode formValue
  rw [← percentDecode_eq_unescapeBytes]
  split
  · next hplain =>
    -- without a special the component is its own decoding
    have hself : percentDecode src = some src := by
      have hrun := percentDecode_run (fun b (hb : b ∈ src) => by
        simpa using List.any_eq_false.mp hplain b hb) []
      simpa [percentDecode] using hrun
    rw [hself]
    exact (ite_self src).symm
  · rfl

/-! ## Strings -/

/-- The UTF-8 of a string. -/
def utf8Of (s : List Char) : Bytes := s.flatMap String.utf8EncodeChar

def hexDigitValue (c : Char) : Option Nat :=
  if '0' ≤ c ∧ c ≤ '9' then some (c.toNat - '0'.toNat)
  else if 'a' ≤ c ∧ c ≤ 'f' then some (c.toNat - 'a'.toNat + 10)
  else if 'A' ≤ c ∧ c ≤ 'F' then some (c.toNat - 'A'.toNat + 10)
  else none

/-- `%XX` at the start of the string, and what is behind it. -/
def parseEscape : List Char → Option (UInt8 × List Char)
  | '%' :: h :: l :: rest => do
    let hi ← hexDigitValue h
    let lo ← hexDigitValue l
    return (UInt8.ofNat (16 * hi + lo), rest)
  | _ => none

def parseEscapes : Nat → List Char → Option (Bytes × List Char)
  | 0, s => some ([], s)
  | n + 1, s => do
    let (b, s) ← parseEscape s
    let (octets, s) ← parseEscapes n s
    return (b :: octets, s)

/-- The number of leading 1 bits. -/
def leadingOnes (b : UInt8) : Nat :=
  ((List.range 8).takeWhile fun i => b.toNat.testBit (7 - i)).length

/-- The character whose UTF-8 encoding the octets are. -/
def octetsChar (octets : Bytes) : Option Char :=
  (octets.toByteArray.utf8DecodeChar? 0).filter fun c => String.utf8EncodeChar c = octets

/-- The character that the escapes at the start of the string stand for. -/
def parseEscaped (s : List Char) : Option (Char × List Char) := do
  let (b, s) ← parseEscape s
  let n := leadingOnes b
  if n = 0 then return (Char.ofNat b.toNat, s)
  else if n = 1 ∨ 4 < n then none
  else
    let (octets, s) ← parseEscapes (n - 1) s
    let c ← octetsChar (b :: octets)
    return (c, s)

def decodeURIComponentFrom : Nat → List Char → Option (List Char)
  | _, [] => some []
  | 0, _ :: _ => none
  | n + 1, c :: s =>
    if c = '%' then do
      let (c, s) ← parseEscaped (c :: s)
      return c :: (← decodeURIComponentFrom n s)
    else (decodeURIComponentFrom n s).map (c :: ·)

/-- `decodeURIComponent`: `none` for a `URIError`. -/
def decodeURIComponent (s : List Char) : Option (List Char) := decodeURIComponentFrom s.length s

/-- `s.replace(/\+/g, " ")`. -/
def replacePlus (s : List Char) : List Char := s.map fun c => if c = '+' then ' ' else c

/-! ## Characters and their bytes -/

/-- The first byte of a character says how many there are, and the others cannot be first ones. -/
structure Multibyte (b : UInt8) (bs : Bytes) : Prop where
  ones : leadingOnes b = bs.length + 1
  length : 1 ≤ bs.length ∧ bs.length ≤ 3
  first : 0xC0 ≤ b.toNat
  others : ∀ x ∈ bs, 0x80 ≤ x.toNat ∧ x.toNat < 0xC0

theorem leadingOnes_ofNat {n : Nat} (h : n < 0xF8) :
    leadingOnes (UInt8.ofNat n) = if n < 0x80 then 0 else if n < 0xC0 then 1
      else if n < 0xE0 then 2 else if n < 0xF0 then 3 else 4 := by
  have key : ∀ n : Fin 0xF8, leadingOnes (UInt8.ofNat n.val) = if n.val < 0x80 then 0
      else if n.val < 0xC0 then 1 else if n.val < 0xE0 then 2 else if n.val < 0xF0 then 3
      else 4 := by
    decide +kernel
  exact key ⟨n, h⟩

theorem pushCp_multibyte {cp : Nat} (hlow : 0x80 ≤ cp) (hhigh : cp ≤ 0x10FFFF) :
    ∃ b bs, pushCp cp = b :: bs ∧ Multibyte b bs := by
  have hcont : ∀ k : Nat, 0x80 ≤ (UInt8.ofNat (0x80 + k % 0x40)).toNat ∧
      (UInt8.ofNat (0x80 + k % 0x40)).toNat < 0xC0 := by
    intro k
    rw [ofNat_toNat_of_lt (by omega)]
    omega
  rw [pushCp, if_neg (by omega)]
  -- two, three or four bytes: the first one says how many
  split
  · refine ⟨_, _, rfl, ?_, by simp, ?_, ?_⟩
    · rw [leadingOnes_ofNat (by omega), if_neg (by omega), if_neg (by omega), if_pos (by omega)]
      rfl
    · rw [ofNat_toNat_of_lt (by omega)]
      omega
    · simpa using hcont cp
  split
  · refine ⟨_, _, rfl, ?_, by simp, ?_, ?_⟩
    · rw [leadingOnes_ofNat (by omega), if_neg (by omega), if_neg (by omega), if_neg (by omega),
        if_pos (by omega)]
      rfl
    · rw [ofNat_toNat_of_lt (by omega)]
      omega
    · simpa using ⟨hcont (cp / 0x40), hcont cp⟩
  · refine ⟨_, _, rfl, ?_, by simp, ?_, ?_⟩
    · rw [leadingOnes_ofNat (by omega), if_neg (by omega), if_neg (by omega), if_neg (by omega),
        if_neg (by omega)]
      rfl
    · rw [ofNat_toNat_of_lt (by omega)]
      omega
    · simpa using ⟨hcont (cp / 0x1000), hcont (cp / 0x40), hcont cp⟩

/-- A character is one ASCII byte, or several bytes of which none is ASCII. -/
theorem utf8EncodeChar_shape (c : Char) :
    (c.toNat < 0x80 ∧ String.utf8EncodeChar c = [UInt8.ofNat c.toNat]) ∨
    (0x80 ≤ c.toNat ∧ ∃ b bs, String.utf8EncodeChar c = b :: bs ∧ Multibyte b bs) := by
  rw [utf8EncodeChar_eq]
  by_cases hascii : c.toNat < 0x80
  · exact .inl ⟨hascii, if_pos hascii⟩
  · have hvalid := c.valid
    simp only [UInt32.isValidChar, Nat.isValidChar] at hvalid
    have hval : c.val.toNat = c.toNat := rfl
    exact .inr ⟨by omega, pushCp_multibyte (by omega) (by omega)⟩

/-- An ASCII byte among the bytes of a character is the character. -/
theorem mem_utf8EncodeChar {c : Char} {b : UInt8} (hb : b ∈ String.utf8EncodeChar c)
    (hascii : b.toNat < 0x80) : c.toNat = b.toNat := by
  obtain ⟨hlow, hbytes⟩ | ⟨-, b', bs, hbytes, hmulti⟩ := utf8EncodeChar_shape c
  · rw [hbytes, List.mem_singleton] at hb
    rw [hb, ofNat_toNat_of_lt (by omega)]
  · rw [hbytes, List.mem_cons] at hb
    have hfirst := hmulti.first
    obtain rfl | hb := hb
    · omega
    · have hother := hmulti.others b hb
      omega

theorem utf8EncodeChar_inj {c c' : Char} {p q : Bytes}
    (h : String.utf8EncodeChar c ++ p = String.utf8EncodeChar c' ++ q) : c = c' ∧ p = q := by
  have hdecode : ∀ (d : Char) (rest : Bytes),
      ((String.utf8EncodeChar d ++ rest).toByteArray).utf8DecodeChar? 0 = some d := by
    intro d rest
    rw [List.toByteArray_append]
    exact ByteArray.utf8DecodeChar?_utf8EncodeChar_append
  have hc : c = c' := by
    have := hdecode c p
    rw [h, hdecode] at this
    exact (Option.some.inj this).symm
  subst hc
  exact ⟨rfl, List.append_cancel_left h⟩

theorem octetsChar_eq_some_iff {octets : Bytes} {c : Char} :
    octetsChar octets = some c ↔ String.utf8EncodeChar c = octets := by
  rw [octetsChar, Option.filter_eq_some_iff, decide_eq_true_iff]
  refine ⟨fun h => h.2, fun h => ⟨?_, h⟩⟩
  rw [← h]
  have := ByteArray.utf8DecodeChar?_utf8EncodeChar_append (b := .empty) (c := c)
  rwa [ByteArray.append_empty] at this

theorem validUtf8_iff_utf8Of {d : Bytes} : validUtf8 d = true ↔ ∃ t, d = utf8Of t := by
  rw [validUtf8, ByteArray.validateUTF8_eq_true_iff]
  constructor
  · intro h
    obtain ⟨m, hm⟩ := h
    refine ⟨m, ?_⟩
    have hdata := congrArg (fun b : ByteArray => b.data.toList) hm
    simp only [List.utf8Encode, List.data_toByteArray] at hdata
    exact hdata
  · rintro ⟨t, rfl⟩
    exact ⟨t, ByteArray.ext List.data_toByteArray.symm⟩

/-! ## Escapes -/

theorem utf8Of_cons (c : Char) (s : List Char) :
    utf8Of (c :: s) = String.utf8EncodeChar c ++ utf8Of s := List.flatMap_cons

theorem unescapeBytes_append {run : Bytes} (h : ∀ b ∈ run, b ≠ 37) (r : Bytes) :
    unescapeBytes (run ++ r) = (unescapeBytes r).map (run ++ ·) := by
  induction run with
  | nil => simp
  | cons b run ih =>
    rw [List.cons_append, unescapeBytes_cons_of_ne (h b List.mem_cons_self),
      ih fun x hx => h x (List.mem_cons_of_mem _ hx), Option.map_map]
    rfl

/-- A character but `%` stands for itself. -/
theorem unescapeBytes_char {c : Char} (hc : c ≠ '%') (s : List Char) :
    unescapeBytes (utf8Of (c :: s)) =
      (unescapeBytes (utf8Of s)).map (String.utf8EncodeChar c ++ ·) := by
  rw [utf8Of_cons]
  apply unescapeBytes_append
  intro b hb hpercent
  have hsame := mem_utf8EncodeChar hb (by rw [hpercent]; decide)
  rw [hpercent] at hsame
  exact hc (Char.ext (UInt32.toNat_inj.mp hsame))

/-- The digits of the two alphabets are the same. -/
theorem hexDigitValue_of_lt {c : Char} (h : c.toNat < 0x80) :
    hexDigitValue c = (hexVal (UInt8.ofNat c.toNat)).map UInt8.toNat := by
  have key : ∀ n : Fin 0x80, hexDigitValue (Char.ofNat n.val) =
      (hexVal (UInt8.ofNat n.val)).map UInt8.toNat := by
    decide +kernel
  have := key ⟨c.toNat, h⟩
  rwa [Char.ofNat_toNat] at this

theorem hexVal_of_ge {b : UInt8} (h : 0x80 ≤ b.toNat) : hexVal b = none := by
  have key : ∀ n : Fin 0x80, hexVal (UInt8.ofNat (0x80 + n.val)) = none := by
    decide +kernel
  have hlt := b.toNat_lt
  have := key ⟨b.toNat - 0x80, by omega⟩
  rwa [Nat.add_sub_cancel' h, UInt8.ofNat_toNat] at this

theorem hexDigitValue_of_ge {c : Char} (h : 0x80 ≤ c.toNat) : hexDigitValue c = none := by
  have hval : c.val.toNat = c.toNat := rfl
  unfold hexDigitValue
  simp only [Char.le_def, UInt32.le_iff_toNat_le, hval]
  rw [if_neg, if_neg, if_neg]
  all_goals
    intro hle
    exact absurd (h.trans hle.2) (by decide)

theorem octet_eq {hi lo : UInt8} (hhi : hi.toNat < 16) (hlo : lo.toNat < 16) :
    UInt8.ofNat (16 * hi.toNat + lo.toNat) = (hi <<< 4) ||| lo := by
  have key : ∀ hi lo : Fin 16, UInt8.ofNat (16 * hi.val + lo.val) =
      (UInt8.ofNat hi.val <<< 4) ||| UInt8.ofNat lo.val := by
    decide +kernel
  have := key ⟨hi.toNat, hhi⟩ ⟨lo.toNat, hlo⟩
  rwa [UInt8.ofNat_toNat, UInt8.ofNat_toNat] at this

/-- A character is a digit if its first byte is one, and then it has no other. -/
theorem utf8EncodeChar_digit (c : Char) :
    ∃ x xs, String.utf8EncodeChar c = x :: xs ∧
      hexDigitValue c = (hexVal x).map UInt8.toNat ∧ ∀ v, hexVal x = some v → xs = [] := by
  obtain ⟨hlow, hascii⟩ | ⟨hhigh, b, bs, hbytes, hmulti⟩ := utf8EncodeChar_shape c
  · exact ⟨_, _, hascii, hexDigitValue_of_lt hlow, fun _ _ => rfl⟩
  · have hnone : hexVal b = none := hexVal_of_ge (le_trans (by decide) hmulti.first)
    refine ⟨b, bs, hbytes, ?_, fun v hv => nomatch hnone.symm.trans hv⟩
    rw [hexDigitValue_of_ge hhigh, hnone]
    rfl

theorem unescapeBytes_escape (h l : UInt8) (r : Bytes) :
    unescapeBytes (37 :: h :: l :: r) = (hexVal h).bind fun hi => (hexVal l).bind fun lo =>
      (unescapeBytes r).map (((hi <<< 4) ||| lo) :: ·) := by
  rw [unescapeBytes, if_pos rfl]
  cases hexVal h with
  | none => rfl
  | some hi =>
    cases hexVal l with
    | none => rfl
    | some lo => cases unescapeBytes r <;> rfl

/-- A `%` is decoded with the two characters behind it, or not at all. -/
theorem unescapeBytes_percent (s : List Char) :
    unescapeBytes (utf8Of ('%' :: s)) = (parseEscape ('%' :: s)).bind fun r =>
      (unescapeBytes (utf8Of r.2)).map (r.1 :: ·) := by
  rw [utf8Of_cons, show String.utf8EncodeChar '%' = [37] by decide, List.singleton_append]
  match s with
  | [] => rfl
  | [h] =>
    -- one character is no escape, also where it has two bytes: its first one is no digit then
    obtain ⟨x, xs, hx, -, hdigit⟩ := utf8EncodeChar_digit h
    rw [utf8Of_cons, hx, show utf8Of [] = [] from rfl, List.append_nil]
    show _ = none
    match xs with
    | [] => rfl
    | y :: ys =>
      have hnone : hexVal x = none := by
        cases hv : hexVal x with
        | none => rfl
        | some v => nomatch hdigit v hv
      rw [unescapeBytes_escape, hnone]
      rfl
  | h :: l :: rest =>
    obtain ⟨x, xs, hx, hhi, hxs⟩ := utf8EncodeChar_digit h
    obtain ⟨y, ys, hy, hlo, hys⟩ := utf8EncodeChar_digit l
    have hparse : parseEscape ('%' :: h :: l :: rest) = (hexVal x).bind fun hi =>
        (hexVal y).bind fun lo => some (UInt8.ofNat (16 * hi.toNat + lo.toNat), rest) := by
      rw [parseEscape, hhi, hlo]
      cases hexVal x with
      | none => rfl
      | some hi => cases hexVal y <;> rfl
    rw [hparse, utf8Of_cons, utf8Of_cons, hx, hy]
    cases hvx : hexVal x with
    | none =>
      -- the byte read as the second digit may belong to the first character, and does not matter
      cases xs with
      | nil =>
        rw [List.singleton_append, List.cons_append, unescapeBytes_escape, hvx]
        rfl
      | cons z zs =>
        rw [List.cons_append, List.cons_append, unescapeBytes_escape, hvx]
        rfl
    | some hi =>
      rw [hxs hi hvx, List.singleton_append, List.cons_append, unescapeBytes_escape, hvx,
        Option.bind_some, Option.bind_some]
      cases hvy : hexVal y with
      | none => rfl
      | some lo =>
        rw [hys lo hvy, Option.bind_some, Option.bind_some, Option.bind_some,
          octet_eq (UInt8.lt_iff_toNat_lt.mp (hexVal_lt hvx))
            (UInt8.lt_iff_toNat_lt.mp (hexVal_lt hvy))]
        rfl

theorem utf8EncodeChar_ne_nil (c : Char) : String.utf8EncodeChar c ≠ [] := by
  obtain ⟨-, hascii⟩ | ⟨-, b, bs, hbytes, -⟩ := utf8EncodeChar_shape c
  · rw [hascii]
    exact List.cons_ne_nil _ _
  · rw [hbytes]
    exact List.cons_ne_nil _ _

theorem parseEscape_eq_some {s s' : List Char} {b : UInt8} (h : parseEscape s = some (b, s')) :
    s'.length < s.length ∧ unescapeBytes (utf8Of s) = (unescapeBytes (utf8Of s')).map (b :: ·) := by
  have hshape : ∃ h l, s = '%' :: h :: l :: s' := by
    unfold parseEscape at h
    split at h
    · next hd ld rest =>
      obtain ⟨hi, -, h⟩ := Option.bind_eq_some_iff.mp h
      obtain ⟨lo, -, h⟩ := Option.bind_eq_some_iff.mp h
      obtain ⟨-, rfl⟩ := Prod.mk.inj (Option.some.inj h)
      exact ⟨hd, ld, rfl⟩
    · nomatch h
  obtain ⟨hd, ld, rfl⟩ := hshape
  refine ⟨by simp only [List.length_cons]; omega, ?_⟩
  rw [unescapeBytes_percent, h]
  rfl

theorem parseEscapes_eq_some {n : Nat} {s s' : List Char} {octets : Bytes}
    (h : parseEscapes n s = some (octets, s')) :
    s'.length ≤ s.length ∧
      unescapeBytes (utf8Of s) = (unescapeBytes (utf8Of s')).map (octets ++ ·) := by
  induction n generalizing s octets with
  | zero =>
    obtain ⟨rfl, rfl⟩ := Prod.mk.inj (Option.some.inj h)
    exact ⟨Nat.le_refl _, by simp⟩
  | succ n ih =>
    obtain ⟨⟨b, s₁⟩, hb, h⟩ := Option.bind_eq_some_iff.mp h
    obtain ⟨⟨octets', s₂⟩, hoctets, h⟩ := Option.bind_eq_some_iff.mp h
    obtain ⟨rfl, rfl⟩ := Prod.mk.inj (Option.some.inj h)
    obtain ⟨hlt, hfirst⟩ := parseEscape_eq_some hb
    obtain ⟨hle, hrest⟩ := ih hoctets
    refine ⟨by omega, ?_⟩
    rw [hfirst, hrest, Option.map_map]
    rfl

theorem leadingOnes_eq_zero {b : UInt8} (h : leadingOnes b = 0) : b.toNat < 0x80 := by
  have key : ∀ b, leadingOnes b = 0 → b.toNat < 0x80 := forall_byte (by decide +kernel)
  exact key b h

theorem utf8EncodeChar_ofNat {b : UInt8} (h : b.toNat < 0x80) :
    String.utf8EncodeChar (Char.ofNat b.toNat) = [b] := by
  have hvalid : b.toNat.isValidChar := by
    unfold Nat.isValidChar
    omega
  rw [utf8EncodeChar_eq, Utf16.toNat_ofNat hvalid]
  exact pushCp_toNat (UInt8.lt_iff_toNat_lt.mpr h)

/-- What the escapes of a character decode to is its UTF-8. -/
theorem parseEscaped_eq_some {s s' : List Char} {c : Char} (h : parseEscaped s = some (c, s')) :
    s'.length < s.length ∧
      unescapeBytes (utf8Of s) = (unescapeBytes (utf8Of s')).map (String.utf8EncodeChar c ++ ·) := by
  obtain ⟨⟨b, s₁⟩, hb, h⟩ := Option.bind_eq_some_iff.mp h
  obtain ⟨hlt, hfirst⟩ := parseEscape_eq_some hb
  dsimp only at h
  split at h
  · next hzero =>
    obtain ⟨rfl, rfl⟩ := Prod.mk.inj (Option.some.inj h)
    refine ⟨hlt, ?_⟩
    rw [hfirst, utf8EncodeChar_ofNat (leadingOnes_eq_zero hzero)]
    rfl
  split at h
  · nomatch h
  · obtain ⟨⟨octets, s₂⟩, hoctets, h⟩ := Option.bind_eq_some_iff.mp h
    obtain ⟨c', hchar, h⟩ := Option.bind_eq_some_iff.mp h
    obtain ⟨rfl, rfl⟩ := Prod.mk.inj (Option.some.inj h)
    obtain ⟨hle, hrest⟩ := parseEscapes_eq_some hoctets
    refine ⟨lt_of_le_of_lt hle hlt, ?_⟩
    rw [hfirst, hrest, Option.map_map, octetsChar_eq_some_iff.mp hchar]
    rfl

/-- **A string that is decoded** decodes as bytes, to the UTF-8 of the result. -/
theorem unescapeBytes_of_decodeURIComponentFrom {n : Nat} {s t : List Char}
    (h : decodeURIComponentFrom n s = some t) :
    unescapeBytes (utf8Of s) = some (utf8Of t) := by
  induction n generalizing s t with
  | zero =>
    cases s with
    | nil =>
      obtain rfl := Option.some.inj h
      rfl
    | cons c s => nomatch h
  | succ n ih =>
    cases s with
    | nil =>
      obtain rfl := Option.some.inj h
      rfl
    | cons c s =>
      rw [decodeURIComponentFrom] at h
      split at h
      · obtain ⟨⟨c', s'⟩, hescaped, h⟩ := Option.bind_eq_some_iff.mp h
        obtain ⟨t', ht', h⟩ := Option.bind_eq_some_iff.mp h
        obtain rfl := Option.some.inj h
        rw [(parseEscaped_eq_some hescaped).2, ih ht', utf8Of_cons]
        rfl
      · next hc =>
        obtain ⟨t', ht', rfl⟩ := Option.map_eq_some_iff.mp h
        rw [unescapeBytes_char hc, ih ht', utf8Of_cons]
        rfl

/-! ## Back from bytes -/

/-- A byte that cannot begin a character has been escaped. -/
theorem parseEscape_of_continuation {s : List Char} {b : UInt8} {d : Bytes}
    (hb : 0x80 ≤ b.toNat ∧ b.toNat < 0xC0) (h : unescapeBytes (utf8Of s) = some (b :: d)) :
    ∃ s', parseEscape s = some (b, s') ∧ unescapeBytes (utf8Of s') = some d := by
  match s with
  | [] => nomatch h
  | c :: s =>
    by_cases hc : c = '%'
    · rw [hc, unescapeBytes_percent] at h
      obtain ⟨⟨b', s'⟩, hparse, h⟩ := Option.bind_eq_some_iff.mp h
      obtain ⟨d', hd', h⟩ := Option.map_eq_some_iff.mp h
      obtain ⟨rfl, rfl⟩ := List.cons.inj h
      rw [hc]
      exact ⟨s', hparse, hd'⟩
    · rw [unescapeBytes_char hc] at h
      obtain ⟨d', -, h⟩ := Option.map_eq_some_iff.mp h
      exfalso
      obtain ⟨hlow, hascii⟩ | ⟨-, b', bs, hbytes, hmulti⟩ := utf8EncodeChar_shape c
      · rw [hascii] at h
        have hfirst := congrArg UInt8.toNat (List.cons.inj h).1
        rw [ofNat_toNat_of_lt (by omega)] at hfirst
        omega
      · rw [hbytes] at h
        have hfirst := hmulti.first
        rw [(List.cons.inj h).1] at hfirst
        omega

theorem parseEscapes_of_continuation {bs d : Bytes} {s : List Char}
    (hbs : ∀ x ∈ bs, 0x80 ≤ x.toNat ∧ x.toNat < 0xC0)
    (h : unescapeBytes (utf8Of s) = some (bs ++ d)) :
    ∃ s', parseEscapes bs.length s = some (bs, s') ∧ unescapeBytes (utf8Of s') = some d := by
  induction bs generalizing s with
  | nil => exact ⟨s, rfl, h⟩
  | cons b bs ih =>
    obtain ⟨s₁, hfirst, h⟩ := parseEscape_of_continuation (hbs b List.mem_cons_self) h
    obtain ⟨s₂, hrest, h⟩ := ih (fun x hx => hbs x (List.mem_cons_of_mem _ hx)) h
    refine ⟨s₂, ?_, h⟩
    show (parseEscape s).bind _ = _
    rw [hfirst, Option.bind_some]
    dsimp only
    rw [hrest]
    rfl

/-- The escapes that decode to the UTF-8 of a character are read as this character. -/
theorem parseEscaped_of_bytes {s : List Char} {c : Char} {d : Bytes}
    (h : unescapeBytes (utf8Of ('%' :: s)) = some (String.utf8EncodeChar c ++ d)) :
    ∃ s', parseEscaped ('%' :: s) = some (c, s') ∧ unescapeBytes (utf8Of s') = some d := by
  rw [unescapeBytes_percent] at h
  obtain ⟨⟨b, s₁⟩, hparse, h⟩ := Option.bind_eq_some_iff.mp h
  obtain ⟨d₁, hd₁, h⟩ := Option.map_eq_some_iff.mp h
  dsimp only at hd₁ h
  unfold parseEscaped
  rw [hparse]
  simp only [Option.bind_eq_bind, Option.bind_some]
  obtain ⟨hlow, hascii⟩ | ⟨-, b', bs, hbytes, hmulti⟩ := utf8EncodeChar_shape c
  · rw [hascii] at h
    obtain ⟨rfl, rfl⟩ := List.cons.inj h
    have hones : leadingOnes (UInt8.ofNat c.toNat) = 0 := by
      rw [leadingOnes_ofNat (by omega), if_pos hlow]
    rw [if_pos hones, ofNat_toNat_of_lt (by omega), Char.ofNat_toNat]
    exact ⟨s₁, rfl, hd₁⟩
  · rw [hbytes] at h
    obtain ⟨rfl, rfl⟩ := List.cons.inj h
    obtain ⟨s₂, hrest, hd⟩ := parseEscapes_of_continuation hmulti.others hd₁
    obtain ⟨hmin, hmax⟩ := hmulti.length
    rw [hmulti.ones, if_neg (by omega), if_neg (by omega), Nat.add_sub_cancel, hrest]
    simp only [Option.bind_some, octetsChar_eq_some_iff.mpr hbytes]
    exact ⟨s₂, rfl, hd⟩

/-- **A string that decodes as bytes**, to the UTF-8 of a string, is decoded to that string. -/
theorem decodeURIComponentFrom_of_unescapeBytes {n : Nat} {s t : List Char} (hn : s.length ≤ n)
    (h : unescapeBytes (utf8Of s) = some (utf8Of t)) : decodeURIComponentFrom n s = some t := by
  -- no bytes are the text of no characters only
  have empty : ∀ {m : Nat} {t : List Char}, unescapeBytes (utf8Of []) = some (utf8Of t) →
      decodeURIComponentFrom m [] = some t := by
    intro m t h
    cases t with
    | nil => rw [decodeURIComponentFrom]
    | cons c t =>
      rw [utf8Of_cons] at h
      have hnil := (List.append_eq_nil_iff.mp (Option.some.inj h).symm).1
      exact absurd hnil (utf8EncodeChar_ne_nil c)
  induction n generalizing s t with
  | zero =>
    obtain rfl := List.eq_nil_of_length_eq_zero (Nat.le_zero.mp hn)
    exact empty h
  | succ n ih =>
    cases s with
    | nil => exact empty h
    | cons c s =>
      rw [List.length_cons] at hn
      rw [decodeURIComponentFrom]
      by_cases hc : c = '%'
      · rw [if_pos hc]
        subst hc
        cases t with
        | nil =>
          rw [unescapeBytes_percent] at h
          obtain ⟨_, -, h⟩ := Option.bind_eq_some_iff.mp h
          obtain ⟨_, -, h⟩ := Option.map_eq_some_iff.mp h
          nomatch h
        | cons c' t =>
          -- the escapes at the front spell the first character
          rw [utf8Of_cons] at h
          obtain ⟨s', hescaped, hrest⟩ := parseEscaped_of_bytes h
          have hlt := (parseEscaped_eq_some hescaped).1
          rw [List.length_cons] at hlt
          rw [hescaped]
          show (decodeURIComponentFrom n s').bind _ = _
          rw [ih (by omega) hrest]
          rfl
      · rw [if_neg hc]
        rw [unescapeBytes_char hc] at h
        obtain ⟨d, hd, h⟩ := Option.map_eq_some_iff.mp h
        cases t with
        | nil => exact absurd (List.append_eq_nil_iff.mp h).1 (utf8EncodeChar_ne_nil c)
        | cons c' t =>
          rw [utf8Of_cons] at h
          obtain ⟨rfl, rfl⟩ := utf8EncodeChar_inj h
          rw [ih (by omega) hd]
          rfl

theorem utf8Of_map_plusToSpace (s : List Char) :
    (utf8Of s).map plusToSpace = utf8Of (replacePlus s) := by
  induction s with
  | nil => rfl
  | cons c s ih =>
    show _ = utf8Of ((if c = '+' then ' ' else c) :: replacePlus s)
    rw [utf8Of_cons, List.map_append, ih, utf8Of_cons]
    congr 1
    split
    · next hc =>
      rw [hc]
      decide
    · next hc =>
      conv_rhs => rw [← List.map_id (String.utf8EncodeChar c)]
      apply List.map_congr_left
      intro b hb
      refine if_neg fun hplus => hc ?_
      have hsame := mem_utf8EncodeChar hb (by rw [hplus]; decide)
      rw [hplus] at hsame
      exact Char.ext (UInt32.toNat_inj.mp hsame)

/-! ## The contract -/

/-- **On the UTF-8 of a string** the value is what `decodeURIComponent` makes of the string, or the
string itself where it throws. -/
theorem formValue_utf8Of (s : List Char) :
    formValue (utf8Of s) = utf8Of ((decodeURIComponent (replacePlus s)).getD s) := by
  unfold formValue
  rw [utf8Of_map_plusToSpace]
  cases hstring : decodeURIComponent (replacePlus s) with
  | some t =>
    rw [unescapeBytes_of_decodeURIComponentFrom hstring]
    exact if_pos (validUtf8_iff_utf8Of.mpr ⟨t, rfl⟩)
  | none =>
    cases hbytes : unescapeBytes (utf8Of (replacePlus s)) with
    | none => rfl
    | some d =>
      refine if_neg fun hvalid => ?_
      obtain ⟨t, rfl⟩ := validUtf8_iff_utf8Of.mp hvalid
      nomatch hstring.symm.trans
        (decodeURIComponentFrom_of_unescapeBytes (Nat.le_refl _) hbytes)

/-- **The form decoder** writes the value of the component over the start of a buffer that is as
long as the component, answers it by way of the scratch buffer as well, and never indexes out of
range, whatever the room. -/
theorem decodeFormComponent_spec {src out : Bytes} (hout : src.length ≤ out.length)
    (scratch : Bytes) :
    Indexed.decodeFormComponentInto src out =
      .ok ((formValue src).length, formValue src ++ out.drop (formValue src).length) ∧
    (∃ left, Indexed.decodeFormComponentScratch src scratch = .ok (formValue src, left)) ∧
    (∀ out', Indexed.decodeFormComponentInto src out' ≠ .error .panic) ∧
    ∀ s, src = utf8Of s → formValue src = utf8Of ((decodeURIComponent (replacePlus s)).getD s) := by
  rw [← formDecode_eq_formValue]
  refine ⟨?_, Indexed.decodeFormComponentScratch_eq src scratch, ?_, ?_⟩
  · exact (Indexed.decodeFormComponentInto_eq src out).2 ((formDecode_length_le src).trans hout)
  · intro out' hpanic
    obtain ⟨hshort, hfits⟩ := Indexed.decodeFormComponentInto_eq src out'
    rcases Nat.lt_or_ge out'.length (formDecode src).length with hlt | hle
    · obtain ⟨left, hleft⟩ := hshort hlt
      nomatch hpanic.symm.trans hleft
    · nomatch hpanic.symm.trans (hfits hle)
  · rintro s rfl
    rw [formDecode_eq_formValue]
    exact formValue_utf8Of s

/-- `a+%C3%a9`, and the same with its last escape cut off. -/
theorem decodeFormComponent_spec_sample :
    Indexed.decodeFormComponentInto [97, 43, 37, 67, 51, 37, 97, 57] (List.replicate 9 0) =
      .ok (4, [97, 32, 0xC3, 0xA9, 0, 0, 0, 0, 0]) ∧
    Indexed.decodeFormComponentInto [97, 43, 37, 67, 51, 37, 97] (List.replicate 9 0) =
      .ok (7, [97, 43, 37, 67, 51, 37, 97, 0, 0]) := by
  refine ⟨(decodeFormComponent_spec (by decide) []).1.trans ?_,
    (decodeFormComponent_spec (by decide) []).1.trans ?_⟩
  · decide +kernel
  · decide +kernel

end Castrum
