import Castrum.Http.Headers

/-!
# Castrum — tokens without regard to case (`rust/util/bytes.rs`)

Names of up to 16 bytes are compared by words in which the bit `0x20` of every byte is set, longer
ones letter by letter. In a token the bit makes small letters of the capitals, `~` of `^`, and of
`_` a byte that no token has; so the only characters it confuses are `^` and `~`.

* `caseWord_eq_iff` — two words with their case bits set, byte by byte;
* `asciiEqIgnoreCase_short` / `asciiEqIgnoreCase_long` — the two ways of comparing;
* `asciiEqIgnoreCase_exact_iff` — the tokens on which the comparison is exact.
-/

namespace Castrum

/-! ## The characters of a token -/

/-- `tchar` (`is_token_char`). -/
def isTokenChar (b : UInt8) : Bool :=
  (97 ≤ b && b ≤ 122) || (65 ≤ b && b ≤ 90) || (48 ≤ b && b ≤ 57) || b == 33 || b == 35 ||
    b == 36 || b == 37 || b == 38 || b == 39 || b == 42 || b == 43 || b == 45 || b == 46 ||
    b == 94 || b == 95 || b == 96 || b == 124 || b == 126

/-- One of the two is `^`, the other `~`. -/
def CaretTilde (p : UInt8 × UInt8) : Prop := p = (94, 126) ∨ p = (126, 94)

instance (p : UInt8 × UInt8) : Decidable (CaretTilde p) := inferInstanceAs (Decidable (_ ∨ _))

/-- Short tokens that are the same without regard to case, but for some `^` against `~`. -/
def Confusable (a b : Bytes) : Prop :=
  a.length = b.length ∧ a.length ≤ 16 ∧
    (∀ p ∈ a.zip b, asciiLower p.1 = asciiLower p.2 ∨ CaretTilde p) ∧ ∃ p ∈ a.zip b, CaretTilde p

instance (a b : Bytes) : Decidable (Confusable a b) :=
  inferInstanceAs (Decidable (_ ∧ _ ∧ (∀ p ∈ a.zip b, _) ∧ ∃ p ∈ a.zip b, _))

/-! ## Words -/

theorem wordOf_injective {p q : Bytes} (hlen : p.length = q.length) (h : wordOf p = wordOf q) :
    p = q := by
  induction p generalizing q with
  | nil => exact (List.length_eq_zero_iff.mp hlen.symm).symm
  | cons b p ih =>
    cases q with
    | nil => cases hlen
    | cons c q =>
      have hword : b.toNat + 256 * wordOf p = c.toNat + 256 * wordOf q := h
      have hb := b.toNat_lt
      have hc := c.toNat_lt
      have hhead : b = c := UInt8.toNat_inj.mp (by omega)
      rw [hhead, ih (Nat.succ.inj hlen) (by omega)]

theorem loadU64Padded_eq_iff {p q : Bytes} (hlen : p.length = q.length) (hle : p.length ≤ 8) :
    loadU64Padded p = loadU64Padded q ↔ p = q := by
  constructor
  · intro h
    rw [loadU64Padded, loadU64Padded, List.take_of_length_le hle,
      List.take_of_length_le (hlen ▸ hle)] at h
    exact wordOf_injective hlen h
  · intro h
    rw [h]

/-- The case bits of `n` bytes. -/
def caseBits (n : Nat) : Nat := wordOf (List.replicate n 32)

theorem wordOf_cons_or (b c : UInt8) (p q : Bytes) :
    wordOf (b :: p) ||| wordOf (c :: q) = (b ||| c).toNat + 256 * (wordOf p ||| wordOf q) := by
  have hsplit : ∀ (d : UInt8) (w : Nat), d.toNat + 256 * w = 2 ^ 8 * w ||| d.toNat := by
    intro d w
    rw [← Nat.two_pow_add_eq_or_of_lt d.toNat_lt w, Nat.add_comm]
  have hmul : 2 ^ 8 * (wordOf p ||| wordOf q) = 2 ^ 8 * wordOf p ||| 2 ^ 8 * wordOf q := by
    have h := Nat.shiftLeft_or_distrib (i := 8) (a := wordOf p) (b := wordOf q)
    simpa only [Nat.shiftLeft_eq, Nat.mul_comm] using h
  show (b.toNat + 256 * wordOf p) ||| (c.toNat + 256 * wordOf q) = _
  rw [hsplit, hsplit, hsplit, hmul, UInt8.toNat_or]
  ac_rfl

/-- Setting the case bits of a word sets the case bit of each byte. -/
theorem wordOf_or_caseBits (p : Bytes) (n : Nat) :
    wordOf p ||| caseBits (p.length + n) = wordOf (p.map (· ||| 32) ++ List.replicate n 32) := by
  induction p with
  | nil =>
    show 0 ||| caseBits (0 + n) = _
    rw [Nat.zero_or, Nat.zero_add]
    rfl
  | cons b p ih =>
    have hbits : caseBits ((b :: p).length + n) = wordOf (32 :: List.replicate (p.length + n) 32) := by
      rw [caseBits, List.length_cons, Nat.succ_add, List.replicate_succ]
    rw [hbits, wordOf_cons_or]
    show _ + 256 * (wordOf p ||| caseBits (p.length + n)) = _
    rw [ih]
    rfl

theorem caseWord_eq_iff {p q : Bytes} (hlen : p.length = q.length) (hle : p.length ≤ 8) :
    caseWord p = caseWord q ↔ p.map (· ||| 32) = q.map (· ||| 32) := by
  have hmask : (0x2020202020202020 : Nat) = caseBits 8 := by decide
  have hword : ∀ r : Bytes, r.length ≤ 8 →
      caseWord r = wordOf (r.map (· ||| 32) ++ List.replicate (8 - r.length) 32) := by
    intro r hr
    rw [caseWord, loadU64Padded, List.take_of_length_le hr, hmask, ← wordOf_or_caseBits,
      Nat.add_sub_cancel' hr]
  rw [hword p hle, hword q (hlen ▸ hle), hlen]
  constructor
  · intro h
    exact List.append_cancel_right (wordOf_injective (by simp [hlen]) h)
  · intro h
    rw [h]

theorem caseWord_take (p : Bytes) : caseWord (p.take 8) = caseWord p := by
  rw [caseWord, caseWord, loadU64Padded, loadU64Padded, List.take_take, Nat.min_self]

/-! ## The two ways of comparing -/

/-- Up to 16 bytes: one word, or two. -/
theorem asciiEqIgnoreCase_short {a b : Bytes} (hlen : a.length = b.length) (hle : a.length ≤ 16) :
    asciiEqIgnoreCase a b = true ↔ a.map (· ||| 32) = b.map (· ||| 32) := by
  unfold asciiEqIgnoreCase
  rw [if_neg (not_not.mpr hlen)]
  by_cases hzero : a.length = 0
  · obtain rfl : a = [] := List.eq_nil_of_length_eq_zero hzero
    obtain rfl : b = [] := List.eq_nil_of_length_eq_zero hlen.symm
    exact iff_of_true rfl rfl
  rw [if_neg hzero]
  by_cases height : a.length ≤ 8
  · rw [if_pos height, decide_eq_true_iff]
    exact caseWord_eq_iff hlen height
  · rw [if_neg height, if_pos hle, Bool.and_eq_true, decide_eq_true_iff, decide_eq_true_iff,
      ← caseWord_take a, ← caseWord_take b,
      caseWord_eq_iff (by rw [List.length_take, List.length_take, hlen]) (List.length_take_le _ _),
      caseWord_eq_iff (by rw [List.length_drop, List.length_drop, hlen])
        (by rw [List.length_drop]; omega)]
    conv_rhs => rw [← List.take_append_drop 8 a, ← List.take_append_drop 8 b, List.map_append,
      List.map_append]
    constructor
    · rintro ⟨hfront, hback⟩
      rw [hfront, hback]
    · intro h
      exact List.append_inj h (by simp [hlen])

theorem asciiEqIgnoreCase_long {a b : Bytes} (hlen : a.length = b.length) (hlt : 16 < a.length) :
    asciiEqIgnoreCase a b = true ↔ a.map asciiLower = b.map asciiLower := by
  unfold asciiEqIgnoreCase
  rw [if_neg (not_not.mpr hlen), if_neg (by omega), if_neg (by omega), if_neg (by omega),
    decide_eq_true_iff]

/-! ## Tokens -/

/-- What the case bit makes of a token character. -/
theorem or_32_token {x : UInt8} (hx : isTokenChar x = true) :
    x ||| 32 = if x = 94 then 126 else if x = 95 then 127 else asciiLower x := by
  have key : ∀ x, isTokenChar x = true →
      x ||| 32 = if x = 94 then 126 else if x = 95 then 127 else asciiLower x :=
    forall_byte (by decide +kernel)
  exact key x hx

/-- The small letters, `~` and the rest: no token character has the values the bit sets aside. -/
theorem asciiLower_token {x : UInt8} (hx : isTokenChar x = true) :
    asciiLower x ≠ 127 ∧ (asciiLower x = 126 ↔ x = 126) ∧ (asciiLower x = 95 ↔ x = 95) ∧
      (asciiLower x = 94 ↔ x = 94) := by
  have key : ∀ x, isTokenChar x = true → asciiLower x ≠ 127 ∧ (asciiLower x = 126 ↔ x = 126) ∧
      (asciiLower x = 95 ↔ x = 95) ∧ (asciiLower x = 94 ↔ x = 94) :=
    forall_byte (by decide +kernel)
  exact key x hx

/-- **The case bit on tokens** confuses `^` and `~`, and nothing else but the cases. -/
theorem or_32_eq_token_iff {x y : UInt8} (hx : isTokenChar x = true) (hy : isTokenChar y = true) :
    x ||| 32 = y ||| 32 ↔ asciiLower x = asciiLower y ∨ CaretTilde (x, y) := by
  obtain ⟨hx₁, hx₂, hx₃, hx₄⟩ := asciiLower_token hx
  obtain ⟨hy₁, hy₂, hy₃, hy₄⟩ := asciiLower_token hy
  rw [or_32_token hx, or_32_token hy, CaretTilde, Prod.mk.injEq, Prod.mk.injEq]
  grind

theorem not_caretTilde_of_lower {x y : UInt8} (h : asciiLower x = asciiLower y) :
    ¬ CaretTilde (x, y) := by
  rintro (hxy | hxy)
  · obtain ⟨rfl, rfl⟩ := Prod.mk.inj hxy
    exact absurd h (by decide)
  · obtain ⟨rfl, rfl⟩ := Prod.mk.inj hxy
    exact absurd h (by decide)

/-- Two lists have the same images if their elements have, pair by pair. -/
theorem map_eq_map_iff_zip {α β : Type} {f : α → β} {a b : List α} (hlen : a.length = b.length) :
    a.map f = b.map f ↔ ∀ p ∈ a.zip b, f p.1 = f p.2 := by
  induction a generalizing b with
  | nil =>
    rw [List.eq_nil_of_length_eq_zero hlen.symm]
    simp
  | cons x a ih =>
    cases b with
    | nil => nomatch hlen
    | cons y b =>
      rw [List.map_cons, List.map_cons, List.cons.injEq, ih (Nat.succ.inj hlen), List.zip_cons_cons,
        List.forall_mem_cons]

/-- **Case-insensitive comparison of tokens** is exact, for every length, unless the tokens are
short and differ by a `^` against a `~` alone. -/
theorem asciiEqIgnoreCase_exact_iff {a b : Bytes} (ha : ∀ x ∈ a, isTokenChar x = true)
    (hb : ∀ x ∈ b, isTokenChar x = true) :
    (asciiEqIgnoreCase a b = true ↔ a.map asciiLower = b.map asciiLower) ↔ ¬ Confusable a b := by
  by_cases hlen : a.length = b.length
  · rcases Nat.lt_or_ge 16 a.length with hlong | hshort
    · refine iff_of_true (asciiEqIgnoreCase_long hlen hlong) ?_
      rintro ⟨-, hle, -⟩
      omega
    · have hpairs : (∀ p ∈ a.zip b, p.1 ||| 32 = p.2 ||| 32) ↔
          ∀ p ∈ a.zip b, asciiLower p.1 = asciiLower p.2 ∨ CaretTilde p := by
        refine forall₂_congr fun p hp => ?_
        obtain ⟨hpa, hpb⟩ := List.of_mem_zip hp
        exact or_32_eq_token_iff (ha _ hpa) (hb _ hpb)
      rw [asciiEqIgnoreCase_short hlen hshort, map_eq_map_iff_zip hlen, map_eq_map_iff_zip hlen,
        hpairs, Confusable, and_iff_right hlen, and_iff_right hshort]
      constructor
      · rintro h ⟨hall, p, hp, hconfused⟩
        exact not_caretTilde_of_lower (h.mp hall p hp) hconfused
      · intro h
        refine ⟨fun hall p hp => (hall p hp).resolve_right fun hconfused => ?_,
          fun hlower p hp => .inl (hlower p hp)⟩
        exact h ⟨hall, p, hp, hconfused⟩
  · have hno : asciiEqIgnoreCase a b = false := if_pos hlen
    have hlower : a.map asciiLower ≠ b.map asciiLower := fun h => hlen (by
      simpa using congrArg List.length h)
    rw [hno]
    exact iff_of_true (iff_of_false Bool.false_ne_true hlower) fun h => hlen h.1

/-- `Accept` and `ACCEPT`. -/
theorem asciiEqIgnoreCase_exact_sample :
    asciiEqIgnoreCase [65, 99, 99, 101, 112, 116] [65, 67, 67, 69, 80, 84] = true :=
  ((asciiEqIgnoreCase_exact_iff (by decide) (by decide)).mpr (by decide)).mpr (by decide)

/-- The tokens `x^` and `x~`. -/
theorem asciiEqIgnoreCase_caret :
    ([120, 94] : Bytes).all isTokenChar = true ∧ ([120, 126] : Bytes).all isTokenChar = true ∧
      asciiEqIgnoreCase [120, 94] [120, 126] = true ∧
        ([120, 94] : Bytes).map asciiLower ≠ ([120, 126] : Bytes).map asciiLower := by
  decide

end Castrum
