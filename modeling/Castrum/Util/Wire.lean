import Castrum.Util.Bytes

/-!
# Castrum — little-endian integers on the wire

`to_le_bytes` behind an `as` cast keeps the low bytes of the number; `from_le_bytes` reads them
back. So a field holds the number modulo its width, and the number itself only if it fits.

* `wordOf_le16` / `wordOf_le32` — what is read back;
* `readU16_append` / `readU32_append` — a field in the middle of a frame;
* `readBytes_append` — the bytes a length announces;
* `StandsAt` — the fields of a text, one behind the other.
-/

namespace Castrum

/-- `from_le_bytes`. -/
def wordOf (chunk : Bytes) : Nat := chunk.foldr (fun b w => b.toNat + 256 * w) 0

/-- `(n as u16).to_le_bytes()`. -/
def le16 (n : Nat) : Bytes := [UInt8.ofNat n, UInt8.ofNat (n / 2 ^ 8)]

/-- `(n as u32).to_le_bytes()`. -/
def le32 (n : Nat) : Bytes :=
  [UInt8.ofNat n, UInt8.ofNat (n / 2 ^ 8), UInt8.ofNat (n / 2 ^ 16), UInt8.ofNat (n / 2 ^ 24)]

/-- `n.to_le_bytes()` of a `u64`. -/
def le64 (n : Nat) : Bytes := le32 n ++ le32 (n / 2 ^ 32)

/-- `(n as u16).to_be_bytes()`. -/
def be16 (n : Nat) : Bytes := (le16 n).reverse

/-- `(n as u64).to_be_bytes()`. -/
def be64 (n : Nat) : Bytes := (le64 n).reverse

@[simp] theorem length_le16 (n : Nat) : (le16 n).length = 2 := rfl

@[simp] theorem length_le32 (n : Nat) : (le32 n).length = 4 := rfl

@[simp] theorem length_le64 (n : Nat) : (le64 n).length = 8 := rfl

@[simp] theorem length_be16 (n : Nat) : (be16 n).length = 2 := rfl

@[simp] theorem length_be64 (n : Nat) : (be64 n).length = 8 := List.length_reverse

theorem wordOf_le16 (n : Nat) : wordOf (le16 n) = n % 2 ^ 16 := by
  simp only [wordOf, le16, List.foldr_cons, List.foldr_nil, UInt8.toNat_ofNat']
  omega

theorem wordOf_le32 (n : Nat) : wordOf (le32 n) = n % 2 ^ 32 := by
  simp only [wordOf, le32, List.foldr_cons, List.foldr_nil, UInt8.toNat_ofNat']
  omega

/-- Four bytes are the field that holds the number they spell. -/
theorem le32_wordOf {chunk : Bytes} (h : chunk.length = 4) : le32 (wordOf chunk) = chunk := by
  match chunk, h with
  | [a, b, c, d], _ =>
    have ha := a.toNat_lt
    have hb := b.toNat_lt
    have hc := c.toNat_lt
    have hd := d.toNat_lt
    simp only [wordOf, le32, List.foldr_cons, List.foldr_nil, List.cons.injEq, and_true,
      ← UInt8.toNat_inj, UInt8.toNat_ofNat']
    omega

theorem wordOf_lt (chunk : Bytes) : wordOf chunk < 256 ^ chunk.length := by
  induction chunk with
  | nil => exact Nat.one_pos
  | cons b chunk ih =>
    show b.toNat + 256 * wordOf chunk < 256 ^ (chunk.length + 1)
    have hb := b.toNat_lt
    rw [Nat.pow_succ]
    omega

theorem wordOf_append (p q : Bytes) : wordOf (p ++ q) = wordOf p + 256 ^ p.length * wordOf q := by
  induction p with
  | nil => rw [List.nil_append, List.length_nil, Nat.pow_zero, Nat.one_mul]; exact (Nat.zero_add _).symm
  | cons b p ih =>
    show b.toNat + 256 * wordOf (p ++ q) = b.toNat + 256 * wordOf p + 256 ^ (p.length + 1) * wordOf q
    rw [ih]
    ring

theorem wordOf_le64 {n : Nat} (h : n < 2 ^ 64) : wordOf (le64 n) = n := by
  rw [le64, wordOf_append, wordOf_le32, wordOf_le32, length_le32]
  omega

/-- Eight bytes are the field that holds the number they spell. -/
theorem le64_wordOf {chunk : Bytes} (h : chunk.length = 8) : le64 (wordOf chunk) = chunk := by
  have hlow : (chunk.take 4).length = 4 := List.length_take_of_le (by omega)
  have hhigh : (chunk.drop 4).length = 4 := by rw [List.length_drop, h]
  have hword := wordOf_append (chunk.take 4) (chunk.drop 4)
  have hlt := wordOf_lt (chunk.take 4)
  rw [List.take_append_drop, hlow] at hword
  rw [hlow] at hlt
  have hdiv : wordOf chunk / 2 ^ 32 = wordOf (chunk.drop 4) := by omega
  have hmod : le32 (wordOf chunk) = le32 (wordOf (chunk.take 4)) := by
    have hfield : ∀ n, le32 n = le32 (n % 2 ^ 32) := fun n => by
      rw [← wordOf_le32, le32_wordOf (length_le32 n)]
    rw [hfield (wordOf chunk), hfield (wordOf (chunk.take 4))]
    congr 1
    omega
  rw [le64, hdiv, hmod, le32_wordOf hlow, le32_wordOf hhigh, List.take_append_drop]

/-- What is read back of a big-endian field. -/
theorem wordOf_be16 (n : Nat) : wordOf (be16 n).reverse = n % 2 ^ 16 := by
  rw [be16, List.reverse_reverse, wordOf_le16]

theorem wordOf_be64 {n : Nat} (h : n < 2 ^ 64) : wordOf (be64 n).reverse = n := by
  rw [be64, List.reverse_reverse, wordOf_le64 h]

theorem le32_xor (m n : Nat) : le32 (m ^^^ n) = List.zipWith (· ^^^ ·) (le32 m) (le32 n) := by
  simp only [le32, Nat.xor_div_two_pow, UInt8.ofNat_xor, List.zipWith_cons_cons, List.zipWith_nil_left]

theorem le64_xor (m n : Nat) : le64 (m ^^^ n) = List.zipWith (· ^^^ ·) (le64 m) (le64 n) := by
  rw [le64, Nat.xor_div_two_pow, le32_xor, le32_xor, le64, le64,
    List.zipWith_append (by rw [length_le32, length_le32])]

/-- The field of `width` bytes at `offset`, if the frame has one there. -/
def readWord (width : Nat) (data : Bytes) (offset : Nat) : Option Nat :=
  if offset + width ≤ data.length then some (wordOf ((data.drop offset).take width)) else none

def readU16 (data : Bytes) (offset : Nat) : Option Nat := readWord 2 data offset

def readU32 (data : Bytes) (offset : Nat) : Option Nat := readWord 4 data offset

theorem readWord_append {width : Nat} {field : Bytes} (hfield : field.length = width)
    (before behind : Bytes) :
    readWord width (before ++ (field ++ behind)) before.length = some (wordOf field) := by
  rw [readWord, if_pos (by rw [List.length_append, List.length_append, hfield]; omega),
    List.drop_left, ← hfield, List.take_left]

theorem readU16_append (n : Nat) (before behind : Bytes) :
    readU16 (before ++ (le16 n ++ behind)) before.length = some (n % 2 ^ 16) := by
  rw [readU16, readWord_append (length_le16 n), wordOf_le16]

theorem readU32_append (n : Nat) (before behind : Bytes) :
    readU32 (before ++ (le32 n ++ behind)) before.length = some (n % 2 ^ 32) := by
  rw [readU32, readWord_append (length_le32 n), wordOf_le32]

theorem readWord_lt {width n : Nat} {data : Bytes} {offset : Nat}
    (h : readWord width data offset = some n) : n < 256 ^ width := by
  unfold readWord at h
  split at h
  · rw [Option.some.injEq] at h
    rw [← h]
    apply Nat.lt_of_lt_of_le (wordOf_lt _)
    exact Nat.pow_le_pow_right (by omega) (List.length_take_le _ _)
  · exact nomatch h

/-- `data[offset..offset + len]`, if the slice reaches that far. -/
def readBytes (data : Bytes) (offset len : Nat) : Option Bytes :=
  if offset + len ≤ data.length then some ((data.drop offset).take len) else none

theorem readBytes_append (before field behind : Bytes) :
    readBytes (before ++ (field ++ behind)) before.length field.length = some field := by
  rw [readBytes, if_pos (by rw [List.length_append, List.length_append]; omega), List.drop_left,
    List.take_left]

theorem readBytes_le {data field : Bytes} {offset len : Nat}
    (h : readBytes data offset len = some field) : offset + len ≤ data.length := by
  unfold readBytes at h
  split at h
  · assumption
  · exact nomatch h

theorem length_readBytes {data field : Bytes} {offset len : Nat}
    (h : readBytes data offset len = some field) : field.length = len := by
  unfold readBytes at h
  split at h
  · rw [Option.some.injEq] at h
    rw [← h, List.length_take, List.length_drop]
    omega
  · exact nomatch h

/-- A text that stands at an offset. -/
structure StandsAt (data : Bytes) (offset : Nat) (text : Bytes) : Prop where
  le : offset ≤ data.length
  starts : text <+: data.drop offset

namespace StandsAt

variable {data text text' : Bytes} {offset : Nat}

theorem left (h : StandsAt data offset (text ++ text')) : StandsAt data offset text :=
  ⟨h.le, (List.prefix_append text text').trans h.starts⟩

theorem right (h : StandsAt data offset (text ++ text')) :
    StandsAt data (offset + text.length) text' := by
  obtain ⟨hle, behind, h⟩ := h
  have hlength := congrArg List.length h
  simp only [List.length_append, List.length_drop] at hlength
  refine ⟨by omega, behind, ?_⟩
  rw [← List.drop_drop, ← h, List.append_assoc, List.drop_left]

/-- The data around the text. -/
theorem eq_append (h : StandsAt data offset text) :
    ∃ before behind, data = before ++ (text ++ behind) ∧ before.length = offset := by
  obtain ⟨hle, behind, h⟩ := h
  exact ⟨data.take offset, behind, by rw [h, List.take_append_drop], List.length_take_of_le hle⟩

theorem readU32 {n : Nat} (h : StandsAt data offset (le32 n)) :
    Castrum.readU32 data offset = some (n % 2 ^ 32) := by
  obtain ⟨before, behind, rfl, rfl⟩ := h.eq_append
  exact readU32_append n before behind

theorem readBytes (h : StandsAt data offset text) :
    Castrum.readBytes data offset text.length = some text := by
  obtain ⟨before, behind, rfl, rfl⟩ := h.eq_append
  exact readBytes_append before text behind

theorem getElem? {b : UInt8} (h : StandsAt data offset [b]) : data[offset]? = some b := by
  obtain ⟨before, behind, rfl, rfl⟩ := h.eq_append
  rw [List.getElem?_append_right (Nat.le_refl _), Nat.sub_self]
  rfl

end StandsAt

/-- A component behind its length as a `u32`. -/
def packedComponent (c : Bytes) : Bytes := le32 c.length ++ c

theorem length_packedComponent (c : Bytes) : (packedComponent c).length = 4 + c.length := by
  rw [packedComponent, List.length_append, length_le32]

end Castrum
