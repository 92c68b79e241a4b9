import Castrum.Util.Str

/-!
# Castrum — request ids (`src/shared/request-id.ts`)

An id is a counter of 64 bits, kept as two words of 32 and written as 16 hexadecimal digits. The counter
starts where the boot randomness puts it and moves on with each id.

* `IdCounter.value_tick` — the two words count as one;
* `idText_inj` — an id shows the whole counter;
* `idText_ticks_inj` — the ids of `2 ^ 64` calls are all different.
-/

namespace Castrum

/-- `COUNTER`. -/
structure IdCounter where
  hi : UInt32
  lo : UInt32
  deriving DecidableEq

namespace IdCounter

/-- At boot: a random word, and the number of the worker in its upper half. -/
def boot (bootRandom : UInt32) (workerId : UInt16) : IdCounter :=
  ⟨bootRandom ^^^ (workerId.toUInt32 <<< 16), 0⟩

def tick (c : IdCounter) : IdCounter :=
  if c.lo = 0xffffffff then ⟨c.hi + 1, 0⟩ else ⟨c.hi, c.lo + 1⟩

/-- `BINARY`. -/
def binary (c : IdCounter) : Bytes :=
  [(c.hi >>> 24).toUInt8, (c.hi >>> 16).toUInt8, (c.hi >>> 8).toUInt8, c.hi.toUInt8,
    (c.lo >>> 24).toUInt8, (c.lo >>> 16).toUInt8, (c.lo >>> 8).toUInt8, c.lo.toUInt8]

end IdCounter

/-- The bytes of the next id, and the counter behind it. -/
def generateRequestId (c : IdCounter) : Bytes × IdCounter := (hexEncode c.tick.binary, c.tick)

/-- The id that a counter shows, as the handler decodes it. -/
def idText (c : IdCounter) : Str := fromUtf8Lossy (hexEncode c.binary)

/-! ## One counter

The two halves are one number, and ticking counts modulo `2 ^ 64`. -/

namespace IdCounter

def value (c : IdCounter) : Nat := c.hi.toNat * 2 ^ 32 + c.lo.toNat

theorem value_tick (c : IdCounter) : c.tick.value = (c.value + 1) % 2 ^ 64 := by
  have hhi := c.hi.toNat_lt
  have hlo := c.lo.toNat_lt
  unfold tick
  split
  · next hmax =>
    have hlast : c.lo.toNat = 2 ^ 32 - 1 := congrArg UInt32.toNat hmax
    have hnext : (c.hi + 1).toNat = (c.hi.toNat + 1) % 2 ^ 32 := UInt32.toNat_add _ _
    simp only [value, hnext, hlast, UInt32.toNat_zero]
    omega
  · next hmax =>
    have hlast : c.lo.toNat ≠ 2 ^ 32 - 1 := fun h => hmax (UInt32.toNat_inj.mp h)
    have hnext : (c.lo + 1).toNat = c.lo.toNat + 1 := by
      rw [UInt32.toNat_add, UInt32.toNat_one]
      omega
    simp only [value, hnext]
    omega

theorem value_lt (c : IdCounter) : c.value < 2 ^ 64 := by
  have hhi := c.hi.toNat_lt
  have hlo := c.lo.toNat_lt
  unfold value
  omega

theorem value_ticks (c : IdCounter) (n : Nat) : (tick^[n] c).value = (c.value + n) % 2 ^ 64 := by
  induction n with
  | zero => rw [Function.iterate_zero, id_eq, Nat.add_zero, Nat.mod_eq_of_lt c.value_lt]
  | succ n ih =>
    rw [Function.iterate_succ_apply', value_tick, ih]
    omega

end IdCounter

/-! ## Words and digits -/

/-- A word of 32 bits is its four bytes. -/
theorem bytes32_inj {a b : UInt32} (h24 : (a >>> 24).toUInt8 = (b >>> 24).toUInt8)
    (h16 : (a >>> 16).toUInt8 = (b >>> 16).toUInt8) (h8 : (a >>> 8).toUInt8 = (b >>> 8).toUInt8)
    (h0 : a.toUInt8 = b.toUInt8) : a = b := by
  have hbyte : ∀ (x y : UInt32) (k : Nat), k < 32 →
      (x >>> UInt32.ofNat k).toUInt8 = (y >>> UInt32.ofNat k).toUInt8 →
      x.toNat / 2 ^ k % 256 = y.toNat / 2 ^ k % 256 := by
    intro x y k hk hxy
    have hk' : (UInt32.ofNat k).toNat % 32 = k := by
      rw [UInt32.toNat_ofNat_of_lt' (Nat.lt_trans hk (by decide)), Nat.mod_eq_of_lt hk]
    have h := congrArg UInt8.toNat hxy
    rw [UInt32.toNat_toUInt8, UInt32.toNat_toUInt8, UInt32.toNat_shiftRight, UInt32.toNat_shiftRight,
      hk', Nat.shiftRight_eq_div_pow, Nat.shiftRight_eq_div_pow] at h
    exact h
  have h24 := hbyte a b 24 (by decide) h24
  have h16 := hbyte a b 16 (by decide) h16
  have h8 := hbyte a b 8 (by decide) h8
  have h0 : a.toNat % 256 = b.toNat % 256 := by
    have h := congrArg UInt8.toNat h0
    rwa [UInt32.toNat_toUInt8, UInt32.toNat_toUInt8] at h
  have ha := a.toNat_lt
  have hb := b.toNat_lt
  exact UInt32.toNat_inj.mp (by omega)

theorem IdCounter.binary_inj {a b : IdCounter} (h : a.binary = b.binary) : a = b := by
  simp only [IdCounter.binary, List.cons.injEq, and_true] at h
  obtain ⟨h0, h1, h2, h3, h4, h5, h6, h7⟩ := h
  cases a
  cases b
  rw [IdCounter.mk.injEq]
  exact ⟨bytes32_inj h0 h1 h2 h3, bytes32_inj h4 h5 h6 h7⟩

theorem hexDigit_lt (n : UInt8) : hexDigit n < 0x80 := by
  have key : ∀ n, hexDigit n < 0x80 := forall_byte (by decide +kernel)
  exact key n

theorem hexEncode_ascii (bs : Bytes) : ∀ b ∈ hexEncode bs, b < 0x80 := by
  induction bs with
  | nil => simp [hexEncode]
  | cons x bs ih =>
    intro b hb
    rw [hexEncode, List.mem_cons, List.mem_cons] at hb
    rcases hb with rfl | rfl | hb
    · exact hexDigit_lt _
    · exact hexDigit_lt _
    · exact ih b hb

theorem asciiLower_hexDigit (n : UInt8) : asciiLower (hexDigit n) = hexDigit n := by
  have key : ∀ n, asciiLower (hexDigit n) = hexDigit n := forall_byte (by decide +kernel)
  exact key n

theorem hexEncode_inj {a b : Bytes} (h : hexEncode a = hexEncode b) : a = b := by
  have hlower : ∀ bs, (hexEncode bs).map asciiLower = hexEncode bs := by
    intro bs
    induction bs with
    | nil => rfl
    | cons x bs ih =>
      rw [hexEncode, List.map_cons, List.map_cons, asciiLower_hexDigit, asciiLower_hexDigit, ih]
  have ha := (hexPairs_eq_some_iff (hexEncode a) a).mpr (hlower a)
  have hb := (hexPairs_eq_some_iff (hexEncode b) b).mpr (hlower b)
  rw [h, hb] at ha
  exact (Option.some.inj ha).symm

/-! ## Ids -/

theorem idText_eq (c : IdCounter) : idText c = asciiStr (hexEncode c.binary) :=
  fromUtf8Lossy_ascii (hexEncode_ascii _)

/-- An id is not empty. -/
theorem idText_ne_nil (c : IdCounter) : idText c ≠ [] := by
  rw [idText_eq]
  exact List.cons_ne_nil _ _

/-- **An id shows the counter.** -/
theorem idText_inj {a b : IdCounter} (h : idText a = idText b) : a = b := by
  rw [idText_eq, idText_eq] at h
  have hbytes : hexEncode a.binary = hexEncode b.binary := by
    rw [← strBytes_asciiStr (hexEncode_ascii a.binary), h, strBytes_asciiStr (hexEncode_ascii b.binary)]
  exact IdCounter.binary_inj (hexEncode_inj hbytes)

/-- **The ids of `2 ^ 64` calls** are all different. -/
theorem idText_ticks_inj {c : IdCounter} {m n : Nat} (hm : m < 2 ^ 64) (hn : n < 2 ^ 64)
    (h : idText (IdCounter.tick^[m] c) = idText (IdCounter.tick^[n] c)) : m = n := by
  have hvalue := congrArg IdCounter.value (idText_inj h)
  rw [IdCounter.value_ticks, IdCounter.value_ticks] at hvalue
  have hlt := c.value_lt
  omega

end Castrum
