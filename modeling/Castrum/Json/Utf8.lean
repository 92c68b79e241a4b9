import Castrum.FastSchema.Types

/-!
# Castrum — UTF-8 as lists of scalar values

`from_utf8` accepts exactly the bytes that spell a list of Unicode scalar values. A byte below
`0x80` is always a character of its own, so a text may be checked piece by piece between such bytes.

* `validUtf8_iff_spells` — acceptance is spelling;
* `validUtf8_cut` — a text splits at an ASCII byte into two texts.
-/

namespace Castrum

def IsScalar (cp : Nat) : Prop := cp ≤ 0x10FFFF ∧ ¬ (0xD800 ≤ cp ∧ cp ≤ 0xDFFF)

/-- The bytes are the UTF-8 of these scalar values. -/
def Spells (bytes : Bytes) (cps : List Nat) : Prop :=
  (∀ cp ∈ cps, IsScalar cp) ∧ bytes = cps.flatMap pushCp

theorem Spells.nil : Spells [] [] := ⟨nofun, rfl⟩

theorem Spells.append {p q : Bytes} {cps cqs : List Nat} (hp : Spells p cps) (hq : Spells q cqs) :
    Spells (p ++ q) (cps ++ cqs) := by
  refine ⟨?_, by rw [hp.2, hq.2, List.flatMap_append]⟩
  intro cp hcp
  obtain hcp | hcp := List.mem_append.mp hcp
  · exact hp.1 cp hcp
  · exact hq.1 cp hcp

theorem Spells.ascii {b : UInt8} (hb : b < 0x80) : Spells [b] [b.toNat] := by
  refine ⟨?_, by rw [List.flatMap_singleton, pushCp_toNat hb]⟩
  intro cp hcp
  rw [List.mem_singleton.mp hcp]
  have hlt := UInt8.toNat_lt b
  exact ⟨by omega, by omega⟩

/-! ## Against the library's encoder -/

theorem utf8EncodeChar_eq (c : Char) : String.utf8EncodeChar c = pushCp c.toNat := by
  have hmax : c.toNat < 0x110000 := by
    have hv := c.valid
    simp only [UInt32.isValidChar, Nat.isValidChar] at hv
    show c.val.toNat < _
    omega
  unfold String.utf8EncodeChar pushCp
  simp only [show c.val.toNat = c.toNat from rfl]
  have h₁ : c.toNat ≤ 0x7f ↔ c.toNat < 0x80 := by omega
  have h₂ : c.toNat ≤ 0x7ff ↔ c.toNat < 0x800 := by omega
  have h₃ : c.toNat ≤ 0xffff ↔ c.toNat < 0x10000 := by omega
  simp only [h₁, h₂, h₃]
  split
  · rfl
  split
  · next h =>
    rw [show c.toNat / 64 % 0x20 + 0xc0 = 0xC0 + c.toNat / 0x40 by omega, Nat.add_comm _ 0x80]
  split
  · next h =>
    rw [show c.toNat / 4096 % 0x10 + 0xe0 = 0xE0 + c.toNat / 0x1000 by omega,
      Nat.add_comm _ 0x80, Nat.add_comm _ 0x80]
  · rw [show c.toNat / 262144 % 0x08 + 0xf0 = 0xF0 + c.toNat / 0x40000 by omega,
      Nat.add_comm _ 0x80, Nat.add_comm _ 0x80, Nat.add_comm _ 0x80]

/-- **`from_utf8` accepts just the bytes that spell scalar values.** -/
theorem validUtf8_iff_spells {bytes : Bytes} :
    validUtf8 bytes = true ↔ ∃ cps, Spells bytes cps := by
  rw [validUtf8, ByteArray.validateUTF8_eq_true_iff]
  constructor
  · intro h
    obtain ⟨m, hm⟩ := h
    refine ⟨m.map Char.toNat, ?_, ?_⟩
    · intro cp hcp
      obtain ⟨c, -, rfl⟩ := List.mem_map.mp hcp
      have hv := c.valid
      simp only [UInt32.isValidChar, Nat.isValidChar] at hv
      unfold Char.toNat
      exact ⟨by omega, by omega⟩
    · have hdata := congrArg (fun b : ByteArray => b.data.toList) hm
      simp only [List.utf8Encode, List.data_toByteArray] at hdata
      rw [List.flatMap_map, ← funext utf8EncodeChar_eq]
      exact hdata
  · rintro ⟨cps, hscalar, rfl⟩
    -- scalar values are characters
    have hchars : ∃ m : List Char, cps = m.map Char.toNat := by
      refine ⟨cps.map Char.ofNat, ?_⟩
      rw [List.map_map]
      conv_lhs => rw [← List.map_id cps]
      apply List.map_congr_left
      intro cp hcp
      obtain ⟨h₁, h₂⟩ := hscalar cp hcp
      have hvalid : cp.isValidChar := by
        unfold Nat.isValidChar
        omega
      show cp = (Char.ofNat cp).toNat
      unfold Char.ofNat
      rw [dif_pos hvalid]
      rfl
    obtain ⟨m, rfl⟩ := hchars
    refine ⟨m, ?_⟩
    rw [List.flatMap_map, ← funext utf8EncodeChar_eq]
    exact ByteArray.ext List.data_toByteArray.symm

/-! ## Cutting at ASCII bytes -/

theorem validUtf8_nil : validUtf8 [] = true := validUtf8_iff_spells.mpr ⟨_, Spells.nil⟩

theorem validUtf8_append {p q : Bytes} (hp : validUtf8 p = true) (hq : validUtf8 q = true) :
    validUtf8 (p ++ q) = true := by
  obtain ⟨cps, hcps⟩ := validUtf8_iff_spells.mp hp
  obtain ⟨cqs, hcqs⟩ := validUtf8_iff_spells.mp hq
  exact validUtf8_iff_spells.mpr ⟨_, hcps.append hcqs⟩

theorem validUtf8_ascii {bytes : Bytes} (h : ∀ b ∈ bytes, b < 0x80) : validUtf8 bytes = true := by
  induction bytes with
  | nil => exact validUtf8_nil
  | cons b bytes ih =>
    have hb : validUtf8 [b] = true :=
      validUtf8_iff_spells.mpr ⟨_, Spells.ascii (h b List.mem_cons_self)⟩
    exact validUtf8_append hb (ih fun x hx => h x (List.mem_cons_of_mem _ hx))

/-- The bytes of one character are a single ASCII byte, or none of them is ASCII. -/
theorem pushCp_ascii {cp : Nat} (h : IsScalar cp) :
    (∃ b, pushCp cp = [b] ∧ b < 0x80) ∨ (pushCp cp ≠ [] ∧ ∀ b ∈ pushCp cp, ¬ b < 0x80) := by
  by_cases hlt : cp < 0x80
  · refine .inl ⟨UInt8.ofNat cp, if_pos hlt, ?_⟩
    rw [UInt8.lt_iff_toNat_lt, ofNat_toNat_of_lt (by omega)]
    exact hlt
  · obtain ⟨b, t, hbt, -, hall⟩ := pushCp_spec (by omega) h.1
    exact .inr ⟨by rw [hbt]; exact List.cons_ne_nil _ _, fun x hx => (hall x hx).2⟩

/-- A spelling cut at an ASCII byte. Induction on the characters: none of them straddles it. -/
theorem Spells.cut {p q : Bytes} {b : UInt8} (hb : b < 0x80) {cps : List Nat}
    (h : Spells (p ++ b :: q) cps) :
    ∃ cps₁ cps₂, Spells p cps₁ ∧ Spells q cps₂ := by
  induction cps generalizing p with
  | nil => exact absurd h.2 (by simp)
  | cons cp cps ih =>
    obtain ⟨hscalar, heq⟩ := h
    rw [List.flatMap_cons] at heq
    have htail : ∀ x ∈ cps, IsScalar x := fun x hx => hscalar x (List.mem_cons_of_mem _ hx)
    have hcp := hscalar cp List.mem_cons_self
    have single : Spells (pushCp cp) [cp] := by
      refine ⟨?_, by simp⟩
      intro x hx
      rw [List.mem_singleton.mp hx]
      exact hcp
    obtain ⟨rest, hp, hrest⟩ | ⟨rest, hchar, hrest⟩ := List.append_eq_append_iff.mp heq.symm
    · -- the character lies in front of the byte
      obtain ⟨cps₁, cps₂, h₁, h₂⟩ := ih ⟨htail, hrest.symm⟩
      exact ⟨cp :: cps₁, cps₂, hp ▸ single.append h₁, h₂⟩
    · cases rest with
      | nil =>
        rw [List.append_nil] at hchar
        obtain ⟨cps₁, cps₂, h₁, h₂⟩ := ih (p := []) ⟨htail, by simpa using hrest⟩
        exact ⟨[cp], cps₂, hchar ▸ single, h₂⟩
      | cons x rest =>
        rw [List.cons_append, List.cons.injEq] at hrest
        obtain ⟨hx, hq⟩ := hrest
        subst hx
        obtain ⟨c, hc, -⟩ | ⟨-, hall⟩ := pushCp_ascii hcp
        · rw [hc] at hchar
          cases p with
          | nil =>
            obtain ⟨-, rfl⟩ := List.cons.inj hchar
            exact ⟨[], cps, Spells.nil, htail, by simpa using hq⟩
          | cons y p => exact absurd (List.cons.inj hchar).2 (by simp)
        · exact absurd hb (hall b (by rw [hchar]; simp))

/-- **A text may be checked on both sides of an ASCII byte.** -/
theorem validUtf8_cut {p q : Bytes} {b : UInt8} (hb : b < 0x80) :
    validUtf8 (p ++ b :: q) = true ↔ validUtf8 p = true ∧ validUtf8 q = true := by
  constructor
  · intro h
    obtain ⟨cps, hcps⟩ := validUtf8_iff_spells.mp h
    obtain ⟨cps₁, cps₂, h₁, h₂⟩ := hcps.cut hb
    exact ⟨validUtf8_iff_spells.mpr ⟨_, h₁⟩, validUtf8_iff_spells.mpr ⟨_, h₂⟩⟩
  · rintro ⟨hp, hq⟩
    exact validUtf8_append hp
      (validUtf8_append (validUtf8_iff_spells.mpr ⟨_, Spells.ascii hb⟩) hq)

end Castrum
