import Castrum.Json.Pairs

/-!
# Castrum — RFC 8259 to the letter

The grammar of texts is relaxed inside strings, because `raw_string` is: a body may hold bytes that
are no UTF-8, and the letter `u` may stand in front of anything. A tree is *strict* when every string
in it, member names included, is one that RFC 8259 knows, which is to say that it decodes to code
points. What the writers of this crate put out is strict; what its readers let through need not be.

* `Decodes.validUtf8` — a strict string is UTF-8;
* `objectText_strict` — the object that is written for a list of pairs is strict.
-/

namespace Castrum

open Ascii

/-! ## Strict strings -/

/-- The raw body of a string that RFC 8259 knows: UTF-8 outside the escapes, no control bytes, and
four hex digits behind every `\u`. -/
def IsStrictBody (raw : Bytes) : Prop := ∃ cps, Decodes raw cps

theorem hexVal_ascii {b d : UInt8} (h : hexVal b = some d) : b < 0x80 := by
  have key : ∀ b, ∀ d ∈ hexVal b, b < 0x80 := forall_byte (by decide +kernel)
  exact key b d h

theorem hexDigits_ascii {v n : Nat} {hex : Bytes} (h : hexDigits v hex = some n) :
    ∀ b ∈ hex, b < 0x80 := by
  induction hex generalizing v with
  | nil => exact fun _ hb => absurd hb (by simp)
  | cons c cs ih =>
    rw [hexDigits] at h
    intro b hb
    split at h
    · next d hd =>
      rcases List.mem_cons.mp hb with rfl | hb
      · exact hexVal_ascii hd
      · exact ih h b hb
    · cases h

theorem hex4_ascii {hex : Bytes} {n : Nat} (h : hex4 hex = some n) : ∀ b ∈ hex, b < 0x80 := by
  unfold hex4 at h
  split at h
  · cases h
  · exact hexDigits_ascii h

theorem unescape_ascii {e c : UInt8} (h : unescape e = some c) : e < 0x80 := by
  have key : ∀ e, ∀ c ∈ unescape e, e < 0x80 := forall_byte (by decide +kernel)
  exact key e c h

/-- `\u` and the four digits behind it. -/
theorem validUtf8_unit {hex : Bytes} {n : Nat} (h : hex4 hex = some n) :
    validUtf8 (backslash :: 117 :: hex) = true := by
  apply validUtf8_ascii
  intro b hb
  rcases List.mem_cons.mp hb with rfl | hb
  · decide
  rcases List.mem_cons.mp hb with rfl | hb
  · decide
  · exact hex4_ascii h b hb

/-- **A strict string is UTF-8.** Each rule of the reading puts one more piece in front: an ASCII
byte, the UTF-8 of a scalar value, or an escape, which is ASCII. -/
theorem Decodes.validUtf8 {raw : Bytes} {cps : List Nat} (h : Decodes raw cps) :
    validUtf8 raw = true := by
  induction h with
  | nil => exact validUtf8_nil
  | @ascii b r _ _ _ _ hb _ ih =>
    have hhead : Castrum.validUtf8 [b] = true := validUtf8_ascii (by simpa using hb)
    exact validUtf8_append hhead ih
  | @utf8 cp r _ _ hmax hsur _ ih =>
    refine validUtf8_append (validUtf8_iff_spells.mpr ⟨[cp], ?_, by simp⟩) ih
    intro x hx
    rw [List.mem_singleton.mp hx]
    exact ⟨hmax, hsur⟩
  | @escape e c r _ he _ ih =>
    have hhead : Castrum.validUtf8 [backslash, e] = true :=
      validUtf8_ascii (by simpa using ⟨by decide, unescape_ascii he⟩)
    exact validUtf8_append hhead ih
  | @unit hex r _ _ hhex _ _ ih =>
    exact validUtf8_append (validUtf8_unit hhex) ih
  | @pair hex hex' r _ _ _ hhex _ hhex' _ _ ih =>
    exact validUtf8_append (validUtf8_unit hhex) (validUtf8_append (validUtf8_unit hhex') ih)
  | @loneHigh hex r _ _ hhex _ _ _ ih =>
    exact validUtf8_append (validUtf8_unit hhex) ih

/-- Bytes that need no escape are a strict body of themselves. -/
theorem isStrictBody_plain {raw : Bytes}
    (h : ∀ b ∈ raw, b ≠ quote ∧ b ≠ backslash ∧ 32 ≤ b ∧ b < 0x80) : IsStrictBody raw := by
  refine ⟨raw.map UInt8.toNat, ?_⟩
  induction raw with
  | nil => exact .nil
  | cons b raw ih =>
    obtain ⟨hq, hbs, hctl, hb⟩ := h b List.mem_cons_self
    exact .ascii hq hbs hctl hb (ih fun x hx => h x (List.mem_cons_of_mem _ hx))

/-- What the escaping writes is strict, whatever bytes it was given. -/
theorem isStrictBody_escaped (bytes : Bytes) : IsStrictBody (escaped bytes) := by
  rcases decodes_escaped bytes with ⟨cps, -, hdec⟩ | ⟨-, hdec⟩
  · exact ⟨cps, hdec⟩
  · exact ⟨_, hdec⟩

/-! ## Strict trees -/

mutual

/-- Every string in the tree is strict. -/
def Json.Strict : Json → Prop
  | .str raw => IsStrictBody raw
  | .arr items => strictItems items
  | .obj members => strictMembers members
  | _ => True

def strictItems : List Json → Prop
  | [] => True
  | v :: vs => v.Strict ∧ strictItems vs

def strictMembers : List (Bytes × Json) → Prop
  | [] => True
  | (name, v) :: ms => IsStrictBody name ∧ v.Strict ∧ strictMembers ms

end

/-- A text that RFC 8259 accepts as it stands. -/
def IsStrictText (s : Bytes) : Prop := ∃ v, IsText v s ∧ v.Strict

theorem strictMembers_memberOf (ps : List (Bytes × Bytes)) : strictMembers (ps.map memberOf) := by
  induction ps with
  | nil => exact trivial
  | cons p ps ih => exact ⟨isStrictBody_escaped p.1, isStrictBody_escaped p.2, ih⟩

/-- **The object of a list of pairs is strict.** The names and values come from a request and may be
any bytes; the escaping is what makes strings of them. -/
theorem objectText_strict (ps : List (Bytes × Bytes)) : IsStrictText (objectText ps) :=
  ⟨_, objectText_isText ps, strictMembers_memberOf ps⟩

end Castrum
