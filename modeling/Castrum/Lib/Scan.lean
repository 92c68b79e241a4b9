import Mathlib.Tactic

/-!
# Castrum — quantifiers over the members of a list

A statement about every member of a list, or of an option, is decided by going through the members.
For a finite type there is a second way, through all its elements, which is hopeless for bytes; the
instances here come before it. A statement about every byte whatever is checked value by value.
-/

namespace Castrum

section

variable {α : Type} {p : α → Prop} [DecidablePred p]

instance (priority := 2000) decidableForallMem (l : List α) : Decidable (∀ x ∈ l, p x) :=
  List.decidableBAll p l

instance (priority := 2000) decidableExistsMem (l : List α) : Decidable (∃ x ∈ l, p x) :=
  List.decidableBEx p l

instance (priority := 2000) decidableForallMemOption (o : Option α) : Decidable (∀ x ∈ o, p x) :=
  Option.decidableForallMem o

instance (priority := 2000) decidableMem {α : Type} [DecidableEq α] (a : α) (l : List α) :
    Decidable (a ∈ l) :=
  List.instDecidableMemOfLawfulBEq a l

end

/-- What holds of every byte. -/
theorem forall_byte {P : UInt8 → Prop} (h : ∀ n : Fin 256, P (UInt8.ofNat n.val)) (b : UInt8) :
    P b := by
  have hb := h ⟨b.toNat, b.toNat_lt⟩
  rwa [UInt8.ofNat_toNat] at hb

end Castrum
