import Mathlib

/-!
# The order of the keys of a map

A sorted map takes two keys for the same one when neither is less than the
other. For this to keep different keys apart the order has to decide every two
of them, which the order of a partial order does on its chains only.
-/
namespace KeyOrder

variable {α : Type*}

/-- Neither is less than the other. -/
def Equivalent (less : α → α → Prop) (a b : α) : Prop := ¬ less a b ∧ ¬ less b a

/-- An order by which a map keeps the keys of a set apart. -/
structure MapOrder (less : α → α → Prop) (S : Set α) : Prop where
  irrefl : ∀ a ∈ S, ¬ less a a
  asymm : ∀ a ∈ S, ∀ b ∈ S, less a b → ¬ less b a
  trans : ∀ a ∈ S, ∀ b ∈ S, ∀ d ∈ S, less a b → less b d → less a d
  equivalent_trans : ∀ a ∈ S, ∀ b ∈ S, ∀ d ∈ S, Equivalent less a b → Equivalent less b d → Equivalent less a d
  eq_of_equivalent : ∀ a ∈ S, ∀ b ∈ S, Equivalent less a b → a = b

section Partial
variable [PartialOrder α] {S : Set α} {a b : α}

theorem equivalent_iff : Equivalent (· < ·) a b ↔ (a = b ∨ ¬ a ≤ b ∧ ¬ b ≤ a) := by
  constructor
  · rintro ⟨hab, hba⟩
    by_cases heq : a = b
    · exact .inl heq
    · exact .inr ⟨fun h => hab (lt_of_le_of_ne h heq), fun h => hba (lt_of_le_of_ne h (Ne.symm heq))⟩
  · rintro (rfl | ⟨hab, hba⟩)
    · exact ⟨lt_irrefl a, lt_irrefl a⟩
    · exact ⟨fun h => hab h.le, fun h => hba h.le⟩

theorem eq_of_equivalent_iff : (Equivalent (· < ·) a b → a = b) ↔ a ≤ b ∨ b ≤ a := by
  rw [equivalent_iff]
  constructor
  · intro h
    by_contra hnot
    obtain ⟨hab, hba⟩ := not_or.mp hnot
    exact hab (h (.inr ⟨hab, hba⟩)).le
  · rintro h (heq | ⟨hab, hba⟩)
    · exact heq
    · exact (h.elim hab hba).elim

/-- A partial order keeps apart the keys of a chain, and of no other set. -/
theorem mapOrder_iff : MapOrder (· < ·) S ↔ ∀ a ∈ S, ∀ b ∈ S, a ≤ b ∨ b ≤ a := by
  constructor
  · intro h a ha b hb
    exact eq_of_equivalent_iff.mp (h.eq_of_equivalent a ha b hb)
  · intro h
    have heq : ∀ a ∈ S, ∀ b ∈ S, Equivalent (· < ·) a b → a = b :=
      fun a ha b hb => eq_of_equivalent_iff.mpr (h a ha b hb)
    refine ⟨fun a _ => lt_irrefl a, fun a _ b _ => lt_asymm, fun a _ b _ d _ => lt_trans, ?_, heq⟩
    intro a ha b hb d _ hab hbd
    rw [heq a ha b hb hab]
    exact hbd

end Partial

end KeyOrder
