import Linux001.ProofKit.Sizes

/-! An entry of a table in which one entry is replaced. -/

namespace Linux001.ProofKit

open Function

variable {ι α : Type*} [DecidableEq ι] {f : ι → α} {i j : ι} {a b : α}

theorem update_of {p : ι → α → Prop} (ha : p i a) (hf : j ≠ i → p j (f j)) :
    p j (update f i a j) := by
  by_cases hji : j = i
  · rwa [hji, update_self]
  · rw [update_of_ne hji]
    exact hf hji

theorem update_eq (hf : j ≠ i → f j = a) : update f i a j = a :=
  update_of (p := fun _ b => b = a) rfl hf

/-- An entry with another value than the new one is an old entry. -/
theorem of_update (h : update f i a j = b) (hab : a ≠ b) : j ≠ i ∧ f j = b := by
  have hji : j ≠ i := by
    rintro rfl
    exact hab ((update_self ..).symm.trans h)
  exact ⟨hji, (update_of_ne hji _ _).symm.trans h⟩

end Linux001.ProofKit
