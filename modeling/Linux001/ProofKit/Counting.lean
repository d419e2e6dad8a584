import Linux001.ProofKit.Sizes

/-! Sums over the entries of a table, when one entry is replaced. -/

namespace Linux001.ProofKit

open Function

variable {ι α : Type*} [DecidableEq ι] {s : Finset ι} {i : ι}

theorem sum_update (hi : i ∈ s) (table : ι → α) (a : α) (w : α → Nat) :
    (∑ x ∈ s, w (update table i a x)) + w (table i) = (∑ x ∈ s, w (table x)) + w a := by
  have hrest : ∑ x ∈ s.erase i, w (update table i a x) = ∑ x ∈ s.erase i, w (table x) :=
    Finset.sum_congr rfl fun x hx => by rw [update_of_ne (Finset.ne_of_mem_erase hx)]
  rw [← Finset.add_sum_erase s _ hi, ← Finset.add_sum_erase s (fun x => w (table x)) hi, hrest,
    update_self]
  omega

omit [DecidableEq ι] in
theorem le_sum (hi : i ∈ s) (table : ι → α) (w : α → Nat) :
    w (table i) ≤ ∑ x ∈ s, w (table x) :=
  Finset.single_le_sum (f := fun x => w (table x)) (fun _ _ => Nat.zero_le _) hi

end Linux001.ProofKit
