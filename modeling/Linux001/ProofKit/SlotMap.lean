import Linux001.ProofKit.Sizes

/-! Finite maps in numbered slots: a slot is free or has a key with its value, and a key is found by
looking for its slot.  A key that is nowhere is added in any free slot. -/

namespace Linux001.ProofKit

open Function

abbrev SlotMap (κ ν : Type*) := Nat → Option (κ × ν)

namespace SlotMap

variable {κ ν : Type*} {T : SlotMap κ ν} {p : Nat} {x y : κ} {v w : ν}

def Maps (T : SlotMap κ ν) (x : κ) (v : ν) : Prop := ∃ p, T p = some (x, v)

def Unique (T : SlotMap κ ν) : Prop :=
  ∀ p q x v w, T p = some (x, v) → T q = some (x, w) → p = q

def put (T : SlotMap κ ν) (p : Nat) (x : κ) (v : ν) : SlotMap κ ν := update T p (some (x, v))

def clear (T : SlotMap κ ν) (p : Nat) : SlotMap κ ν := update T p none

theorem maps_put_self : (T.put p x v).Maps x v := ⟨p, update_self _ _ _⟩

theorem maps_put_of_ne (hp : T p = none) (hxy : y ≠ x) : (T.put p x v).Maps y w ↔ T.Maps y w := by
  constructor
  · rintro ⟨q, hq⟩
    by_cases hqp : q = p
    · rw [put, hqp, update_self] at hq
      cases hq
      exact absurd rfl hxy
    · exact ⟨q, (update_of_ne hqp _ _).symm.trans hq⟩
  · rintro ⟨q, hq⟩
    have hqp : q ≠ p := by
      rintro rfl
      rw [hp] at hq
      cases hq
    exact ⟨q, (update_of_ne hqp _ _).trans hq⟩

theorem Unique.put (h : T.Unique) (hx : ∀ v, ¬T.Maps x v) : (T.put p x v).Unique := by
  have hold : ∀ q y w, q ≠ p → (T.put p x v) q = some (y, w) → T q = some (y, w) ∧ y ≠ x := by
    intro q y w hqp hq
    have hq' : T q = some (y, w) := (update_of_ne hqp _ _).symm.trans hq
    refine ⟨hq', ?_⟩
    rintro rfl
    exact hx w ⟨q, hq'⟩
  have hself : ∀ y w, (T.put p x v) p = some (y, w) → y = x := by
    intro y w hq
    rw [SlotMap.put, update_self] at hq
    cases hq
    rfl
  intro q r y w w' hq hr
  by_cases hqp : q = p
  · subst hqp
    by_contra hne
    exact (hold r y w' (fun hr => hne hr.symm) hr).2 (hself y w hq)
  · by_cases hrp : r = p
    · subst hrp
      exact absurd (hself y w' hr) (hold q y w hqp hq).2
    · exact h q r y w w' (hold q y w hqp hq).1 (hold r y w' hrp hr).1

theorem clear_put (hp : T p = none) : (T.put p x v).clear p = T := by
  rw [clear, put, update_idem, ← hp, update_eq_self]

end SlotMap

end Linux001.ProofKit
