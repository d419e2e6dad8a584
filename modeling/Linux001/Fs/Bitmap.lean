import Linux001.ProofKit.Sizes

/-! The bit operations of `fs/bitmap.c` on the 1024 bytes of one bitmap block. -/

namespace Linux001.Fs

open Function

/-- A bitmap block as its 256 words. -/
abbrev Bitmap := Nat → BitVec 32

namespace Bitmap

def bit (p : Bitmap) (nr : Nat) : Bool := (p (nr / 32)).getLsbD (nr % 32)

end Bitmap

/-- `1 << (nr & 31)`. -/
def mask (nr : Nat) : BitVec 32 := 1#32 <<< (nr % 32)

def setBit (nr : Nat) (p : Bitmap) : Bool × Bitmap :=
  (p (nr / 32) &&& mask nr != 0, update p (nr / 32) (p (nr / 32) ||| mask nr))

def clearBit (nr : Nat) (p : Bitmap) : Bool × Bitmap :=
  (p (nr / 32) &&& mask nr == 0, update p (nr / 32) (p (nr / 32) &&& ~~~mask nr))

def firstZeroOf (p : Bitmap) (i : Nat) : Option Nat :=
  if p i ≠ 0xFFFFFFFF then
    (List.range 32).findSome? fun j =>
      if (~~~p i) &&& (1#32 <<< j) ≠ 0 then some (i * 32 + j) else none
  else none

def findFirstZero (p : Bitmap) : Nat :=
  ((List.range (8192 / 32)).findSome? (firstZeroOf p)).getD 8192

variable {p : Bitmap} {nr m : Nat} {i : Nat} {j n : Nat} {k : Nat}

theorem getLsbD_one_shiftLeft (hk : k < 32) :
    (1#32 <<< j).getLsbD k = decide (k = j) := by
  simp only [BitVec.getLsbD_shiftLeft, hk, decide_true, Bool.true_and, BitVec.getLsbD_one]
  by_cases h : k = j
  · simp [h]
  · simp [h]
    omega

theorem getLsbD_mask (hk : k < 32) : (mask nr).getLsbD k = decide (k = nr % 32) :=
  getLsbD_one_shiftLeft hk

theorem and_one_shiftLeft_ne_zero {w : BitVec 32} (hj : j < 32) :
    w &&& (1#32 <<< j) ≠ 0 ↔ w.getLsbD j = true := by
  constructor
  · intro h
    by_contra hcon
    apply h
    apply BitVec.eq_of_getLsbD_eq
    intro k hk
    rw [BitVec.getLsbD_and, getLsbD_one_shiftLeft hk]
    by_cases hkj : k = j
    · subst hkj
      simpa using hcon
    · simp [hkj]
  · intro h hz
    have := congrArg (BitVec.getLsbD · j) hz
    simp [getLsbD_one_shiftLeft hj, h] at this

theorem and_mask_ne_zero : p (nr / 32) &&& mask nr ≠ 0 ↔ p.bit nr = true :=
  and_one_shiftLeft_ne_zero (Nat.mod_lt _ (by decide))

theorem setBit_fst : (setBit nr p).1 = p.bit nr := by
  rw [Bool.eq_iff_iff, ← and_mask_ne_zero]
  exact bne_iff_ne

theorem clearBit_fst : (clearBit nr p).1 = !p.bit nr := by
  rw [Bool.eq_iff_iff, Bool.not_eq_true', ← Bool.not_eq_true, ← and_mask_ne_zero, not_not]
  exact beq_iff_eq

theorem mod_ne_of_div_eq (h : m ≠ nr) (hdiv : m / 32 = nr / 32) : m % 32 ≠ nr % 32 := by
  omega

theorem bit_setBit : (setBit nr p).2.bit m = (decide (m = nr) || p.bit m) := by
  have hm : m % 32 < 32 := Nat.mod_lt _ (by decide)
  simp only [setBit, Bitmap.bit]
  by_cases hdiv : m / 32 = nr / 32
  · rw [hdiv, update_self, BitVec.getLsbD_or, getLsbD_mask hm, Bool.or_comm]
    by_cases h : m = nr
    · simp [h]
    · simp [h, mod_ne_of_div_eq h hdiv]
  · have h : m ≠ nr := fun h => hdiv (by rw [h])
    rw [update_of_ne hdiv, decide_eq_false h, Bool.false_or]

theorem bit_clearBit : (clearBit nr p).2.bit m = (decide (m ≠ nr) && p.bit m) := by
  have hm : m % 32 < 32 := Nat.mod_lt _ (by decide)
  simp only [clearBit, Bitmap.bit]
  by_cases hdiv : m / 32 = nr / 32
  · rw [hdiv, update_self, BitVec.getLsbD_and, BitVec.getLsbD_not, getLsbD_mask hm, Bool.and_comm]
    by_cases h : m = nr
    · simp [h]
    · simp [h, mod_ne_of_div_eq h hdiv, hm]
  · have h : m ≠ nr := fun h => hdiv (by rw [h])
    rw [update_of_ne hdiv, decide_eq_true h, Bool.true_and]

theorem exists_of_findSome_range {α : Type*} {f : Nat → Option α} {a : α}
    (h : (List.range n).findSome? f = some a) : ∃ i < n, f i = some a ∧ ∀ j < i, f j = none := by
  induction n with
  | zero => simp at h
  | succ n ih =>
    rw [List.range_succ, List.findSome?_append] at h
    cases hl : (List.range n).findSome? f with
    | some b =>
      rw [hl, Option.some_or] at h
      obtain ⟨i, hi, hfi, hlt⟩ := ih (hl.trans h)
      exact ⟨i, by omega, hfi, hlt⟩
    | none =>
      rw [hl, Option.none_or] at h
      have hfn : f n = some a := by simpa using h
      refine ⟨n, by omega, hfn, fun j hj => ?_⟩
      exact List.findSome?_eq_none_iff.mp hl j (List.mem_range.mpr hj)

theorem bit_of_word_eq (h : p i = 0xFFFFFFFF) (hm : m / 32 = i) : p.bit m = true := by
  have hlt : m % 32 < 32 := Nat.mod_lt _ (by decide)
  rw [Bitmap.bit, hm, h]
  exact (BitVec.getLsbD_allOnes (v := 32)).trans (decide_eq_true hlt)

theorem bit_eq_false_iff (hj : j < 32) :
    (~~~p i) &&& (1#32 <<< j) ≠ 0 ↔ p.bit (i * 32 + j) = false := by
  have hdiv : (i * 32 + j) / 32 = i := by omega
  have hmod : (i * 32 + j) % 32 = j := by omega
  rw [and_one_shiftLeft_ne_zero hj, Bitmap.bit, hdiv, hmod]
  simp [hj]

theorem firstZeroOf_eq_some (h : firstZeroOf p i = some n) :
    n / 32 = i ∧ p.bit n = false ∧ ∀ m < n, m / 32 = i → p.bit m = true := by
  unfold firstZeroOf at h
  split at h
  · obtain ⟨j, hj, hfj, hlt⟩ := exists_of_findSome_range h
    rw [Option.ite_none_right_eq_some, bit_eq_false_iff hj] at hfj
    obtain ⟨hbit, rfl⟩ : p.bit (i * 32 + j) = false ∧ i * 32 + j = n := by simpa using hfj
    refine ⟨by omega, hbit, fun m hm hdiv => ?_⟩
    have hnone := hlt (m % 32) (by omega)
    by_contra hcon
    have hm32 : m % 32 < 32 := by omega
    have hme : i * 32 + m % 32 = m := by omega
    rw [if_pos ((bit_eq_false_iff hm32).mpr (by rw [hme]; simpa using hcon))] at hnone
    cases hnone
  · cases h

theorem firstZeroOf_eq_none (h : firstZeroOf p i = none) (hm : m / 32 = i) :
    p.bit m = true := by
  unfold firstZeroOf at h
  split at h
  · by_contra hcon
    have hm32 : m % 32 < 32 := by omega
    have hme : i * 32 + m % 32 = m := by omega
    have hnone := List.findSome?_eq_none_iff.mp h (m % 32) (List.mem_range.mpr hm32)
    rw [if_pos ((bit_eq_false_iff hm32).mpr (by rw [hme]; simpa using hcon))] at hnone
    cases hnone
  · rename_i hw
    exact bit_of_word_eq (not_not.mp hw) hm

theorem findFirstZero_spec (p : Bitmap) :
    (findFirstZero p < 8192 ∧ p.bit (findFirstZero p) = false ∨ findFirstZero p = 8192) ∧
      ∀ m < findFirstZero p, p.bit m = true := by
  unfold findFirstZero
  cases h : (List.range (8192 / 32)).findSome? (firstZeroOf p) with
  | some n =>
    obtain ⟨i, hi, hfi, hlt⟩ := exists_of_findSome_range h
    obtain ⟨hdiv, hbit, hword⟩ := firstZeroOf_eq_some hfi
    rw [Option.getD_some]
    refine ⟨.inl ⟨by omega, hbit⟩, fun m hm => ?_⟩
    by_cases hmi : m / 32 = i
    · exact hword m hm hmi
    · exact firstZeroOf_eq_none (hlt (m / 32) (by omega)) rfl
  | none =>
    rw [Option.getD_none]
    refine ⟨.inr rfl, fun m hm => ?_⟩
    have hmem : m / 32 ∈ List.range (8192 / 32) := List.mem_range.mpr (by omega)
    exact firstZeroOf_eq_none (List.findSome?_eq_none_iff.mp h _ hmem) rfl

end Linux001.Fs
