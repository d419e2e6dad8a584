import Linux001.ProofKit.Bytes

/-! A stack in a byte memory with 64-bit addresses, which wrap around: loads and stores of words,
and the bytes above an address that a piece of code leaves alone. -/

namespace Linux001.ProofKit

abbrev Memory64 := BitVec 64 → BitVec 8

namespace Memory64

def above (m : Memory64) (a : BitVec 64) : Bytes := fun i => m (a + BitVec.ofNat 64 i)

def load (m : Memory64) (a : BitVec 64) : BitVec 64 := BitVec.ofNat 64 ((m.above a).load 0 8)

def store (m : Memory64) (a w : BitVec 64) : Memory64 := fun x =>
  if (x - a).toNat < 8 then BitVec.ofNat 8 (w.toNat / 256 ^ (x - a).toNat) else m x

/-- `m'` has the `n` bytes of `m` from `a` on. -/
def Same (n : Nat) (a : BitVec 64) (m m' : Memory64) : Prop :=
  ∀ i < n, m'.above a i = m.above a i

variable {m m' m'' : Memory64} {a w : BitVec 64} {n k : Nat}

theorem Same.refl (n : Nat) (a : BitVec 64) (m : Memory64) : Same n a m m := fun _ _ => rfl

theorem Same.trans (h : Same n a m m') (h' : Same n a m' m'') : Same n a m m'' := fun i hi =>
  (h' i hi).trans (h i hi)

theorem word_above (a : BitVec 64) (i : Nat) :
    a + 8 + BitVec.ofNat 64 i = a + BitVec.ofNat 64 (i + 8) := by
  rw [BitVec.add_assoc, BitVec.add_comm 8, BitVec.ofNat_add]
  rfl

theorem Same.tail (h : Same (n + 8) a m m') : Same n (a + 8) m m' := by
  intro i hi
  rw [above, above, word_above]
  exact h (i + 8) (by omega)

theorem Same.load_eq (h : Same n a m m') (hn : 8 ≤ n) : m'.load a = m.load a := by
  rw [load, load, Bytes.load_congr]
  intro i hi
  rw [Nat.zero_add]
  exact h i (by omega)

theorem sub_ofNat_toNat {i : Nat} (hi : i < 2 ^ 64) : (a + BitVec.ofNat 64 i - a).toNat = i := by
  rw [BitVec.add_comm, BitVec.add_sub_cancel, BitVec.toNat_ofNat, Nat.mod_eq_of_lt hi]

@[simp] theorem load_store (m : Memory64) (a w : BitVec 64) : (m.store a w).load a = w := by
  have hbytes : ∀ i < 8, (m.store a w).above a (0 + i) = BitVec.ofNat 8 (w.toNat / 256 ^ i) := by
    intro i hi
    rw [Nat.zero_add, above, store, sub_ofNat_toNat (by omega), if_pos hi]
  rw [load, Bytes.load_of_bytes hbytes, Nat.mod_eq_of_lt (show w.toNat < 256 ^ 8 from w.isLt),
    BitVec.ofNat_toNat, BitVec.setWidth_eq]

theorem same_store (m : Memory64) (a w : BitVec 64) (hn : n + 8 ≤ 2 ^ 64) :
    Same n (a + 8) m (m.store a w) := by
  intro i hi
  rw [above, above, store, word_above, sub_ofNat_toNat (by omega), if_neg (by omega)]

end Memory64

end Linux001.ProofKit
