import Linux001.ProofKit.Sizes

/-! Byte-addressed memory: little-endian loads and stores of numbers and of 64-bit words, sequences
of stores, and the offsets of the members of a structure. -/

namespace Linux001.ProofKit

abbrev Bytes := Nat → BitVec 8

namespace Bytes

/-- The little-endian number in the `n` bytes from `a` on. -/
def load (m : Bytes) (a : Nat) : Nat → Nat
  | 0 => 0
  | n + 1 => (m a).toNat + 256 * load m (a + 1) n

def store (m : Bytes) (a n w : Nat) : Bytes := fun x =>
  if a ≤ x ∧ x < a + n then BitVec.ofNat 8 (w / 256 ^ (x - a)) else m x

def fill (m : Bytes) (dst n : Nat) (image : Bytes) : Bytes := fun x =>
  if dst ≤ x ∧ x < dst + n then image (x - dst) else m x

def copy (m : Bytes) (src dst n : Nat) : Bytes := m.fill dst n fun i => m (src + i)

variable {m m' : Bytes} {a b n k w x : Nat}

theorem load_shift (h : ∀ i < n, m (a + i) = m' (b + i)) : m.load a n = m'.load b n := by
  induction n generalizing a b with
  | zero => rfl
  | succ n ih =>
    have hrest : m.load (a + 1) n = m'.load (b + 1) n := by
      apply ih
      intro i hi
      rw [Nat.add_assoc, Nat.add_assoc, Nat.add_comm 1 i]
      exact h (i + 1) (by omega)
    rw [load, load, hrest, show m a = m' b from h 0 (by omega)]

theorem load_congr (h : ∀ i < n, m (a + i) = m' (a + i)) : m.load a n = m'.load a n :=
  load_shift h

theorem load_of_bytes (h : ∀ i < n, m (a + i) = BitVec.ofNat 8 (w / 256 ^ i)) :
    m.load a n = w % 256 ^ n := by
  induction n generalizing a w with
  | zero => simp [load, Nat.mod_one]
  | succ n ih =>
    have hrest : m.load (a + 1) n = w / 256 % 256 ^ n := by
      apply ih
      intro i hi
      rw [Nat.add_assoc, Nat.add_comm 1 i, h (i + 1) (by omega), Nat.div_div_eq_div_mul,
        Nat.pow_succ']
    have hfirst : (m a).toNat = w % 256 := by
      rw [show m a = _ from h 0 (by omega), Nat.pow_zero, Nat.div_one, BitVec.toNat_ofNat]
    rw [load, hrest, hfirst, Nat.pow_succ', Nat.mod_mul]

theorem byte_of_load {i : Nat} (hi : i < n) :
    m (a + i) = BitVec.ofNat 8 (m.load a n / 256 ^ i) := by
  induction n generalizing a i with
  | zero => omega
  | succ n ih =>
    apply BitVec.eq_of_toNat_eq
    rw [load, BitVec.toNat_ofNat]
    cases i with
    | zero =>
      rw [Nat.pow_zero, Nat.div_one, Nat.add_zero]
      omega
    | succ i =>
      have hdiv : ((m a).toNat + 256 * m.load (a + 1) n) / 256 = m.load (a + 1) n := by omega
      rw [Nat.pow_succ', ← Nat.div_div_eq_div_mul, hdiv, Nat.add_comm i 1, ← Nat.add_assoc,
        ih (show i < n by omega), BitVec.toNat_ofNat]

theorem store_of_lt (h : x < a) : m.store a n w x = m x := by
  rw [store, if_neg (by omega)]

theorem store_of_ge (h : a + n ≤ x) : m.store a n w x = m x := by
  rw [store, if_neg (by omega)]

theorem load_store : (m.store a n w).load a n = w % 256 ^ n := by
  apply load_of_bytes
  intro i hi
  rw [store, if_pos (by omega), Nat.add_sub_cancel_left]

theorem load_store_of_disjoint (h : b + k ≤ a ∨ a + n ≤ b) :
    (m.store a n w).load b k = m.load b k := by
  apply load_congr
  intro i hi
  rcases h with h | h
  · exact store_of_lt (by omega)
  · exact store_of_ge (by omega)

theorem store_load : m.store a n (m.load a n) = m := by
  funext x
  rw [store]
  split
  · next h =>
    obtain ⟨i, rfl⟩ := Nat.exists_eq_add_of_le h.1
    rw [Nat.add_sub_cancel_left, ← byte_of_load (by omega)]
  · rfl

theorem fill_of_outside {image : Bytes} (h : x < a ∨ a + n ≤ x) : m.fill a n image x = m x := by
  rw [fill, if_neg (by omega)]

theorem load_copy_inside {src dst i : Nat} (h : i + k ≤ n) :
    (m.copy src dst n).load (dst + i) k = m.load (src + i) k := by
  apply load_shift
  intro j hj
  rw [copy, fill, if_pos (by omega)]
  congr 1
  omega

def loadWord (m : Bytes) (a : Nat) : BitVec 64 := BitVec.ofNat 64 (m.load a 8)

def storeWord (m : Bytes) (a : Nat) (w : BitVec 64) : Bytes := m.store a 8 w.toNat

def storeWords (m : Bytes) : List (Nat × BitVec 64) → Bytes
  | [] => m
  | (a, w) :: l => (m.storeWord a w).storeWords l

variable {v : BitVec 64} {l : List (Nat × BitVec 64)}

@[simp]
theorem loadWord_storeWord : (m.storeWord a v).loadWord a = v := by
  have hlt : v.toNat < 256 ^ 8 := v.isLt
  rw [loadWord, storeWord, load_store, Nat.mod_eq_of_lt hlt]
  exact BitVec.ofNat_toNat 64 v

theorem loadWord_congr (h : ∀ i < 8, m (a + i) = m' (a + i)) : m.loadWord a = m'.loadWord a :=
  congrArg (BitVec.ofNat 64) (load_congr h)

theorem load_lt : m.load a n < 256 ^ n := by
  induction n generalizing a with
  | zero => simp [load]
  | succ n ih =>
    have hrest := @ih (a + 1)
    rw [load, Nat.pow_succ']
    omega

theorem storeWord_loadWord : m.storeWord a (m.loadWord a) = m := by
  have hlt : m.load a 8 < 2 ^ 64 := load_lt
  rw [storeWord, loadWord, BitVec.toNat_ofNat, Nat.mod_eq_of_lt hlt, store_load]

theorem storeWords_of_outside (h : ∀ p ∈ l, x < p.1 ∨ p.1 + 8 ≤ x) : m.storeWords l x = m x := by
  induction l generalizing m with
  | nil => rfl
  | cons p l ih =>
    rw [storeWords, ih fun q hq => h q (List.mem_cons_of_mem _ hq)]
    rcases h p List.mem_cons_self with hlt | hge
    · exact store_of_lt hlt
    · exact store_of_ge hge

theorem loadWord_storeWords_of_disjoint (h : ∀ p ∈ l, b + 8 ≤ p.1 ∨ p.1 + 8 ≤ b) :
    (m.storeWords l).loadWord b = m.loadWord b := by
  apply loadWord_congr
  intro i hi
  apply storeWords_of_outside
  intro p hp
  have := h p hp
  omega

theorem loadWord_storeWords (hl : l.Pairwise fun p q => p.1 + 8 ≤ q.1 ∨ q.1 + 8 ≤ p.1)
    (h : (a, v) ∈ l) : (m.storeWords l).loadWord a = v := by
  induction l generalizing m with
  | nil => simp at h
  | cons p l ih =>
    obtain ⟨hp, hrest⟩ := List.pairwise_cons.mp hl
    rcases List.mem_cons.mp h with rfl | hmem
    · rw [storeWords, loadWord_storeWords_of_disjoint hp, loadWord_storeWord]
    · exact ih hrest hmem

theorem storeWords_eq_self (h : ∀ p ∈ l, m.loadWord p.1 = p.2) : m.storeWords l = m := by
  induction l with
  | nil => rfl
  | cons p l ih =>
    rw [storeWords, ← h p List.mem_cons_self, storeWord_loadWord]
    exact ih fun q hq => h q (List.mem_cons_of_mem _ hq)

end Bytes

def alignUp (n a : Nat) : Nat := (n + a - 1) / a * a

variable {ι : Type*} [DecidableEq ι]

/-- The offset of member `f`, a multiple of its alignment. -/
def offsetOf (size align : ι → Nat) (f : ι) : List ι → Nat → Nat
  | [], start => start
  | g :: gs, start =>
    if g = f then alignUp start (align g)
    else offsetOf size align f gs (alignUp start (align g) + size g)

def structEnd : List (Nat × Nat) → Nat → Nat
  | [], start => start
  | (size, align) :: ms, start => structEnd ms (alignUp start align + size)

/-- The size of a structure: a multiple of the greatest alignment. -/
def structSize (ms : List (Nat × Nat)) : Nat :=
  alignUp (structEnd ms 0) (ms.foldl (fun a m => max a m.2) 1)

end Linux001.ProofKit
