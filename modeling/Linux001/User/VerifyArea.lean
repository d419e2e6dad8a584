import Linux001.ProofKit.Sizes

/-! `verify_area` of `kernel/fork.c` and the stores to user memory that follow it: the accesses of a
call as a list, and when every store is on a page that was verified before it. -/

namespace Linux001.User

/-- The base of the segment in `fs`, and `get_base(current->ldt[2])`. -/
structure Segments where
  fs : BitVec 64
  base : BitVec 32

/-- A call of `write_verify`, or the store of a byte at a linear address. -/
inductive Access
  | writeVerify (address : BitVec 64)
  | store (address : BitVec 64)
  deriving DecidableEq

def page (a : BitVec 64) : Nat := a.toNat / 0x1000

/-- The addresses that the loop of `verify_area` passes to `write_verify`. -/
def verifyLoop (size : Int) (start : BitVec 64) : List (BitVec 64) :=
  if 0 < size then start :: verifyLoop (size - 0x1000) (start + 0x1000) else []
termination_by size.toNat
decreasing_by omega

/-- `verify_area`: `size` plus the offset is an `int`, the mask has 32 bits. -/
def verifyArea (u : Segments) (addr : BitVec 64) (size : BitVec 32) : List Access :=
  (verifyLoop (size + (addr &&& 0xFFF).setWidth 32).toInt
    ((addr &&& 0xFFFFF000) + u.base.setWidth 64)).map .writeVerify

def putFsByte (u : Segments) (addr : BitVec 64) : List Access := [.store (u.fs + addr)]

def putBytes (u : Segments) (addr : BitVec 64) : Nat → List Access
  | 0 => []
  | n + 1 => putFsByte u addr ++ putBytes u (addr + 1) n

def putFsLong (u : Segments) (addr : BitVec 64) : List Access := putBytes u addr 8

def Verified (l : List Access) : Prop :=
  ∀ before a after, l = before ++ .store a :: after →
    ∃ v, .writeVerify v ∈ before ∧ page v = page a

theorem putBytes_add (u : Segments) (addr : BitVec 64) (m n : Nat) :
    putBytes u addr m ++ putBytes u (addr + BitVec.ofNat 64 m) n = putBytes u addr (m + n) := by
  induction m generalizing addr with
  | zero => simp [putBytes]
  | succ m ih =>
    have haddr : addr + BitVec.ofNat 64 (m + 1) = addr + 1 + BitVec.ofNat 64 m := by
      rw [Nat.add_comm m 1, BitVec.ofNat_add, ← BitVec.add_assoc]
      rfl
    rw [haddr, putBytes, List.append_assoc, ih, Nat.add_right_comm, putBytes]

theorem putBytes_eq_map (u : Segments) (addr : BitVec 64) (n : Nat) :
    putBytes u addr n =
      (List.range n).map fun i => Access.store (u.fs + addr + BitVec.ofNat 64 i) := by
  induction n with
  | zero => rfl
  | succ n ih =>
    rw [← putBytes_add u addr n 1, ih, List.range_succ, List.map_append]
    simp [putBytes, putFsByte, BitVec.add_assoc]

theorem verified_append_iff (vs : List (BitVec 64)) (u : Segments) (addr : BitVec 64) (n : Nat) :
    Verified (vs.map .writeVerify ++ putBytes u addr n) ↔
      ∀ i < n, ∃ v ∈ vs, page v = page (u.fs + addr + BitVec.ofNat 64 i) := by
  have hstores : ∀ v, ∀ k, .writeVerify v ∉ putBytes u addr k := by
    intro v k
    simp [putBytes_eq_map]
  constructor
  · intro h i hi
    obtain ⟨k, rfl⟩ := Nat.exists_eq_add_of_lt hi
    have hsplit : putBytes u addr (i + k + 1) = putBytes u addr i ++
        .store (u.fs + addr + BitVec.ofNat 64 i) ::
          putBytes u (addr + BitVec.ofNat 64 i + 1) k := by
      rw [Nat.add_assoc, ← putBytes_add, putBytes, putFsByte, BitVec.add_assoc u.fs]
      rfl
    rw [hsplit, ← List.append_assoc] at h
    obtain ⟨v, hv, hpage⟩ := h _ _ _ rfl
    refine ⟨v, ?_, hpage⟩
    rcases List.mem_append.mp hv with hv | hv
    · simpa using hv
    · exact absurd hv (hstores v i)
  · intro h before a after heq
    have hmem : .store a ∈ vs.map .writeVerify ++ putBytes u addr n := by
      rw [heq]
      simp
    obtain ⟨i, hi, rfl⟩ : ∃ i < n, u.fs + addr + BitVec.ofNat 64 i = a := by
      simpa [putBytes_eq_map] using hmem
    obtain ⟨v, hv, hpage⟩ := h i hi
    refine ⟨v, ?_, hpage⟩
    -- the verification comes before the first store
    have hv' : Access.writeVerify v ∈ vs.map .writeVerify := List.mem_map_of_mem hv
    rcases List.append_eq_append_iff.mp heq with ⟨l, hbefore, -⟩ | ⟨l, hvs, hl⟩
    · rw [hbefore]
      exact List.mem_append_left l hv'
    cases l with
    | nil =>
      rw [hvs, List.append_nil] at hv'
      exact hv'
    | cons b l =>
      obtain rfl : Access.store _ = b := (List.cons.inj hl).1
      have : Access.store (u.fs + addr + BitVec.ofNat 64 i) ∈ vs.map Access.writeVerify := by
        rw [hvs]
        simp
      simp at this

def visited (addr : BitVec 64) (size : BitVec 32) : Nat :=
  ((size + (addr &&& 0xFFF).setWidth 32).toInt.toNat + 0xFFF) / 0x1000

def firstVisited (u : Segments) (addr : BitVec 64) : BitVec 64 :=
  (addr &&& 0xFFFFF000) + u.base.setWidth 64

theorem verifyLoop_eq (size : Int) (start : BitVec 64) :
    verifyLoop size start =
      (List.range ((size.toNat + 0xFFF) / 0x1000)).map fun k =>
        start + BitVec.ofNat 64 (0x1000 * k) := by
  induction size, start using verifyLoop.induct with
  | case1 size start hpos ih =>
    have hlength : (size.toNat + 0xFFF) / 0x1000 =
        ((size - 0x1000).toNat + 0xFFF) / 0x1000 + 1 := by
      omega
    rw [verifyLoop, if_pos hpos, ih, hlength, List.range_succ_eq_map, List.map_cons, List.map_map]
    refine List.cons_eq_cons.mpr ⟨by simp, ?_⟩
    apply List.map_congr_left
    intro k _
    rw [Function.comp_apply, Nat.mul_succ, Nat.add_comm (0x1000 * k), BitVec.ofNat_add,
      ← BitVec.add_assoc]
    rfl
  | case2 size start hpos =>
    have hlength : (size.toNat + 0xFFF) / 0x1000 = 0 := by omega
    rw [verifyLoop, if_neg hpos, hlength, List.range_zero, List.map_nil]

theorem page_add (a : BitVec 64) (n : Nat) :
    page (a + BitVec.ofNat 64 n) = (page a + (a.toNat % 0x1000 + n) / 0x1000) % 2 ^ 52 := by
  rw [page, page, BitVec.toNat_add, BitVec.toNat_ofNat]
  omega

/-- How far the first byte is behind the first page that is verified, in pages. -/
def distance (u : Segments) (addr : BitVec 64) : Nat :=
  (page (u.fs + addr) + 2 ^ 52 - page (firstVisited u addr)) % 2 ^ 52

def spanned (u : Segments) (addr : BitVec 64) (n : Nat) : Nat :=
  ((u.fs + addr).toNat % 0x1000 + n + 0xFFF) / 0x1000

/-- A window of `k` pages has the `m` pages exactly when it is long enough. -/
theorem window_iff {p v k m : Nat} (hp : p < 2 ^ 52) (hv : v < 2 ^ 52) (hk : k < 2 ^ 52)
    (hm : 0 < m) :
    (∀ q < m, ∃ i < k, (v + i) % 2 ^ 52 = (p + q) % 2 ^ 52) ↔
      (p + 2 ^ 52 - v) % 2 ^ 52 + m ≤ k := by
  constructor
  · intro h
    obtain ⟨i, hi, hfirst⟩ := h 0 hm
    have hdistance : (p + 2 ^ 52 - v) % 2 ^ 52 = i := by omega
    by_contra hlong
    -- the page behind the window is one of the `m` pages
    obtain ⟨j, hj, hlast⟩ := h (k - i) (by omega)
    omega
  · intro h q hq
    exact ⟨(p + 2 ^ 52 - v) % 2 ^ 52 + q, by omega, by omega⟩

theorem page_lt (a : BitVec 64) : page a < 2 ^ 52 := by
  rw [page]
  omega

theorem visited_lt (addr : BitVec 64) (size : BitVec 32) : visited addr size < 2 ^ 52 := by
  have := BitVec.toInt_lt (x := size + (addr &&& 0xFFF).setWidth 32)
  rw [visited]
  omega

/-- `verify_area` verifies the bytes exactly when it visits their pages. -/
theorem verified_verifyArea_iff (u : Segments) (addr : BitVec 64) (size : BitVec 32) {n : Nat}
    (hn : 0 < n) :
    Verified (verifyArea u addr size ++ putBytes u addr n) ↔
      distance u addr + spanned u addr n ≤ visited addr size := by
  have hspanned : 0 < spanned u addr n := by
    rw [spanned]
    omega
  rw [verifyArea, verified_append_iff, verifyLoop_eq, distance, ← window_iff (page_lt _)
    (page_lt _) (visited_lt addr size) hspanned]
  have hvisit : ∀ k, page (firstVisited u addr + BitVec.ofNat 64 (0x1000 * k)) =
      (page (firstVisited u addr) + k) % 2 ^ 52 := by
    intro k
    rw [page_add]
    congr 2
    omega
  constructor
  · intro h q hq
    -- the first byte on page `q`
    obtain ⟨i, hi, hiq⟩ : ∃ i < n, ((u.fs + addr).toNat % 0x1000 + i) / 0x1000 = q := by
      rw [spanned] at hq
      exact ⟨q * 0x1000 - (u.fs + addr).toNat % 0x1000, by omega, by omega⟩
    obtain ⟨v, hv, hpage⟩ := h i hi
    obtain ⟨k, hk, rfl⟩ := List.mem_map.mp hv
    refine ⟨k, List.mem_range.mp hk, ?_⟩
    rw [← hvisit, ← hiq, ← page_add]
    exact hpage
  · intro h i hi
    obtain ⟨k, hk, hpage⟩ := h (((u.fs + addr).toNat % 0x1000 + i) / 0x1000) (by
      rw [spanned]
      omega)
    refine ⟨_, List.mem_map_of_mem (List.mem_range.mpr hk), ?_⟩
    exact (hvisit k).trans (hpage.trans (page_add _ _).symm)

theorem not_verified_putBytes (u : Segments) (addr : BitVec 64) {n : Nat} (hn : 0 < n) :
    ¬ Verified (putBytes u addr n) := by
  intro h
  have := (verified_append_iff [] u addr n).mp (by simpa using h) 0 hn
  simp at this

theorem verified_nil : Verified [] := by
  intro before a after h
  simp at h

end Linux001.User
