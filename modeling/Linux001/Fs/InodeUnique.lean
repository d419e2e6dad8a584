import Linux001.Fs.InodeTable

/-! No inode is in the table twice, and none that a process has is cleared: `iget` looks at the
whole table between its last sleep and the use of the empty inode. -/

namespace Linux001.Fs

open Function ProofKit

variable {π : Type*} [DecidableEq π]

namespace World

section Refs

variable [Fintype π]

def refs (w : World π) (i : Slot) : Nat := ∑ p, w.held p i

omit [DecidableEq π] in
theorem held_le_refs (w : World π) (p : π) (i : Slot) : w.held p i ≤ w.refs i :=
  Finset.single_le_sum (f := fun q => w.held q i) (fun _ _ => Nat.zero_le _) (Finset.mem_univ p)

theorem held_add_held_le_refs (w : World π) {p q : π} (hne : p ≠ q) (i : Slot) :
    w.held p i + w.held q i ≤ w.refs i := by
  rw [refs, ← Finset.sum_pair (f := fun r => w.held r i) hne]
  exact Finset.sum_le_sum_of_subset (Finset.subset_univ _)

theorem refs_setHeld_ne (w : World π) (p : π) {i j : Slot} (n : Nat) (hne : j ≠ i) :
    (w.setHeld p i n).refs j = w.refs j := by
  apply Finset.sum_congr rfl
  intro q _
  by_cases hq : q = p
  · subst hq
    simp [setHeld, hne]
  · simp [setHeld, hq]

theorem refs_setHeld (w : World π) (p : π) (i : Slot) (n : Nat) :
    (w.setHeld p i n).refs i + w.held p i = w.refs i + n := by
  have hrest : ∑ q ∈ Finset.univ.erase p, (w.setHeld p i n).held q i =
      ∑ q ∈ Finset.univ.erase p, w.held q i := by
    apply Finset.sum_congr rfl
    intro q hq
    simp [setHeld, Finset.ne_of_mem_erase hq]
  have hnew : (w.setHeld p i n).held p i = n := by simp [setHeld]
  rw [refs, refs, ← Finset.add_sum_erase _ _ (Finset.mem_univ p),
    ← Finset.add_sum_erase _ _ (Finset.mem_univ p), hrest, hnew]
  omega

end Refs

/-- What a sleeping process has: a device, and the reference that it will put. -/
def PointOk (w : World π) (p : π) : Prop :=
  match w.point p with
  | .emptyWait c _ | .writeLock (.empty c) _ | .writeBread (.empty c) _ _ _ => c.Ok
  | .writeLock .put i | .writeBread .put i _ _ | .truncate i =>
    0 < w.held p i ∧ (w.table.inode i).iDev ≠ 0
  | .scanWait dev _ empty _ => 0 < w.held p empty ∧ dev ≠ 0
  | .putWait i => 0 < w.held p i
  | .idle | .readLock _ | .readBread _ _ _ => True

omit [DecidableEq π] in
theorem PointOk.congr {w w' : World π} {q : π} (h : w.PointOk q)
    (hpoint : w'.point q = w.point q) (hheld : w'.held q = w.held q)
    (hdev : ∀ j, 0 < w.held q j → (w.table.inode j).iDev ≠ 0 → (w'.table.inode j).iDev ≠ 0) :
    w'.PointOk q := by
  rw [PointOk, hpoint, hheld]
  rw [PointOk] at h
  split
  all_goals simp_all

variable [Fintype π] {P : π → Prop} {m : MInode} {n : Nat} {empty : Slot} {c : EmptyCaller}

/-- The inodes are unique, counts are exact, and `P` have what they need. -/
structure Sound (w : World π) (P : π → Prop) : Prop where
  unique : w.table.Unique
  count : ∀ i, (w.table.inode i).iCount = BitVec.ofNat 16 (w.refs i)
  points : ∀ q, P q → w.PointOk q

def ClearsFree (w w' : World π) : Prop :=
  ∀ j, w'.clears j ≠ w.clears j → (w.table.inode j).iCount = 0

/-- A part of a step from `w₀`, which cleared slots only that had no references. -/
structure Stepped (w₀ w : World π) (P : π → Prop) : Prop extends w.Sound P where
  clears : ClearsFree w₀ w

variable {w0 w w' : World π} {p : π} {i : Slot}

theorem Stepped.goto (h : Stepped w0 w (· ≠ p)) {x : Point} (hx : (w.goto p x).PointOk p) :
    Stepped w0 (w.goto p x) fun _ => True where
  unique := h.unique
  count := h.count
  clears := h.clears
  points := by
    intro q _
    by_cases hq : q = p
    · rw [hq]
      exact hx
    · exact (h.points q hq).congr (update_of_ne hq _ _) rfl fun _ _ hdev => hdev

theorem Stepped.update (h : Stepped w0 w P) (hp : ¬ P p) (hunique : ∀ j ≠ i, m.iDev ≠ 0 →
      ¬ ((w.table.inode j).iDev = m.iDev ∧ (w.table.inode j).iNum = m.iNum))
    (hcount : m.iCount + BitVec.ofNat 16 (w.held p i) =
    (w.table.inode i).iCount + BitVec.ofNat 16 n)
    (hdev : ∀ q, P q → 0 < w.held q i → (w.table.inode i).iDev ≠ 0 → m.iDev ≠ 0) :
    Stepped w0 ((w.setInode i m).setHeld p i n) P := by
  have hself : ((w.setInode i m).setHeld p i n).table.inode i = m := by
    simp [setHeld, World.setInode, InodeTable.setInode]
  have hother : ∀ j ≠ i, ((w.setInode i m).setHeld p i n).table.inode j = w.table.inode j := by
    intro j hj
    simp [setHeld, World.setInode, InodeTable.setInode, hj]
  refine ⟨⟨?_, ?_, ?_⟩, h.clears⟩
  · intro j k hj hjk hnum
    by_cases hji : j = i <;> by_cases hki : k = i
    · rw [hji, hki]
    · subst hji
      rw [hself] at hj hjk hnum
      rw [hother k hki] at hjk hnum
      exact absurd ⟨hjk.symm, hnum.symm⟩ (hunique k hki hj)
    · subst hki
      rw [hself, hother j hji] at hjk hnum
      rw [hother j hji] at hj
      exact absurd ⟨hjk, hnum⟩ (hunique j hji (hjk ▸ hj))
    · rw [hother j hji] at hj hjk hnum
      rw [hother k hki] at hjk hnum
      exact h.unique j k hj hjk hnum
  · intro j
    by_cases hj : j = i
    · subst hj
      have hrefs := (w.setInode j m).refs_setHeld p j n
      have hheld : (w.setInode j m).held p j = w.held p j := rfl
      rw [hself]
      have hsum : BitVec.ofNat 16 (((w.setInode j m).setHeld p j n).refs j) +
          BitVec.ofNat 16 (w.held p j) = m.iCount + BitVec.ofNat 16 (w.held p j) := by
        rw [hcount, h.count j, ← BitVec.ofNat_add, ← BitVec.ofNat_add, ← hheld, hrefs]
        rfl
      exact (add_right_cancel hsum).symm
    · rw [hother j hj, h.count j, refs_setHeld_ne _ p n hj]
      rfl
  · intro q hq
    have hqp : q ≠ p := fun heq => hp (heq ▸ hq)
    refine (h.points q hq).congr rfl (update_of_ne hqp _ _) fun j hj hjdev => ?_
    by_cases hji : j = i
    · subst hji
      rw [hself]
      exact hdev q hq hj hjdev
    · rw [hother j hji]
      exact hjdev

omit [DecidableEq π] in
theorem Stepped.setInode (h : Stepped w0 w P)
    (hdev : m.iDev = (w.table.inode i).iDev) (hnum : m.iNum = (w.table.inode i).iNum)
    (hcount : m.iCount = (w.table.inode i).iCount) : Stepped w0 (w.setInode i m) P := by
  have hsame : ∀ j, ((w.setInode i m).table.inode j).iDev = (w.table.inode j).iDev ∧
      ((w.setInode i m).table.inode j).iNum = (w.table.inode j).iNum ∧
      ((w.setInode i m).table.inode j).iCount = (w.table.inode j).iCount := by
    intro j
    by_cases hj : j = i
    · subst hj
      simp [World.setInode, InodeTable.setInode, hdev, hnum, hcount]
    · simp [World.setInode, InodeTable.setInode, hj]
  refine ⟨⟨?_, ?_, ?_⟩, h.clears⟩
  · intro j k hj hdev' hnum'
    rw [(hsame j).1] at hj hdev'
    rw [(hsame k).1] at hdev'
    rw [(hsame j).2.1, (hsame k).2.1] at hnum'
    exact h.unique j k hj hdev' hnum'
  · intro j
    rw [(hsame j).2.2]
    exact h.count j
  · intro q hq
    refine (h.points q hq).congr rfl rfl fun j _ hj => ?_
    rw [(hsame j).1]
    exact hj

theorem Stepped.recount (h : Stepped w0 w (· ≠ p)) (hdev : m.iDev = (w.table.inode i).iDev)
    (hnum : m.iNum = (w.table.inode i).iNum) (hcount : m.iCount + BitVec.ofNat 16 (w.held p i) =
      (w.table.inode i).iCount + BitVec.ofNat 16 n) :
    Stepped w0 ((w.setInode i m).setHeld p i n) (· ≠ p) := by
  refine h.update (fun hp => hp rfl) ?_ hcount fun q _ _ hq => hdev ▸ hq
  intro j hj hne heq
  rw [hdev] at hne heq
  rw [hnum] at heq
  exact hj (h.unique i j hne heq.1.symm heq.2.symm).symm

theorem Stepped.clear (h : Stepped w0 w (· ≠ p)) (hothers : ∀ q ≠ p, w.held q i = 0)
    (hdev : m.iDev = 0) (hcount : m.iCount + BitVec.ofNat 16 (w.held p i) =
      (w.table.inode i).iCount + BitVec.ofNat 16 n) :
    Stepped w0 ((w.setInode i m).setHeld p i n) (· ≠ p) := by
  refine h.update (fun hp => hp rfl) (fun j _ hne => absurd hdev hne) hcount ?_
  intro q hq hheld
  rw [hothers q hq] at hheld
  exact absurd hheld (Nat.lt_irrefl 0)

theorem ofNat_succ (n : Nat) : BitVec.ofNat 16 (n + 1) = BitVec.ofNat 16 n + 1 := by
  rw [BitVec.ofNat_add]
  rfl

theorem ofNat_pred (h : 0 < n) : BitVec.ofNat 16 n = BitVec.ofNat 16 (n - 1) + 1 := by
  rw [← ofNat_succ, Nat.sub_add_cancel h]

theorem Stepped.drop (h : Stepped w0 w (· ≠ p)) (hheld : 0 < w.held p i) :
    Stepped w0 (w.drop p i) fun _ => True := by
  apply Stepped.goto
  · refine h.recount ?_ ?_ ?_
    · rfl
    · rfl
    · rw [ofNat_pred hheld]
      ring
  · simp [PointOk, World.goto]

def WriteOk (w : World π) (p : π) (i : Slot) : WriteCaller → Prop
  | .empty c => c.Ok
  | .put => 0 < w.held p i ∧ (w.table.inode i).iDev ≠ 0

section
variable (h : Stepped w0 w (· ≠ p))
include h

theorem Stepped.writeInode {c : WriteCaller} (hc : w.WriteOk p i c) :
    Stepped w0 (w.writeInode p c i) fun _ => True := by
  rw [World.writeInode]
  split
  · apply h.goto
    cases c with
    | empty c => simpa [PointOk, World.goto, WriteOk] using hc
    | put => simpa [PointOk, World.goto, WriteOk] using hc
  · apply Stepped.goto
    · apply h.setInode <;> rfl
    · cases c with
      | empty c => simpa [PointOk, World.goto, WriteOk] using hc
      | put => simpa [PointOk, World.goto, World.setInode, InodeTable.setInode, WriteOk] using hc

theorem Stepped.readInode : Stepped w0 (w.readInode p i) fun _ => True := by
  rw [World.readInode]
  split
  · apply h.goto
    simp [PointOk, World.goto]
  · apply Stepped.goto
    · apply h.setInode <;> rfl
    · simp [PointOk, World.goto]

theorem Stepped.iputRepeat (hheld : 0 < w.held p i)
    (hdev : (w.table.inode i).iDev ≠ 0) : Stepped w0 (w.iputRepeat p i) fun _ => True := by
  rw [World.iputRepeat]
  split
  · apply h.goto
    simpa [PointOk, World.goto] using ⟨hheld, hdev⟩
  · split
    · exact h.writeInode ⟨hheld, hdev⟩
    · exact h.drop hheld

theorem Stepped.iputBody (hheld : 0 < w.held p i)
    (hstep : w.iputBody p i = some w') : Stepped w0 w' fun _ => True := by
  obtain ⟨hcount, hstep⟩ := Option.ite_none_left_eq_some.mp hstep
  split at hstep
  · split at hstep
    · cases hstep
      exact h.drop hheld
    rename_i hlast
    cases hstep
    have hone : (w.table.inode i).iCount = 1 := sub_eq_zero.mp (not_not.mp hlast)
    apply Stepped.goto
    · refine h.recount ?_ ?_ ?_
      · rfl
      · rfl
      · rw [ofNat_pred hheld, hone]
        ring
    · simp [PointOk, World.goto]
  · split at hstep
    · cases hstep
      exact h.drop hheld
    · next hdev =>
      cases hstep
      exact h.iputRepeat hheld fun hzero => hdev (.inl hzero)

theorem Stepped.iput (hheld : 0 < w.held p i)
    (hstep : w.iput p i = some w') : Stepped w0 w' fun _ => True := by
  rw [World.iput] at hstep
  split at hstep
  · cases hstep
    apply h.goto
    simpa [PointOk, World.goto] using hheld
  · exact h.iputBody hheld hstep

end

omit [DecidableEq π] in
theorem Sound.toNat_count (h : w.Sound P) (hbound : w.refs i < 2 ^ 16) :
    (w.table.inode i).iCount.toNat = w.refs i := by
  rw [h.count i, BitVec.toNat_ofNat, Nat.mod_eq_of_lt hbound]

omit [DecidableEq π] in
theorem Sound.held_eq_zero (h : w.Sound P) (hbound : w.refs i < 2 ^ 16)
    (hcount : (w.table.inode i).iCount = 0) (q : π) : w.held q i = 0 := by
  have hrefs := h.toNat_count hbound
  have hle := w.held_le_refs q i
  rw [hcount] at hrefs
  have hzero : (0 : BitVec 16).toNat = 0 := rfl
  omega

section
variable (h : Stepped w0 w (· ≠ p))
include h

theorem Stepped.freeInode (hbound : w.refs i < 2 ^ 16) (hheld : 0 < w.held p i)
    (hdev : (w.table.inode i).iDev ≠ 0) (hstep : w.freeInode p i = some w') :
    Stepped w0 w' fun _ => True := by
  obtain ⟨hpanic, hstep⟩ := Option.ite_none_left_eq_some.mp hstep
  cases hstep
  have hrefs := h.toNat_count hbound
  have hcount : (w.table.inode i).iCount.toNat ≤ 1 := by
    by_contra hlarge
    exact hpanic ⟨hdev, .inl (BitVec.lt_def.mpr (Nat.lt_of_not_le hlarge))⟩
  have hle := w.held_le_refs p i
  have hothers : ∀ q ≠ p, w.held q i = 0 := by
    intro q hq
    have := w.held_add_held_le_refs hq i
    omega
  have hone : (w.table.inode i).iCount = 1 := by
    apply BitVec.eq_of_toNat_eq
    have hone : (1 : BitVec 16).toNat = 1 := rfl
    omega
  apply Stepped.goto
  · refine h.clear hothers ?_ ?_
    · rfl
    · rw [ofNat_pred hheld, hone, clearedInode]
      ring
  · simp [PointOk, World.goto]

theorem Stepped.igetFound (hheld : 0 < w.held p empty)
    (hstep : w.igetFound p empty i = some w') : Stepped w0 w' fun _ => True := by
  refine Stepped.iput ?_ ?_ hstep
  · refine h.recount ?_ ?_ ?_
    · rfl
    · rfl
    · rw [ofNat_succ]
      ring
  · by_cases heq : empty = i
    · subst heq
      simp [setHeld]
    · simpa [setHeld, heq] using hheld

theorem Stepped.igetScan {dev nr : BitVec 16} (hdev : dev ≠ 0)
    (hheld : 0 < w.held p empty) (hstep : w.igetScan p dev nr empty = some w') :
    Stepped w0 w' fun _ => True := by
  rw [World.igetScan] at hstep
  split at hstep
  · split at hstep
    · cases hstep
      apply h.goto
      simpa [PointOk, World.goto] using ⟨hheld, hdev⟩
    · exact h.igetFound hheld hstep
  · next hnone =>
    cases hstep
    apply Stepped.readInode
    rw [← setHeld_self (w.setInode empty _) p empty]
    refine h.update (fun hp => hp rfl)
      (fun j _ _ => InodeTable.not_lookup hnone j) rfl fun _ _ _ _ => hdev

theorem Stepped.takeEmpty (hbound : w.refs i < 2 ^ 16)
    (hcount : (w.table.inode i).iCount = 0) (hfree : (w0.table.inode i).iCount = 0) :
    Stepped w0 (w.takeEmpty p i) (· ≠ p) := by
  have hnobody := h.held_eq_zero hbound hcount
  have hclear : Stepped w0 ((w.setInode i { clearedInode with iCount := 1 }).setHeld p i
      (w.held p i + 1)) (· ≠ p) := by
    refine h.clear (fun q _ => hnobody q) ?_ ?_
    · rfl
    · rw [ofNat_succ, hcount]
      ring
  refine ⟨⟨hclear.unique, hclear.count, hclear.points⟩, fun j hj => ?_⟩
  by_cases hji : j = i
  · rw [hji, hfree]
  · refine h.clears j fun heq => hj ?_
    exact (update_of_ne hji _ _).trans heq

theorem Stepped.gotEmpty (hbound : w.refs i < 2 ^ 16)
    (hcount : (w.table.inode i).iCount = 0) (hfree : (w0.table.inode i).iCount = 0) (hc : c.Ok)
    (hstep : w.gotEmpty p c i = some w') : Stepped w0 w' fun _ => True := by
  have htake := h.takeEmpty hbound hcount hfree
  have hheld : 0 < (w.takeEmpty p i).held p i := by
    rw [takeEmpty_held]
    omega
  cases c with
  | plain =>
    cases hstep
    apply htake.goto
    simp [PointOk, World.goto]
  | pipe page =>
    rw [World.gotEmpty] at hstep
    split at hstep
    · cases hstep
      apply Stepped.goto
      · refine htake.recount ?_ ?_ ?_
        · rfl
        · rfl
        · rw [ofNat_succ, takeEmpty_count]
          ring
      · simp [PointOk, World.goto]
    · cases hstep
      apply Stepped.goto
      · refine htake.recount ?_ ?_ ?_
        · rfl
        · rfl
        · rw [ofNat_pred hheld, takeEmpty_count]
          ring
      · simp [PointOk, World.goto]
  | iget dev nr => exact htake.igetScan hc hheld hstep

end

theorem count_of_firstFree {t : InodeTable} (h : t.firstFree = some i) :
    (t.inode i).iCount = 0 := by
  simpa using List.find?_some h

omit [DecidableEq π] in
theorem Stepped.setLast (h : Stepped w0 w P) (i : Slot) : Stepped w0 (w.setLast i) P :=
  ⟨⟨h.unique, h.count, h.points⟩, h.clears⟩

theorem Stepped.emptySelect (h : Stepped w0 w (· ≠ p)) (hbound : ∀ i, w.refs i < 2 ^ 16)
    (hsame : ∀ i, (w.table.inode i).iCount = (w0.table.inode i).iCount) (hc : c.Ok)
    (hstep : w.emptySelect p c = some w') : Stepped w0 w' fun _ => True := by
  rw [World.emptySelect] at hstep
  split at hstep
  · cases hstep
  rename_i i hfree
  have hlast := h.setLast i
  split at hstep
  · cases hstep
    apply hlast.goto
    simpa [PointOk, World.goto] using hc
  · split at hstep
    · cases hstep
      exact hlast.writeInode hc
    · have hcount : (w.table.inode i).iCount = 0 := count_of_firstFree hfree
      exact hlast.gotEmpty (hbound i) hcount (hsame i ▸ hcount) hc hstep

theorem Stepped.emptyCheck (h : Stepped w0 w (· ≠ p)) (hbound : ∀ i, w.refs i < 2 ^ 16)
    (hsame : ∀ i, (w.table.inode i).iCount = (w0.table.inode i).iCount) (hc : c.Ok)
    (hstep : w.emptyCheck p c i = some w') : Stepped w0 w' fun _ => True := by
  rw [World.emptyCheck] at hstep
  split at hstep
  · cases hstep
    exact h.writeInode hc
  · split at hstep
    · next hcount => exact h.gotEmpty (hbound i) hcount (hsame i ▸ hcount) hc hstep
    · exact h.emptySelect hbound hsame hc hstep

omit [DecidableEq π] in
theorem Stepped.storeInode (h : Stepped w0 w P) (i : Slot) (dev : BitVec 16)
    (block : BitVec 32) :
    Stepped w0 ({ w with table := w.table.storeInode i dev block } : World π) P := by
  have hset := h.setInode (i := i) (m := { w.table.inode i with iDirt := false, iLock := false })
    rfl rfl rfl
  exact ⟨⟨hset.unique, hset.count, hset.points⟩, hset.clears⟩

omit [DecidableEq π] in
theorem Stepped.loadInode (h : Stepped w0 w P) (i : Slot) (dev : BitVec 16)
    (block : BitVec 32) :
    Stepped w0 ({ w with table := w.table.loadInode i dev block } : World π) P := by
  apply h.setInode (i := i) <;> rfl

omit [DecidableEq π] in
theorem Sound.start (h : w.Sound fun _ => True) (p : π) : Stepped w w (· ≠ p) :=
  ⟨⟨h.unique, h.count, fun q _ => h.points q trivial⟩, fun _ hj => absurd rfl hj⟩

theorem Sound.resume (h : w.Sound fun _ => True) (hbound : ∀ i, w.refs i < 2 ^ 16)
    (hstep : w.resume p = some w') : Stepped w w' fun _ => True := by
  have hothers := h.start p
  have hpoint := h.points p trivial
  rw [PointOk] at hpoint
  rw [World.resume] at hstep
  cases hp : w.point p with
  | idle =>
    rw [hp] at hstep
    cases hstep
  | emptyWait c i =>
    rw [hp] at hstep hpoint
    exact hothers.emptyCheck hbound (fun _ => rfl) hpoint (Option.ite_none_left_eq_some.mp hstep).2
  | writeLock c i =>
    rw [hp] at hstep hpoint
    obtain rfl := Option.some.inj (Option.ite_none_left_eq_some.mp hstep).2
    cases c with
    | empty c => exact hothers.writeInode hpoint
    | put => exact hothers.writeInode hpoint
  | writeBread c i dev block =>
    rw [hp] at hstep hpoint
    have hstored := hothers.storeInode i dev block
    cases c with
    | empty c => exact hstored.emptyCheck hbound (w.table.storeInode_count i dev block) hpoint hstep
    | put =>
      cases hstep
      apply hstored.iputRepeat hpoint.1
      simpa [InodeTable.storeInode] using hpoint.2
  | scanWait dev nr empty i =>
    rw [hp] at hstep hpoint
    have hstep := (Option.ite_none_left_eq_some.mp hstep).2
    split at hstep
    · exact hothers.igetFound hpoint.1 hstep
    · exact hothers.igetScan hpoint.2 hpoint.1 hstep
  | readLock i =>
    rw [hp] at hstep
    obtain rfl := Option.some.inj (Option.ite_none_left_eq_some.mp hstep).2
    exact hothers.readInode
  | readBread i dev block =>
    rw [hp] at hstep
    cases hstep
    apply (hothers.loadInode i dev block).goto
    simp [PointOk, World.goto]
  | putWait i =>
    rw [hp] at hstep hpoint
    exact hothers.iputBody hpoint (Option.ite_none_left_eq_some.mp hstep).2
  | truncate i =>
    rw [hp] at hstep hpoint
    exact hothers.freeInode (hbound i) hpoint.1 hpoint.2 hstep

end World

variable [Fintype π] {w w' : World π} {e : InodeEvent π}

theorem inodeStep_stepped (h : w.Sound fun _ => True) (hbound : ∀ i, w.refs i < 2 ^ 16)
    (hstep : inodeStep w e = some w') : w.Stepped w' fun _ => True := by
  cases e with
  | getEmptyInode p =>
    have hselect := (Option.ite_none_right_eq_some.mp hstep).2
    exact (h.start p).emptySelect hbound (fun _ => rfl) (c := .plain) trivial hselect
  | getPipeInode p page =>
    have hselect := (Option.ite_none_right_eq_some.mp hstep).2
    exact (h.start p).emptySelect hbound (fun _ => rfl) (c := .pipe page) trivial hselect
  | iget p dev nr =>
    obtain ⟨⟨-, hdev⟩, hselect⟩ := Option.ite_none_right_eq_some.mp hstep
    exact (h.start p).emptySelect hbound (fun _ => rfl) (c := .iget dev nr) hdev hselect
  | iput p i =>
    obtain ⟨⟨-, hheld⟩, hput⟩ := Option.ite_none_right_eq_some.mp hstep
    exact (h.start p).iput hheld hput
  | resume p => exact h.resume hbound hstep
  | modify i d dirt =>
    cases hstep
    have hself : w.Stepped w fun _ => True := ⟨h, fun _ hj => absurd rfl hj⟩
    apply hself.setInode <;> rfl

/-- There are fewer than `2^16` references to each inode after the step. -/
def FewRefs (w : World π) (e : InodeEvent π) : Prop :=
  ∀ w', inodeStep w e = some w' → ∀ i, w'.refs i < 2 ^ 16

omit [DecidableEq π] in
theorem initialWorld_refs (t : InodeTable) (i : Slot) : (initialWorld π t).refs i = 0 := by
  simp [World.refs, initialWorld]

omit [DecidableEq π] in
theorem initialWorld_sound (imapBlocks zmapBlocks : BitVec 16 → BitVec 16)
    (blocks : BitVec 16 → BitVec 32 → Fin 21 → DInode) :
    (initialWorld π (emptyTable imapBlocks zmapBlocks blocks)).Sound fun _ => True where
  unique := fun _ _ h => absurd rfl h
  count := by
    intro i
    rw [initialWorld_refs]
    rfl
  points := fun _ _ => trivial

/-- With fewer than `2^16` references, inodes are unique and none in use is cleared. -/
theorem unique_of_reaches {imapBlocks zmapBlocks : BitVec 16 → BitVec 16}
    {blocks : BitVec 16 → BitVec 32 → Fin 21 → DInode} (hreach : Reaches inodeStep FewRefs
      (initialWorld π (emptyTable imapBlocks zmapBlocks blocks)) w) :
    w.table.Unique ∧ ∀ e w', inodeStep w e = some w' → ∀ i, w'.clears i ≠ w.clears i →
      (w.table.inode i).iCount = 0 ∧ ∀ q, w.held q i = 0 := by
  have hinv : (w.Sound fun _ => True) ∧ ∀ i, w.refs i < 2 ^ 16 := by
    refine hreach.invariant
      (P := fun w : World π => (w.Sound fun _ => True) ∧ ∀ i, w.refs i < 2 ^ 16) ?_ ?_
    · intro s e t hs hok hstep
      exact ⟨(inodeStep_stepped hs.1 hs.2 hstep).toSound, hok t hstep⟩
    · refine ⟨initialWorld_sound imapBlocks zmapBlocks blocks, fun i => ?_⟩
      rw [initialWorld_refs]
      decide
  obtain ⟨hsound, hbound⟩ := hinv
  refine ⟨hsound.unique, fun e w' hstep i hi => ?_⟩
  have hcount := (inodeStep_stepped hsound hbound hstep).clears i hi
  exact ⟨hcount, hsound.held_eq_zero (hbound i) hcount⟩

def fewRefs (w : World π) (e : InodeEvent π) : Bool :=
  match inodeStep w e with
  | none => true
  | some w' => decide (∀ i, w'.refs i < 2 ^ 16)

theorem fewRefs_spec (w : World π) (e : InodeEvent π) (h : fewRefs w e = true) : FewRefs w e := by
  intro w' hstep
  rw [fewRefs, hstep] at h
  exact of_decide_eq_true h

/-- The second process finds the inode that the first one reads, and waits for it. -/
def sharedRun : List (InodeEvent (Fin 2)) :=
  [.iget 0 0x306 5, .iget 1 0x306 5, .resume 0, .resume 1]

def startWorld : World (Fin 2) :=
  initialWorld (Fin 2) (emptyTable (fun _ => 1) (fun _ => 1) fun _ _ _ => clearedInode.d)

theorem unique_of_reaches_shared :
    ∃ w, Reaches inodeStep FewRefs startWorld w ∧ (w.table.inode 0).iCount = 2 ∧
      w.table.Unique := by
  have hrun :
    (run (fun w e => if fewRefs w e then inodeStep w e else none) sharedRun startWorld).map
      (fun w => (w.table.inode 0).iCount) = some 2 := by
    decide +kernel
  obtain ⟨w, hw, hcount⟩ := Option.map_eq_some_iff.mp hrun
  have hreach := reaches_of_checked fewRefs_spec hw
  exact ⟨w, hreach, hcount, (unique_of_reaches hreach).1⟩

end Linux001.Fs
