import Linux001.Fs.InodeTable

/-! The inode table as a cache of the inodes on the disk, when one call runs after the other: `iget`
returns the fields that were last stored, through any write-back. -/

namespace Linux001.Fs

open Function ProofKit

namespace InodeTable

def onDisk (t : InodeTable) (dev nr : BitVec 16) : DInode :=
  t.blocks dev (t.blockOf dev nr) (indexOf nr)

def writeInode (t : InodeTable) (i : Slot) : InodeTable :=
  t.storeInode i (t.inode i).iDev (t.blockOf (t.inode i).iDev (t.inode i).iNum)

def readInode (t : InodeTable) (i : Slot) : InodeTable :=
  t.loadInode i (t.inode i).iDev (t.blockOf (t.inode i).iDev (t.inode i).iNum)

def flush (t : InodeTable) (i : Slot) : InodeTable :=
  if (t.inode i).iDirt then t.writeInode i else t

def setCount (t : InodeTable) (i : Slot) (n : BitVec 16) : InodeTable :=
  t.setInode i { t.inode i with iCount := n }

def getEmptyInode (t : InodeTable) : Option (InodeTable × Slot) :=
  t.firstFree.map fun i =>
    (({ t with last := i }.flush i).setInode i { clearedInode with iCount := 1 }, i)

def iput (t : InodeTable) (i : Slot) : Option InodeTable :=
  let m := t.inode i
  if m.iCount = 0 then none
  else if m.iPipe then
    if m.iCount - 1 ≠ 0 then some (t.setCount i (m.iCount - 1))
    else some (t.setInode i { m with iCount := 0, iDirt := false, iPipe := false })
  else if m.iDev = 0 ∨ 1 < m.iCount then some (t.setCount i (m.iCount - 1))
  else if m.d.iNlinks = 0 then none
  else some ((t.flush i).setCount i (m.iCount - 1))

def iget (t : InodeTable) (dev nr : BitVec 16) : Option (InodeTable × Slot) :=
  if dev = 0 then none else
    t.getEmptyInode.bind fun (t, empty) =>
      match t.lookup dev nr with
      | some i =>
        ((t.setCount i ((t.inode i).iCount + 1)).iput empty).map fun t => (t, i)
      | none =>
        some ((t.setInode empty { t.inode empty with iDev := dev, iNum := nr }).readInode empty,
          empty)

def syncInodes (t : InodeTable) : InodeTable :=
  (List.finRange 32).foldl (fun t i => if (t.inode i).iPipe then t else t.flush i) t

theorem place_injective {t : InodeTable} {dev nr nr' : BitVec 16}
    (hblock : t.blockOf dev nr = t.blockOf dev nr') (hindex : indexOf nr = indexOf nr') :
    nr = nr' := by
  have hquot : ((nr.setWidth 64 - 1) / 21).setWidth 32 = ((nr'.setWidth 64 - 1) / 21).setWidth 32 :=
    add_left_cancel hblock
  have hquot := congrArg BitVec.toNat hquot
  have hrem := congrArg Fin.val hindex
  simp only [indexOf, Fin.val_ofNat] at hrem
  simp only [BitVec.toNat_setWidth, BitVec.toNat_udiv, BitVec.toNat_sub] at hquot hrem
  have hone : (1 : BitVec 64).toNat = 1 := rfl
  have hper : (21 : BitVec 64).toNat = 21 := rfl
  rw [hone, hper] at hquot
  apply BitVec.eq_of_toNat_eq
  omega

theorem onDisk_writeInode_of_ne {t : InodeTable} {i : Slot} {dev nr : BitVec 16}
    (hne : ¬ (dev = (t.inode i).iDev ∧ nr = (t.inode i).iNum)) :
    (t.writeInode i).onDisk dev nr = t.onDisk dev nr := by
  change update t.blocks _ _ dev (t.blockOf dev nr) (indexOf nr) = _
  by_cases hdev : dev = (t.inode i).iDev
  · subst hdev
    rw [update_self]
    by_cases hblock : t.blockOf (t.inode i).iDev nr =
        t.blockOf (t.inode i).iDev (t.inode i).iNum
    · rw [hblock, update_self, update_of_ne]
      · rw [onDisk, hblock]
      · exact fun hindex => hne ⟨rfl, place_injective hblock hindex⟩
    · rw [update_of_ne hblock]
      rfl
  · rw [update_of_ne hdev]
    rfl

theorem onDisk_writeInode (t : InodeTable) (i : Slot) :
    (t.writeInode i).onDisk (t.inode i).iDev (t.inode i).iNum = (t.inode i).d := by
  change update t.blocks _ _ _ (t.blockOf (t.inode i).iDev (t.inode i).iNum) _ = _
  rw [update_self, update_self, update_self]

theorem writeInode_inode (t : InodeTable) (i j : Slot) :
    (t.writeInode i).inode j =
      { t.inode j with
        iDirt := if j = i then false else (t.inode j).iDirt
        iLock := if j = i then false else (t.inode j).iLock } := by
  by_cases hj : j = i
  · subst hj
    simp [writeInode, storeInode]
  · simp [writeInode, storeInode, hj]

/-- The table has the fields last stored, and the disk but for dirty inodes. -/
structure Coherent (t : InodeTable) (stored : BitVec 16 → BitVec 16 → DInode) : Prop where
  unique : t.Unique
  cached : ∀ i, (t.inode i).iDev ≠ 0 → (t.inode i).d = stored (t.inode i).iDev (t.inode i).iNum
  clean : ∀ i, (t.inode i).iDev ≠ 0 → (t.inode i).iDirt = false →
    t.onDisk (t.inode i).iDev (t.inode i).iNum = stored (t.inode i).iDev (t.inode i).iNum
  absent : ∀ dev nr, dev ≠ 0 → (∀ i, ¬ ((t.inode i).iDev = dev ∧ (t.inode i).iNum = nr)) →
    t.onDisk dev nr = stored dev nr
  noPipe : ∀ i, (t.inode i).iPipe = false

variable {t t' : InodeTable} {stored : BitVec 16 → BitVec 16 → DInode} {i : Slot} {m : MInode}
  {stored' : BitVec 16 → BitVec 16 → DInode} {dev : BitVec 16} {j : Slot} {nr : BitVec 16}

theorem Coherent.writeInode (h : t.Coherent stored) (i : Slot) :
    (t.writeInode i).Coherent stored where
  unique := by
    intro j k hj hdev hnum
    rw [writeInode_inode] at hj hdev hnum
    rw [writeInode_inode] at hdev hnum
    exact h.unique j k hj hdev hnum
  cached := by
    intro j hj
    rw [writeInode_inode] at hj ⊢
    exact h.cached j hj
  clean := by
    intro j hj hclean
    rw [writeInode_inode] at hj hclean ⊢
    by_cases hsame : (t.inode j).iDev = (t.inode i).iDev ∧ (t.inode j).iNum = (t.inode i).iNum
    · obtain rfl := h.unique j i hj hsame.1 hsame.2
      rw [← h.cached j hj]
      exact onDisk_writeInode t j
    have hji : j ≠ i := by
      rintro rfl
      exact hsame ⟨rfl, rfl⟩
    dsimp only at hclean ⊢
    rw [onDisk_writeInode_of_ne hsame]
    rw [if_neg hji] at hclean
    exact h.clean j hj hclean
  absent := by
    intro dev nr hdev hnone
    rw [onDisk_writeInode_of_ne]
    · refine h.absent dev nr hdev fun j hj => hnone j ?_
      rw [writeInode_inode]
      exact hj
    · intro hsame
      refine hnone i ?_
      rw [writeInode_inode]
      exact ⟨hsame.1.symm, hsame.2.symm⟩
  noPipe := by
    intro j
    rw [writeInode_inode]
    exact h.noPipe j

theorem Coherent.flush (h : t.Coherent stored) (i : Slot) : (t.flush i).Coherent stored := by
  rw [InodeTable.flush]
  split
  · exact h.writeInode i
  · exact h

theorem flush_dirt (t : InodeTable) (i : Slot) : ((t.flush i).inode i).iDirt = false := by
  rw [InodeTable.flush]
  split
  · rw [writeInode_inode]
    exact if_pos rfl
  · next h => simpa using h

section
variable (h : t.Coherent stored)
include h

theorem Coherent.setInode (hd : m.d = (t.inode i).d)
    (hdev : m.iDev = (t.inode i).iDev) (hnum : m.iNum = (t.inode i).iNum)
    (hdirt : m.iDirt = (t.inode i).iDirt) (hpipe : m.iPipe = (t.inode i).iPipe) :
    (t.setInode i m).Coherent stored := by
  have hsame : ∀ j, ((t.setInode i m).inode j).d = (t.inode j).d ∧
      ((t.setInode i m).inode j).iDev = (t.inode j).iDev ∧
      ((t.setInode i m).inode j).iNum = (t.inode j).iNum ∧
      ((t.setInode i m).inode j).iDirt = (t.inode j).iDirt ∧
      ((t.setInode i m).inode j).iPipe = (t.inode j).iPipe := by
    intro j
    by_cases hj : j = i
    · subst hj
      simp [InodeTable.setInode, hd, hdev, hnum, hdirt, hpipe]
    · simp [InodeTable.setInode, hj]
  refine ⟨?_, ?_, ?_, ?_, ?_⟩
  · intro j k hj hjk hn
    rw [(hsame j).2.1] at hj hjk
    rw [(hsame k).2.1] at hjk
    rw [(hsame j).2.2.1, (hsame k).2.2.1] at hn
    exact h.unique j k hj hjk hn
  · intro j hj
    rw [(hsame j).2.1] at hj ⊢
    rw [(hsame j).1, (hsame j).2.2.1]
    exact h.cached j hj
  · intro j hj hclean
    rw [(hsame j).2.1] at hj ⊢
    rw [(hsame j).2.2.2.1] at hclean
    rw [(hsame j).2.2.1]
    exact h.clean j hj hclean
  · intro dev nr hdev' hnone
    refine h.absent dev nr hdev' fun j hj => hnone j ?_
    rw [(hsame j).2.1, (hsame j).2.2.1]
    exact hj
  · intro j
    rw [(hsame j).2.2.2.2]
    exact h.noPipe j

theorem Coherent.clear (hclean : (t.inode i).iDirt = false)
    (hm : m.iDev = 0) (hpipe : m.iPipe = false) : (t.setInode i m).Coherent stored := by
  have hself : (t.setInode i m).inode i = m := by simp [InodeTable.setInode]
  have hother : ∀ j ≠ i, (t.setInode i m).inode j = t.inode j := by
    intro j hj
    simp [InodeTable.setInode, hj]
  have hne : ∀ j, ((t.setInode i m).inode j).iDev ≠ 0 → j ≠ i := by
    intro j hj heq
    rw [heq, hself] at hj
    exact hj hm
  refine ⟨?_, ?_, ?_, ?_, ?_⟩
  · intro j k hj hjk hnum
    have hk := hne k (hjk ▸ hj)
    have hj' := hne j hj
    rw [hother j hj'] at hj hjk hnum
    rw [hother k hk] at hjk hnum
    exact h.unique j k hj hjk hnum
  · intro j hj
    have hji := hne j hj
    rw [hother j hji] at hj ⊢
    exact h.cached j hj
  · intro j hj
    have hji := hne j hj
    rw [hother j hji] at hj ⊢
    exact h.clean j hj
  · intro dev nr hdev hnone
    by_cases hi : (t.inode i).iDev = dev ∧ (t.inode i).iNum = nr
    · obtain ⟨rfl, rfl⟩ := hi
      exact h.clean i hdev hclean
    · refine h.absent dev nr hdev fun j hj => ?_
      by_cases hji : j = i
      · exact hi (hji ▸ hj)
      · exact hnone j ((hother j hji).symm ▸ hj)
  · intro j
    by_cases hji : j = i
    · rw [hji, hself, hpipe]
    · rw [hother j hji]
      exact h.noPipe j

theorem Coherent.getEmptyInode (hempty : t.getEmptyInode = some (t', i)) :
    t'.Coherent stored ∧ t'.inode i = { clearedInode with iCount := 1 } := by
  obtain ⟨j, -, heq⟩ := Option.map_eq_some_iff.mp hempty
  obtain ⟨rfl, rfl⟩ := Prod.mk.inj heq
  have hlast : ({ t with last := j } : InodeTable).Coherent stored :=
    ⟨h.unique, h.cached, h.clean, h.absent, h.noPipe⟩
  refine ⟨(hlast.flush j).clear (flush_dirt _ j) rfl rfl, ?_⟩
  simp [InodeTable.setInode]

/-- An inode comes into an empty slot or changes in its own. -/
theorem Coherent.replace
    (hothers : ∀ j ≠ i, ¬ ((t.inode j).iDev = m.iDev ∧ (t.inode j).iNum = m.iNum))
    (hold : (t.inode i).iDev ≠ 0 → (t.inode i).iDev = m.iDev ∧ (t.inode i).iNum = m.iNum)
    (hnew : m.d = stored' m.iDev m.iNum)
    (hrest : ∀ dev nr, ¬ (dev = m.iDev ∧ nr = m.iNum) → stored' dev nr = stored dev nr)
    (hclean : m.iDirt = false → t.onDisk m.iDev m.iNum = m.d) (hpipe : m.iPipe = false) :
    (t.setInode i m).Coherent stored' := by
  have hself : (t.setInode i m).inode i = m := by simp [InodeTable.setInode]
  have hother : ∀ j ≠ i, (t.setInode i m).inode j = t.inode j := by
    intro j hj
    simp [InodeTable.setInode, hj]
  refine ⟨?_, ?_, ?_, ?_, ?_⟩
  · intro j k hj hjk hnum
    by_cases hji : j = i <;> by_cases hki : k = i
    · rw [hji, hki]
    · subst hji
      rw [hself, hother k hki] at hjk hnum
      exact absurd ⟨hjk.symm, hnum.symm⟩ (hothers k hki)
    · subst hki
      rw [hself, hother j hji] at hjk hnum
      exact absurd ⟨hjk, hnum⟩ (hothers j hji)
    · rw [hother j hji] at hj hjk hnum
      rw [hother k hki] at hjk hnum
      exact h.unique j k hj hjk hnum
  · intro j hj
    by_cases hji : j = i
    · subst hji
      rw [hself]
      exact hnew
    · rw [hother j hji] at hj ⊢
      rw [hrest _ _ (hothers j hji)]
      exact h.cached j hj
  · intro j hj hdirt
    by_cases hji : j = i
    · subst hji
      rw [hself] at hdirt ⊢
      rw [← hnew]
      exact hclean hdirt
    · rw [hother j hji] at hj hdirt ⊢
      rw [hrest _ _ (hothers j hji)]
      exact h.clean j hj hdirt
  · intro dev nr hdev hnone
    have hm' : ¬ (dev = m.iDev ∧ nr = m.iNum) := by
      intro hsame
      refine hnone i ?_
      rw [hself]
      exact ⟨hsame.1.symm, hsame.2.symm⟩
    rw [hrest dev nr hm']
    refine h.absent dev nr hdev fun j hj => ?_
    by_cases hji : j = i
    · subst hji
      obtain ⟨hd, hn⟩ := hold (hj.1.symm ▸ hdev)
      exact hm' ⟨hj.1.symm.trans hd, hj.2.symm.trans hn⟩
    · exact hnone j ((hother j hji).symm ▸ hj)
  · intro j
    by_cases hji : j = i
    · rw [hji, hself, hpipe]
    · rw [hother j hji]
      exact h.noPipe j

theorem Coherent.readInode (hdev : dev ≠ 0)
    (hempty : (t.inode i).iDev = 0) (hnone : t.lookup dev nr = none) :
    ((t.setInode i { t.inode i with iDev := dev, iNum := nr }).readInode i).Coherent stored ∧
      (((t.setInode i { t.inode i with iDev := dev, iNum := nr }).readInode i).inode i).d =
        stored dev nr := by
  have hdisk : t.onDisk dev nr = stored dev nr := h.absent dev nr hdev (not_lookup hnone)
  have hread : (t.setInode i { t.inode i with iDev := dev, iNum := nr }).readInode i =
      t.setInode i { t.inode i with
        d := t.onDisk dev nr, iDev := dev, iNum := nr, iLock := false } := by
    simp [InodeTable.readInode, loadInode, InodeTable.setInode, onDisk, blockOf]
  rw [hread]
  refine ⟨?_, ?_⟩
  · refine h.replace ?_ ?_ ?_ ?_ ?_ ?_
    · exact fun j _ => not_lookup hnone j
    · exact fun hne => absurd hempty hne
    · exact hdisk
    · exact fun _ _ _ => rfl
    · exact fun _ => rfl
    · exact h.noPipe i
  · rw [← hdisk]
    simp [InodeTable.setInode]

theorem Coherent.modify (hdev : (t.inode i).iDev ≠ 0) (d : DInode) :
    (t.setInode i { t.inode i with d, iDirt := true }).Coherent
      (update stored (t.inode i).iDev (update (stored (t.inode i).iDev) (t.inode i).iNum d)) := by
  refine h.replace ?_ ?_ ?_ ?_ ?_ ?_
  · exact fun j hj hsame => hj (h.unique i j hdev hsame.1.symm hsame.2.symm).symm
  · exact fun _ => ⟨rfl, rfl⟩
  · simp
  · intro dev nr hne
    by_cases hd : dev = (t.inode i).iDev
    · subst hd
      rw [update_self, update_of_ne fun hn => hne ⟨rfl, hn⟩]
    · rw [update_of_ne hd]
  · intro hclean
    cases hclean
  · exact h.noPipe i

theorem Coherent.setCount (i : Slot) (n : BitVec 16) :
    (t.setCount i n).Coherent stored := by
  apply h.setInode <;> rfl

theorem Coherent.iput (hput : t.iput i = some t') : t'.Coherent stored := by
  have hput := (Option.ite_none_left_eq_some.mp hput).2
  rw [h.noPipe i, if_neg (by decide)] at hput
  split at hput
  · cases hput
    exact h.setCount i _
  · obtain rfl := Option.some.inj (Option.ite_none_left_eq_some.mp hput).2
    exact (h.flush i).setCount i _

theorem Coherent.syncInodes : t.syncInodes.Coherent stored := by
  rw [InodeTable.syncInodes]
  generalize List.finRange 32 = slots
  induction slots generalizing t with
  | nil => exact h
  | cons i slots ih =>
    rw [List.foldl_cons]
    apply ih
    split
    · exact h
    · exact h.flush i

end

theorem lookup_spec (h : t.lookup dev nr = some i) :
    (t.inode i).iDev = dev ∧ (t.inode i).iNum = nr := by
  simpa using List.find?_some h

theorem iput_empty (hempty : t.inode i = { clearedInode with iCount := 1 }) :
    t.iput i = some (t.setCount i 0) := by
  simp [InodeTable.iput, hempty, clearedInode]

theorem Coherent.iget (h : t.Coherent stored) (higet : t.iget dev nr = some (t', i)) :
    t'.Coherent stored ∧ (t'.inode i).d = stored dev nr ∧ (t'.inode i).iDev = dev ∧
      (t'.inode i).iNum = nr := by
  obtain ⟨hdev, higet⟩ := Option.ite_none_left_eq_some.mp higet
  obtain ⟨⟨t1, empty⟩, hempty, higet⟩ := Option.bind_eq_some_iff.mp higet
  obtain ⟨h1, hslot⟩ := h.getEmptyInode hempty
  have hzero : (t1.inode empty).iDev = 0 := by
    rw [hslot]
    rfl
  dsimp only at higet
  split at higet
  · next j hfound =>
    obtain ⟨hjdev, hjnum⟩ := lookup_spec hfound
    have hne : j ≠ empty := by
      rintro rfl
      exact hdev (hjdev ▸ hzero)
    have hkept : (t1.setCount j ((t1.inode j).iCount + 1)).inode empty =
        { clearedInode with iCount := 1 } := by
      rw [← hslot]
      exact update_of_ne hne.symm _ _
    rw [iput_empty hkept, Option.map_some] at higet
    obtain ⟨rfl, rfl⟩ := Prod.mk.inj (Option.some.inj higet)
    have hfield : ((t1.setCount j ((t1.inode j).iCount + 1)).setCount empty 0).inode j =
        { t1.inode j with iCount := (t1.inode j).iCount + 1 } := by
      simp [InodeTable.setCount, InodeTable.setInode, hne]
    rw [hfield]
    refine ⟨(h1.setCount j _).setCount empty 0, ?_, hjdev, hjnum⟩
    rw [← hjdev, ← hjnum]
    exact h1.cached j (hjdev ▸ hdev)
  · next hnone =>
    obtain ⟨rfl, rfl⟩ := Prod.mk.inj (Option.some.inj higet)
    obtain ⟨hcoh, hfields⟩ := h1.readInode hdev hzero hnone
    refine ⟨hcoh, hfields, ?_, ?_⟩
    · simp [InodeTable.readInode, loadInode, InodeTable.setInode]
    · simp [InodeTable.readInode, loadInode, InodeTable.setInode]

theorem Coherent.foldl_clean (h : t.Coherent stored) (l : List Slot)
    (hi : i ∈ l ∨ (t.inode i).iDirt = false) :
    ((l.foldl (fun t i => if (t.inode i).iPipe then t else t.flush i) t).inode i).iDirt =
    false := by
  induction l generalizing t with
  | nil => exact hi.resolve_left List.not_mem_nil
  | cons j l ih =>
    rw [List.foldl_cons, if_neg (by simp [h.noPipe])]
    refine ih (h.flush j) ?_
    by_cases hij : i = j
    · exact .inr (hij ▸ flush_dirt t i)
    · refine hi.imp (List.mem_of_ne_of_mem hij) fun hd => ?_
      rw [InodeTable.flush]
      split
      · simp [writeInode_inode, hij, hd]
      · exact hd

theorem firstFree_isSome (hfree : (t.inode j).iCount = 0) : t.firstFree.isSome := by
  rw [firstFree, List.find?_isSome]
  refine ⟨j, ?_, by simpa using hfree⟩
  refine List.mem_map.mpr ⟨j - t.last, List.mem_finRange _, ?_⟩
  exact add_sub_cancel t.last j

theorem Coherent.iget_isSome (h : t.Coherent stored) (hdev : dev ≠ 0)
    (nr : BitVec 16) (hfree : (t.inode j).iCount = 0) : ∃ t' i, t.iget dev nr = some (t', i) := by
  obtain ⟨k, hk⟩ := Option.isSome_iff_exists.mp (firstFree_isSome hfree)
  obtain ⟨⟨t1, empty⟩, hempty⟩ : ∃ r, t.getEmptyInode = some r := by
    rw [InodeTable.getEmptyInode, hk]
    exact ⟨_, rfl⟩
  obtain ⟨-, hslot⟩ := h.getEmptyInode hempty
  rw [InodeTable.iget, if_neg hdev, hempty, Option.bind_some]
  dsimp only
  cases hfound : t1.lookup dev nr with
  | none => exact ⟨_, _, rfl⟩
  | some i =>
    have hne : empty ≠ i := by
      rintro rfl
      refine hdev ?_
      rw [← (lookup_spec hfound).1, hslot]
      rfl
    have hkept : (t1.setCount i ((t1.inode i).iCount + 1)).inode empty =
        { clearedInode with iCount := 1 } := by
      rw [← hslot]
      exact update_of_ne hne _ _
    refine ⟨(t1.setCount i ((t1.inode i).iCount + 1)).setCount empty 0, i, ?_⟩
    simp only [iput_empty hkept, Option.map_some]

end InodeTable

/-- The table, and the fields of each inode that were last stored. -/
structure InodeCache where
  table : InodeTable
  stored : BitVec 16 → BitVec 16 → DInode

/-- The calls of `fs/inode.c`, and the change of an inode by a holder. -/
inductive CacheEvent
  | iget (dev nr : BitVec 16)
  | modify (i : Slot) (d : DInode)
  | iput (i : Slot)
  | syncInodes

def cacheStep (c : InodeCache) : CacheEvent → Option InodeCache
  | .iget dev nr => (c.table.iget dev nr).map fun (t, _) => { c with table := t }
  | .modify i d =>
    let m := c.table.inode i
    if m.iCount ≠ 0 ∧ m.iDev ≠ 0 ∧ d.iNlinks ≠ 0 then
      some {
        table := c.table.setInode i { m with d, iDirt := true }
        stored := update c.stored m.iDev (update (c.stored m.iDev) m.iNum d) }
    else none
  | .iput i => (c.table.iput i).map fun t => { c with table := t }
  | .syncInodes => some { c with table := c.table.syncInodes }

def initialCache (imapBlocks zmapBlocks : BitVec 16 → BitVec 16)
    (blocks : BitVec 16 → BitVec 32 → Fin 21 → DInode) : InodeCache :=
  let t := emptyTable imapBlocks zmapBlocks blocks
  ⟨t, t.onDisk⟩

theorem initialCache_coherent (imapBlocks zmapBlocks : BitVec 16 → BitVec 16)
    (blocks : BitVec 16 → BitVec 32 → Fin 21 → DInode) :
    (initialCache imapBlocks zmapBlocks blocks).table.Coherent
      (initialCache imapBlocks zmapBlocks blocks).stored where
  unique _ _ hdev _ _ := absurd rfl hdev
  cached _ hdev := absurd rfl hdev
  clean _ hdev _ := absurd rfl hdev
  absent _ _ _ _ := rfl
  noPipe _ := rfl

theorem cacheStep_coherent {c c' : InodeCache} {e : CacheEvent} (h : c.table.Coherent c.stored)
    (hstep : cacheStep c e = some c') : c'.table.Coherent c'.stored := by
  cases e with
  | iget dev nr =>
    obtain ⟨⟨t, i⟩, higet, rfl⟩ := Option.map_eq_some_iff.mp hstep
    exact (h.iget higet).1
  | modify i d =>
    obtain ⟨⟨-, hdev, -⟩, heq⟩ := Option.ite_none_right_eq_some.mp hstep
    cases heq
    exact h.modify hdev d
  | iput i =>
    obtain ⟨t, hput, rfl⟩ := Option.map_eq_some_iff.mp hstep
    exact h.iput hput
  | syncInodes =>
    cases hstep
    exact h.syncInodes

theorem coherent_of_reaches {imapBlocks zmapBlocks : BitVec 16 → BitVec 16}
    {blocks : BitVec 16 → BitVec 32 → Fin 21 → DInode} {c : InodeCache}
    (hreach : Reaches cacheStep (fun _ _ => True) (initialCache imapBlocks zmapBlocks blocks) c) :
    c.table.Coherent c.stored := by
  refine hreach.invariant (P := fun c => c.table.Coherent c.stored) ?_ ?_
  · intro c e c' h _ hstep
    exact cacheStep_coherent h hstep
  · exact initialCache_coherent imapBlocks zmapBlocks blocks

/-- After any calls `iget` returns the fields last stored, and a write spares other inodes. -/
theorem iget_of_reaches {imapBlocks zmapBlocks : BitVec 16 → BitVec 16}
    {blocks : BitVec 16 → BitVec 32 → Fin 21 → DInode} {c : InodeCache}
    (hreach : Reaches cacheStep (fun _ _ => True) (initialCache imapBlocks zmapBlocks blocks) c) :
    (∀ dev nr, dev ≠ 0 → (∃ j, (c.table.inode j).iCount = 0) →
      ∃ t i, c.table.iget dev nr = some (t, i) ∧ (t.inode i).iDev = dev ∧ (t.inode i).iNum = nr ∧
        (t.inode i).d = c.stored dev nr) ∧
    ∀ i dev nr, ¬ (dev = (c.table.inode i).iDev ∧ nr = (c.table.inode i).iNum) →
      (c.table.writeInode i).onDisk dev nr = c.table.onDisk dev nr := by
  have h := coherent_of_reaches hreach
  refine ⟨?_, fun i dev nr => InodeTable.onDisk_writeInode_of_ne⟩
  intro dev nr hdev ⟨j, hfree⟩
  obtain ⟨t, i, higet⟩ := h.iget_isSome hdev nr hfree
  obtain ⟨-, hfields, hidev, hinum⟩ := h.iget higet
  exact ⟨t, i, higet, hidev, hinum, hfields⟩

def writtenFields : DInode := ⟨0o100644, 0, 512, 0, 0, 1, fun _ => 0⟩

/-- An inode is written and put, another is read, and the table written back. -/
def writtenRun : List CacheEvent :=
  [.iget 0x306 5, .modify 0 writtenFields, .iput 0, .iget 0x306 6, .syncInodes]

def startCache : InodeCache := initialCache (fun _ => 1) (fun _ => 1) fun _ _ _ => clearedInode.d

theorem iget_of_reaches_written :
    ∃ c, Reaches cacheStep (fun _ _ => True) startCache c ∧
      ∃ t i, c.table.iget 0x306 5 = some (t, i) ∧ (t.inode i).d = writtenFields := by
  have hrun : (run cacheStep writtenRun startCache).map
      (fun c => decide ((c.table.inode 2).iCount = 0 ∧ c.stored 0x306 5 = writtenFields)) =
        some true := by
    decide +kernel
  obtain ⟨c, hc, hfacts⟩ := Option.map_eq_some_iff.mp hrun
  obtain ⟨hfree, hstored⟩ := of_decide_eq_true hfacts
  have hreach : Reaches cacheStep (fun _ _ => True) startCache c :=
    reaches_of_run hc
  obtain ⟨t, i, higet, -, -, hfields⟩ :=
    (iget_of_reaches hreach).1 0x306 5 (by decide) ⟨2, hfree⟩
  exact ⟨c, hreach, t, i, higet, hfields.trans hstored⟩

/-- After any calls `sync_inodes` leaves the disk as last stored. -/
theorem syncInodes_durable {imapBlocks zmapBlocks : BitVec 16 → BitVec 16}
    {blocks : BitVec 16 → BitVec 32 → Fin 21 → DInode} {c : InodeCache}
    (hreach : Reaches cacheStep (fun _ _ => True) (initialCache imapBlocks zmapBlocks blocks) c)
    {dev : BitVec 16} (hdev : dev ≠ 0) (nr : BitVec 16) :
    c.table.syncInodes.onDisk dev nr = c.stored dev nr := by
  have h := coherent_of_reaches hreach
  by_cases hin : ∃ i, (c.table.syncInodes.inode i).iDev = dev ∧
    (c.table.syncInodes.inode i).iNum = nr
  · obtain ⟨i, rfl, rfl⟩ := hin
    exact h.syncInodes.clean i hdev (h.foldl_clean _ (.inl (List.mem_finRange i)))
  · exact h.syncInodes.absent dev nr hdev (not_exists.mp hin)

/-- An inode that is in the cache and dirty, and one that has left it. -/
theorem syncInodes_durable_written :
    ∃ c, Reaches cacheStep (fun _ _ => True) startCache c ∧ (c.table.inode 0).iDirt = true ∧
      c.table.onDisk 0x306 6 ≠ writtenFields ∧
      c.table.syncInodes.onDisk 0x306 6 = writtenFields ∧
      c.table.syncInodes.onDisk 0x306 5 = writtenFields := by
  have hrun : (run cacheStep (writtenRun ++ [.modify 0 writtenFields]) startCache).map (fun c =>
      decide ((c.table.inode 0).iDirt = true ∧ c.table.onDisk 0x306 6 ≠ writtenFields ∧
        c.stored 0x306 6 = writtenFields ∧ c.stored 0x306 5 = writtenFields)) = some true := by
    decide +kernel
  obtain ⟨c, hc, hfacts⟩ := Option.map_eq_some_iff.mp hrun
  obtain ⟨hdirt, hdisk, h6, h5⟩ := of_decide_eq_true hfacts
  have hreach : Reaches cacheStep (fun _ _ => True) startCache c := reaches_of_run hc
  exact ⟨c, hreach, hdirt, hdisk, (syncInodes_durable hreach (by decide) 6).trans h6,
    (syncInodes_durable hreach (by decide) 5).trans h5⟩

end Linux001.Fs
