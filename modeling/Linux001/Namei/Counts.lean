import Linux001.Fs.ZoneMap
import Linux001.Namei.Calls

/-! The references to files and inodes: `Takes` says for each function which ones it is given and
which ones it leaves, whatever is on the disk and whichever `bread`s fail. -/

namespace Linux001.Namei

open Function Fs ProofKit

variable {α β : Type} {k k' : Kernel} {cur : TaskNr} {i dir inode : Slot} {l : List Slot}
  {path name : List UInt8} {bh : Option (Nat × Nat)} {k1 : Kernel} {e : Stop} {m : K α}
  {f : α → K β} {c : Prop} {block mode : Nat} {create : Bool} {a : α} {Q : α → Kernel → Prop}
  {out : α → List Slot} {r : Int} {m' : K α} {j : Slot} {flag : Nat}

/-! ### Functions that keep every reference -/

structure SameTables (k k' : Kernel) : Prop where
  file : k'.file = k.file
  task : k'.task = k.task
  sIsup : k'.sIsup = k.sIsup
  sImount : k'.sImount = k.sImount

theorem SameTables.refl (k : Kernel) : SameTables k k := ⟨rfl, rfl, rfl, rfl⟩

theorem SameTables.trans {k2 k3 : Kernel} (h : SameTables k1 k2) (h' : SameTables k2 k3) :
    SameTables k1 k3 :=
  ⟨h'.file.trans h.file, h'.task.trans h.task, h'.sIsup.trans h.sIsup, h'.sImount.trans h.sImount⟩

structure Same (k k' : Kernel) : Prop extends SameTables k k' where
  count : ∀ i, (k'.inode i).iCount = (k.inode i).iCount
  freed : k'.freed = k.freed

theorem Same.refl (k : Kernel) : Same k k := ⟨.refl k, fun _ => rfl, rfl⟩

theorem Same.of_eq (hinode : k'.inode = k.inode) (hfile : k'.file = k.file)
    (htask : k'.task = k.task) (hisup : k'.sIsup = k.sIsup) (himount : k'.sImount = k.sImount)
    (hfreed : k'.freed = k.freed) : Same k k' :=
  ⟨⟨hfile, htask, hisup, himount⟩, fun i => by rw [hinode], hfreed⟩

theorem Same.trans {k2 k3 : Kernel} (h : Same k1 k2) (h' : Same k2 k3) : Same k1 k3 :=
  ⟨h.toSameTables.trans h'.toSameTables, fun i => (h'.count i).trans (h.count i),
    h'.freed.trans h.freed⟩

def Alive (e : Stop) : Prop := e ≠ .killed

def Still (m : K α) : Prop := ∀ k, Meets m k (fun _ k' => Same k k') Alive

namespace Still

theorem pure (a : α) : Still (Pure.pure a) := fun k => .refl k

theorem throw (h : e ≠ .killed) : Still (throw e : K α) := fun _ => h

theorem get : Still get := fun k => .refl k

theorem bind (h : Still m) (hf : ∀ a, Still (f a)) :
    Still (m >>= f) := by
  intro k
  refine (h k).bind fun a k1 h1 => ?_
  exact (hf a k1).imp fun b k2 h2 => h1.trans h2

theorem ite [Decidable c] (h : Still m) (h' : Still m') :
    Still (if c then m else m') := by
  split
  · exact h
  · exact h'

theorem doIf [Decidable c] {m : K Unit} (h : Still m) : Still (doIf c m) :=
  ite h (pure _)

theorem onZones (m : ZoneM α) : Still (onZones m) := by
  intro k
  unfold Meets Fs.onZones
  cases m (OnDevice.zones k) with
  | ok a z => exact .of_eq rfl rfl rfl rfl rfl rfl
  | error p z => exact nofun

theorem modify {f : Kernel → Kernel} (h : ∀ k, Same k (f k)) : Still (modify f) := h

theorem forM {γ : Type} (l : List γ) {f : γ → K PUnit} (h : ∀ x, Still (f x)) :
    Still (l.forM f) := by
  induction l with
  | nil => exact pure _
  | cons x l ih => exact (h x).bind fun _ => ih

end Still

theorem bread_still {b : Nat} : Still (bread b) := by
  intro k
  obtain ⟨failed, k', hfails, hsame⟩ : ∃ failed k', k.readFails = (failed, k') ∧ Same k k' := by
    unfold Kernel.readFails
    split
    · exact ⟨_, _, rfl, .refl k⟩
    · exact ⟨_, _, rfl, .of_eq rfl rfl rfl rfl rfl rfl⟩
  cases failed with
  | true => exact (returns_of_eq (breadOr_failed hfails)).mpr hsame |>.meets
  | false =>
    refine Returns.meets ((returns_of_eq (breadOr_ok hfails)).mpr (hsame.trans ?_))
    exact .of_eq rfl rfl rfl rfl rfl rfl

theorem brelse_still {b : Nat} : Still (brelse b) := .onZones _

theorem modifyBlock_still {b : Nat} {f : Block → Block} : Still (modifyBlock b f) :=
  .modify fun _ => .of_eq rfl rfl rfl rfl rfl rfl

theorem modifyInode_still {f : CoreInode → CoreInode}
    (hf : ∀ m, (f m).iCount = m.iCount) : Still (modifyInode i f) := by
  refine .modify fun k => ⟨⟨rfl, rfl, rfl, rfl⟩, fun j => ?_, rfl⟩
  by_cases hj : j = i
  · subst hj
    show ((update k.inode j (f (k.inode j))) j).iCount = _
    rw [update_self]
    exact hf _
  · show ((update k.inode i (f (k.inode i))) j).iCount = _
    rw [update_of_ne hj]

theorem freeBlock_still : Still (freeBlock block) := .bind .get fun _ => .onZones _

theorem newBlock_still : Still newBlock := .onZones _

theorem inodeSlot_still {n : Nat} : Still (inodeSlot create i n) := by
  refine .bind .get fun k => .ite ?_ (.pure _)
  exact .bind newBlock_still fun _ => .bind (modifyInode_still fun _ => rfl) fun _ => .pure _

theorem blockSlot_still {b n : Nat} : Still (blockSlot create b n) := by
  refine .bind bread_still fun ok => .ite ?_ (.pure _)
  refine .bind .get fun k => .ite ?_ (.bind brelse_still fun _ => .pure _)
  refine .bind newBlock_still fun zone => .ite ?_ (.bind brelse_still fun _ => .pure _)
  exact .bind modifyBlock_still fun _ => .bind brelse_still fun _ => .pure _

theorem bmap'_still : Still (bmap' create i block) := by
  refine .ite (.throw nofun) (.ite inodeSlot_still (.ite ?_ ?_))
  · exact .bind inodeSlot_still fun zone => .ite (.pure _) blockSlot_still
  · refine .bind inodeSlot_still fun zone => .ite (.pure _) ?_
    exact .bind blockSlot_still fun zone => .ite (.pure _) blockSlot_still

theorem freeEntries_still {free : Nat → K Unit} (hfree : ∀ {n}, Still (free n)) :
    Still (freeEntries free block) := by
  unfold freeEntries
  generalize List.range 512 = l
  refine .ite (.pure _) (.bind bread_still fun ok => ?_)
  refine .bind (.doIf ?_) fun _ => freeBlock_still
  refine .bind (.forM l fun i => ?_) fun _ => brelse_still
  exact .bind .get fun k => .doIf hfree

theorem truncate_still : Still (truncate i) := by
  refine .bind .get fun k => .doIf ?_
  refine .bind (.forM (List.range 7) fun n => ?_) fun _ => ?_
  · refine .bind .get fun k => .doIf ?_
    exact .bind freeBlock_still fun _ => modifyInode_still fun _ => rfl
  · refine .bind .get fun k => .bind (freeEntries_still freeBlock_still) fun _ => ?_
    refine .bind .get fun k => .bind (freeEntries_still (freeEntries_still freeBlock_still))
      fun _ => ?_
    exact .bind .get fun k => modifyInode_still fun _ => rfl

theorem withInodeBlock_still {f : Kernel → Kernel} (hf : ∀ k, Same k (f k)) :
    Still (withInodeBlock i f) := by
  refine .bind .get fun k => .ite (.throw nofun) ?_
  refine .bind bread_still fun ok => .ite ?_ (.throw nofun)
  exact .bind (.modify hf) fun _ => brelse_still

theorem same_setInode {m : CoreInode} (h : m.iCount = (k.inode i).iCount) :
    Same k (k.setInode i m) := by
  refine ⟨⟨rfl, rfl, rfl, rfl⟩, fun j => ?_, rfl⟩
  show ((update k.inode i m) j).iCount = _
  by_cases hj : j = i
  · subst hj
    rw [update_self]
    exact h
  · rw [update_of_ne hj]

theorem flush_still : Still (flush i) := by
  refine .bind .get fun k => .doIf (withInodeBlock_still fun k => ?_)
  have h : Same k (k.setInode i { k.inode i with iDirt := false }) := same_setInode rfl
  exact ⟨⟨rfl, rfl, rfl, rfl⟩, h.count, rfl⟩

theorem readInode_still : Still (readInode i) := by
  refine withInodeBlock_still fun k => ?_
  exact same_setInode (m := (k.inode i).load (k.dinode (k.inode i).iNum)) rfl

/-! ### Functions that take and give references -/

/-- The count of each inode is `b`, for the tables, and those in `l`. -/
structure Held (b : Slot → Nat) (k : Kernel) (l : List Slot) : Prop where
  count : ∀ i, (k.inode i).iCount = b i + l.count i
  freed : ∀ i ∈ k.freed, (k.inode i).iCount = 0

variable {b : Slot → Nat}

theorem Held.same (h : Held b k l) (hs : Same k k') : Held b k' l where
  count i := (hs.count i).trans (h.count i)
  freed := by
    rw [hs.freed]
    intro i hi
    rw [hs.count]
    exact h.freed i hi

theorem Held.swap (h : Held b k (i :: j :: l)) : Held b k (j :: i :: l) := by
  refine ⟨fun n => ?_, h.freed⟩
  rw [h.count n, (List.Perm.swap i j l).count_eq]

/-- The function is given the references `l`, and leaves those that `out` says. -/
def Takes (m : K α) (l : List Slot) (out : α → List Slot) : Prop :=
  ∀ b k, Held b k l → Meets m k (fun a k' => Held b k' (out a) ∧ SameTables k k') Alive

namespace Takes

variable {out : α → List Slot} {out' : β → List Slot}

theorem of_still (h : Still m) : Takes m l fun _ => l :=
  fun _ k hk => (h k).imp fun _ _ hs => ⟨hk.same hs, hs.toSameTables⟩

theorem pure (h : out a = l) : Takes (Pure.pure a) l out :=
  fun _ k hk => ⟨h ▸ hk, .refl k⟩

theorem throw (h : e ≠ .killed) : Takes (throw e : K α) l out := fun _ _ _ => h

theorem bind (h : Takes m l out) (hf : ∀ a, Takes (f a) (out a) out') :
    Takes (m >>= f) l out' := by
  intro b k hk
  refine (h b k hk).bind fun a k1 h1 => ?_
  exact (hf a b k1 h1.1).imp fun _ k2 h2 => ⟨h2.1, h1.2.trans h2.2⟩

theorem still (h : Still m) (hf : ∀ a, Takes (f a) l out') :
    Takes (m >>= f) l out' := bind (of_still h) hf

theorem get {f : Kernel → K β} (hf : ∀ k, Takes (f k) l out') : Takes (get >>= f) l out' :=
  still .get hf

theorem edit {f : CoreInode → CoreInode} {g : Unit → K β} (hf : ∀ m, (f m).iCount = m.iCount)
    (h : Takes (g ⟨⟩) l out') : Takes (modifyInode i f >>= g) l out' :=
  .still (modifyInode_still hf) fun _ => h

theorem ite [Decidable c] (h : Takes m l out) (h' : Takes m' l out) :
    Takes (if c then m else m') l out := by
  split
  · exact h
  · exact h'

theorem swap (h : Takes m (i :: j :: l) out) :
    Takes m (j :: i :: l) out := fun b k hk => h b k hk.swap

end Takes

structure Drops (k : Kernel) (i : Slot) (k' : Kernel) : Prop extends SameTables k k' where
  pos : (k.inode i).iCount ≠ 0
  count : ∀ j, (k'.inode j).iCount = (k.inode j).iCount - if j = i then 1 else 0
  freed : ∀ j ∈ k'.freed, j ∈ k.freed ∨ (k'.inode j).iCount = 0

theorem drops_setInode {m : CoreInode} (hpos : (k.inode i).iCount ≠ 0)
    (h : m.iCount = (k.inode i).iCount - 1) : Drops k i (k.setInode i m) := by
  refine ⟨⟨rfl, rfl, rfl, rfl⟩, hpos, fun j => ?_, fun _ => .inl⟩
  show ((update k.inode i m) j).iCount = _
  by_cases hj : j = i
  · subst hj
    rw [update_self, if_pos rfl, h]
  · rw [update_of_ne hj, if_neg hj]
    rfl

theorem Drops.of_same (hs : Same k k1) (h : Drops k1 i k') : Drops k i k' where
  toSameTables := hs.toSameTables.trans h.toSameTables
  pos := by
    rw [← hs.count]
    exact h.pos
  count j := by rw [h.count, hs.count]
  freed := by
    rw [← hs.freed]
    exact h.freed

theorem freeInode_drops (hone : (k.inode i).iCount = 1) :
    Meets (freeInode i) k (fun _ k' => Drops k i k') Alive := by
  have hdrop : Drops k i (k.setInode i cleared) :=
    drops_setInode (by omega) (by rw [hone]; rfl)
  refine (meets_get (Q := fun a t => a = k ∧ t = k) ⟨rfl, rfl⟩).bind ?_
  rintro _ _ ⟨rfl, rfl⟩
  dsimp only
  split
  · exact hdrop
  split
  · exact nofun
  split
  · exact nofun
  split
  · exact nofun
  split
  · exact nofun
  · split
    · exact nofun
    · split
      · exact nofun
      · exact ⟨⟨rfl, rfl, rfl, rfl⟩, hdrop.pos, hdrop.count, fun _ => .inl⟩

theorem meets_get_bind {f : Kernel → K α} {E : Stop → Prop}
    (h : Meets (f k) k Q E) : Meets (get >>= f) k Q E := h

theorem freeUnlinked_drops (hone : (k.inode i).iCount = 1) :
    Meets (freeUnlinked i) k (fun _ k' => Drops k i k') Alive := by
  refine (truncate_still k).bind fun _ k1 hs => ?_
  have hone1 : (k1.inode i).iCount = 1 := (hs.count i).trans hone
  refine (freeInode_drops hone1).bind fun _ k2 hdrop => ?_
  have hdrop : Drops k i k2 := .of_same hs hdrop
  refine ⟨⟨hdrop.file, hdrop.task, hdrop.sIsup, hdrop.sImount⟩, hdrop.pos, hdrop.count, ?_⟩
  intro j hj
  rcases List.mem_cons.mp hj with rfl | hj
  · right
    rw [hdrop.count, if_pos rfl, hone]
  · exact hdrop.freed j hj

theorem iput_drops (k : Kernel) (i : Slot) :
    Meets (iput i) k (fun _ k' => Drops k i k') Alive := by
  refine meets_get_bind ?_
  dsimp only
  split
  · exact nofun
  rename_i hpos
  split
  · split
    · exact drops_setInode hpos rfl
    · next hone => exact drops_setInode hpos (by show 0 = _; omega)
  split
  · exact drops_setInode hpos rfl
  rename_i hlast
  have hone : (k.inode i).iCount = 1 := by
    omega
  split
  · exact freeUnlinked_drops hone
  · refine (flush_still k).bind fun _ k1 hs => ?_
    exact .of_same hs (drops_setInode (by rw [hs.count]; exact hpos) rfl)

theorem Held.drops (h : Held b k (i :: l)) (hd : Drops k i k') : Held b k' l where
  count j := by
    rw [hd.count, h.count, List.count_cons]
    by_cases hj : j = i
    · subst hj
      rw [if_pos rfl, if_pos (beq_self_eq_true j), ← Nat.add_assoc, Nat.add_sub_cancel]
    · rw [if_neg hj, if_neg (by simpa using Ne.symm hj), Nat.add_zero, Nat.sub_zero]
  freed j hj := by
    rcases hd.freed j hj with hold | hzero
    · rw [hd.count, h.freed j hold, Nat.zero_sub]
    · exact hzero

theorem iput_takes : Takes (iput i) (i :: l) fun _ => l :=
  fun _ k hk => (iput_drops k i).imp fun _ _ hd => ⟨hk.drops hd, hd.toSameTables⟩

theorem Held.setInode {m : CoreInode} (h : Held b k l) (hfreed : i ∉ k.freed)
    (hm : m.iCount = (k.inode i).iCount + 1) : Held b (k.setInode i m) (i :: l) := by
  have hinode : ∀ j, j ≠ i → (k.setInode i m).inode j = k.inode j :=
    fun j hj => update_of_ne hj _ _
  have hself : (k.setInode i m).inode i = m := update_self _ _ _
  refine ⟨fun j => ?_, fun j hj => ?_⟩
  · rw [List.count_cons]
    by_cases hj : j = i
    · subst hj
      rw [hself, hm, h.count, if_pos (beq_self_eq_true j), Nat.add_assoc]
    · rw [hinode j hj, h.count, if_neg (by simpa using Ne.symm hj), Nat.add_zero]
  · have hne : j ≠ i := fun heq => hfreed (heq ▸ hj)
    rw [hinode j hne]
    exact h.freed j hj

theorem Held.take (h : Held b k l) (i : Slot) :
    Held b { k with freed := k.freed.filter (· ≠ i) } l ∧
      i ∉ ({ k with freed := k.freed.filter (· ≠ i) } : Kernel).freed := by
  refine ⟨⟨h.count, fun j hj => h.freed j (List.mem_filter.mp hj).1⟩, fun hi => ?_⟩
  have := (List.mem_filter.mp hi).2
  simp at this

theorem igrab_takes : Takes (igrab i) l fun _ => i :: l := by
  intro b k hk
  obtain ⟨hk, hfreed⟩ := hk.take i
  exact ⟨hk.setInode hfreed rfl, ⟨rfl, rfl, rfl, rfl⟩⟩

theorem getEmptyInode_meets (hk : Held b k l) :
    Meets getEmptyInode k (fun i k' => (Held b k' (i :: l) ∧ SameTables k k') ∧
      (k'.inode i).iCount = 1) Alive := by
  refine meets_get_bind ?_
  cases hfree : k.firstFree with
  | none => exact nofun
  | some i =>
    have hzero : (k.inode i).iCount = 0 := by
      have := List.find?_some hfree
      simpa using this
    obtain ⟨hk, hfreed⟩ := hk.take i
    refine (meets_modify (Q := fun _ t => t =
      { k with last := i, freed := k.freed.filter (· ≠ i) }) rfl).bind ?_
    rintro - _ rfl
    refine (flush_still _).bind fun _ k1 hs => ?_
    have hheld : Held b k1 l := Held.same (k := { k with freed := k.freed.filter (· ≠ i) }) hk
      ⟨⟨hs.file, hs.task, hs.sIsup, hs.sImount⟩, hs.count, hs.freed⟩
    have hfreed1 : i ∉ k1.freed := by
      rw [hs.freed]
      exact hfreed
    refine (meets_modify (Q := fun _ t => t = k1.setInode i { cleared with iCount := 1 })
      rfl).bind ?_
    rintro - _ rfl
    refine ⟨⟨hheld.setInode hfreed1 ?_, hs.file, hs.task, hs.sIsup, hs.sImount⟩, ?_⟩
    · rw [hs.count, hzero]
    · show ((update k1.inode i _) i).iCount = 1
      rw [update_self]

theorem getEmptyInode_takes : Takes getEmptyInode l fun i => i :: l :=
  fun _ _ hk => (getEmptyInode_meets hk).imp fun _ _ h => h.1

theorem iget_takes {dev nr : Nat} : Takes (iget dev nr) l fun i => i :: l := by
  refine .ite (.throw nofun) (.bind getEmptyInode_takes fun empty => .get fun k => ?_)
  split
  · next i _ =>
    refine .bind igrab_takes fun _ => .bind (.swap iput_takes) fun _ => .pure rfl
  · refine .edit (fun _ => rfl) ?_
    exact .still readInode_still fun _ => .pure rfl

def orNull (l : List Slot) : Option Slot → List Slot
  | none => l
  | some i => i :: l

theorem newInode_takes {dev : Nat} : Takes (newInode dev) l (orNull l) := by
  intro b k hk
  refine (getEmptyInode_meets hk).bind fun i k1 ⟨⟨hheld, hsame⟩, hone⟩ => ?_
  have hgive : Meets (do iput i; pure none) k1
      (fun a k' => Held b k' (orNull l a) ∧ SameTables k k') Alive := by
    refine (iput_takes b k1 hheld).bind fun _ k2 ⟨h2, hsame2⟩ => ?_
    exact ⟨h2, hsame.trans hsame2⟩
  refine meets_get_bind ?_
  split
  · exact nofun
  split
  · exact hgive
  split
  · exact hgive
  dsimp only
  split
  · exact nofun
  · next b j p _ _ _ =>
    refine ⟨?_, hsame.trans ⟨rfl, rfl, rfl, rfl⟩⟩
    refine (hheld.same ?_).same (same_setInode (i := i) ?_)
    · exact .of_eq rfl rfl rfl rfl rfl rfl
    · exact hone.symm

theorem getPipeInode_meets (hk : Held b k l) (page : Option Nat) :
    Meets (getPipeInode page) k (fun a k' => SameTables k k' ∧
      match a with
      | none => Held b k' l
      | some i => Held b k' (i :: i :: l)) Alive := by
  refine (getEmptyInode_meets hk).bind fun i k1 ⟨⟨hheld, hsame⟩, hone⟩ => ?_
  have hfreed : i ∉ k1.freed := fun hi => by
    rw [hheld.freed i hi] at hone
    cases hone
  cases page with
  | none =>
    have hd : Drops k1 i (k1.setInode i { k1.inode i with iCount := 0 }) :=
      drops_setInode (by omega) (by rw [hone])
    exact ⟨hsame.trans hd.toSameTables, hheld.drops hd⟩
  | some p => exact ⟨hsame.trans ⟨rfl, rfl, rfl, rfl⟩, hheld.setInode hfreed (by rw [hone])⟩

/-! ### Directories -/

theorem current_still : Still (current cur) := by
  refine .bind .get fun k => ?_
  split
  · exact .throw nofun
  · exact .pure _

theorem mayAccess_still {mask : Nat} : Still (mayAccess cur i mask) :=
  .bind current_still fun _ => .bind .get fun _ => .pure _

theorem dropLink_still : Still (dropLink i) := modifyInode_still fun _ => rfl

theorem stray_still : Still stray := by
  intro k
  refine meets_get_bind ?_
  split
  · exact .refl k
  · exact .of_eq rfl rfl rfl rfl rfl rfl

theorem brelseAny_still : Still (brelseAny bh) := by
  cases bh with
  | none => exact .pure _
  | some p => exact brelse_still

theorem findNext_still {i : Nat} : Still (findNext dir i) := by
  refine .bind bmap'_still fun block => .ite (.pure _) ?_
  exact .bind bread_still fun ok => .ite (.pure _) (.pure _)

theorem findPointer_still {i : Nat} : Still (findPointer dir i bh) := by
  cases bh with
  | none =>
    refine .bind stray_still fun s => ?_
    cases s with
    | past => exact findNext_still
    | miss => exact .pure _
    | hit block dinode => exact .pure _
  | some p =>
    refine .ite (.pure _) ?_
    exact .bind brelse_still fun _ => findNext_still

theorem findLoop_still {entries fuel i : Nat} :
    Still (findLoop dir name entries fuel i bh) := by
  induction fuel generalizing i bh with
  | zero => exact .bind brelseAny_still fun _ => .pure _
  | succ fuel ih =>
    refine .ite (.bind brelseAny_still fun _ => .pure _) ?_
    refine .bind findPointer_still fun p => ?_
    cases p with
    | entry b e => exact .bind .get fun k => .ite (.pure _) ih
    | lost => exact ih
    | stray s =>
      cases s with
      | past | miss => exact ih
      | hit block dinode => exact .pure _

theorem findEntry_still : Still (findEntry dir name) := by
  refine .bind .get fun k => .ite (.pure _) ?_
  exact .bind bread_still fun ok => .ite findLoop_still (.pure _)

theorem addNext_still {i : Nat} : Still (addNext dir i) := by
  refine .bind bmap'_still fun block => .ite (.pure _) ?_
  exact .bind bread_still fun ok => .ite (.pure _) (.pure _)

theorem addPointer_still {i : Nat} : Still (addPointer dir i bh) := by
  cases bh with
  | none =>
    refine .bind stray_still fun s => ?_
    cases s with
    | past => exact addNext_still
    | miss => exact .pure _
    | hit block dinode => exact .pure _
  | some p =>
    refine .ite (.pure _) ?_
    exact .bind brelse_still fun _ => addNext_still

theorem extend_still {i : Nat} : Still (extend dir i) := modifyInode_still fun _ => rfl

theorem touch_still : Still (touch dir) :=
  .bind .get fun _ => modifyInode_still fun _ => rfl

theorem place_still {i b e : Nat} : Still (place dir name i b e) := by
  refine .bind .get fun k => .bind (.doIf ?_) fun _ => .bind .get fun k => .ite ?_ (.pure _)
  · exact .bind modifyBlock_still fun _ => extend_still
  · exact .bind touch_still fun _ => .bind modifyBlock_still fun _ => .pure _

theorem placeStray_still {i : Nat} (s : Stray) : Still (placeStray dir i s) := by
  refine .bind .get fun k => .bind (.doIf extend_still) fun _ => ?_
  cases s with
  | past | miss => exact .bind (.doIf touch_still) fun _ => .pure _
  | hit block dinode =>
    refine .bind touch_still fun _ => .bind (.modify fun k => ?_) fun _ => .pure _
    exact .of_eq rfl rfl rfl rfl rfl rfl

theorem addLoop_still {fuel i : Nat} : Still (addLoop dir name fuel i bh) := by
  induction fuel generalizing i bh with
  | zero => exact .throw nofun
  | succ fuel ih =>
    refine .bind addPointer_still fun p => ?_
    match p with
    | none => exact .pure _
    | some (.entry b e) => exact .bind place_still fun _ => .ite (.pure _) ih
    | some .lost => exact ih
    | some (.stray s) => exact .bind (placeStray_still s) fun _ => .ite (.pure _) ih

theorem addEntry_still : Still (addEntry dir name) := by
  refine .bind .get fun k => .ite (.pure _) ?_
  exact .bind bread_still fun ok => .ite addLoop_still (.pure _)

theorem fillEntry_still {b e n : Nat} : Still (fillEntry b e n) := modifyBlock_still

theorem emptyLoop_still {len fuel nr b e : Nat} : Still (emptyLoop inode len fuel nr b e) := by
  induction fuel generalizing nr b e with
  | zero => exact .bind brelse_still fun _ => .pure _
  | succ fuel ih =>
    refine .ite (.bind brelse_still fun _ => .pure _) (.ite ?_ ?_)
    · exact .bind .get fun k => .ite (.bind brelse_still fun _ => .pure _) ih
    · refine .bind brelse_still fun _ => .bind bmap'_still fun block => ?_
      refine .ite ih (.bind bread_still fun ok => .ite ?_ (.pure _))
      exact .bind .get fun k => .ite (.bind brelse_still fun _ => .pure _) ih

theorem emptyDir_still : Still (emptyDir inode) := by
  refine .bind .get fun k => .ite (.pure _) (.bind bread_still fun ok => .ite ?_ (.pure _))
  exact .bind .get fun k => .ite emptyLoop_still (.pure _)

/-! ### Paths -/

theorem enter_takes {b e : Nat} : Takes (enter dir b e) (dir :: l) fun i => i :: l := by
  refine .get fun k => .still brelse_still fun _ => ?_
  exact .bind iput_takes fun _ => iget_takes

theorem iput_none_takes (h : out a = l) :
    Takes (do iput i; pure a) (i :: l) out :=
  .bind iput_takes fun _ => .pure h

theorem walk_takes {names : List (List UInt8)} :
    Takes (walk cur true names i) (i :: l) (orNull l) := by
  induction names generalizing i with
  | nil =>
    refine .get fun k => .still mayAccess_still fun _ => ?_
    exact .ite (iput_none_takes rfl) (.pure rfl)
  | cons name names ih =>
    refine .get fun k => .still mayAccess_still fun _ => ?_
    refine .ite (iput_none_takes rfl) (.still findEntry_still fun found => ?_)
    cases found with
    | none => exact iput_none_takes rfl
    | some p => exact .bind enter_takes fun j => ih

theorem walkFrom_takes (hpath : Terminated path) :
    Takes (walkFrom cur path i) l (orNull l) := by
  unfold walkFrom
  rw [hpath]
  exact .bind igrab_takes fun _ => walk_takes

theorem Terminated.tail (h : Terminated (47 :: path)) : Terminated path := by
  unfold Terminated at h ⊢
  exact h

theorem getDir_takes (hpath : Terminated path) : Takes (getDir cur path) l (orNull l) := by
  refine .still current_still fun t => .get fun k => ?_
  cases t.root with
  | none => exact .throw nofun
  | some root =>
    refine .ite (.throw nofun) ?_
    cases t.pwd with
    | none => exact .throw nofun
    | some pwd =>
      refine .ite (.throw nofun) ?_
      cases path with
      | nil => cases hpath
      | cons c rest =>
        dsimp only
        split
        · next hc =>
          subst hc
          exact walkFrom_takes hpath.tail
        · exact .ite (walkFrom_takes hpath) (.pure rfl)

theorem dirNamei_takes (hpath : Terminated path) :
    Takes (dirNamei cur path) l fun a => orNull l (a.map Prod.fst) := by
  refine .bind (getDir_takes hpath) fun dir => ?_
  cases dir with
  | none => exact .pure rfl
  | some dir =>
    obtain ⟨name, hname⟩ := Option.isSome_iff_exists.mp hpath
    rw [hname]
    exact .pure rfl

theorem namei_takes (hpath : Terminated path) : Takes (namei cur path) l (orNull l) := by
  refine .bind (dirNamei_takes hpath) fun found => ?_
  match found with
  | none => exact .pure rfl
  | some (dir, name) =>
    refine .ite (.pure rfl) (.still findEntry_still fun found => ?_)
    match found with
    | none => exact iput_none_takes rfl
    | some (b, e) =>
      refine .bind enter_takes fun i => ?_
      exact .edit (fun _ => rfl) (.pure rfl)

def orError (l : List Slot) : Except Int Slot → List Slot
  | .error _ => l
  | .ok i => i :: l

theorem openNew_takes :
    Takes (openNew cur flag mode dir name) (dir :: l) (orError l) := by
  refine .ite (iput_none_takes rfl) (.still mayAccess_still fun _ => ?_)
  refine .ite (iput_none_takes rfl) (.get fun k => ?_)
  refine .bind newInode_takes fun new => ?_
  cases new with
  | none => exact iput_none_takes rfl
  | some inode =>
    refine .edit (fun _ => rfl) ?_
    refine .still addEntry_still fun found => ?_
    match found with
    | none =>
      refine .still dropLink_still fun _ => ?_
      exact .bind iput_takes fun _ => iput_none_takes rfl
    | some (b, e) =>
      refine .get fun k => .still fillEntry_still fun _ => ?_
      refine .still brelse_still fun _ => ?_
      exact .bind (.swap iput_takes) fun _ => .pure rfl

theorem openOld_takes {b e : Nat} :
    Takes (openOld cur flag dir b e) (dir :: l) (orError l) := by
  refine .get fun k => .still brelse_still fun _ => .bind iput_takes fun _ => ?_
  refine .ite (.pure rfl) (.bind iget_takes fun inode => .get fun k => ?_)
  refine .still mayAccess_still fun _ => .ite (iput_none_takes rfl) ?_
  exact .still (.doIf truncate_still) fun _ => .pure rfl

theorem openNamei_takes (hpath : Terminated path) :
    Takes (openNamei cur path flag mode) l (orError l) := by
  refine .still current_still fun t => .bind (dirNamei_takes hpath) fun found => ?_
  match found with
  | none => exact .pure rfl
  | some (dir, name) =>
    refine .ite (.ite (.pure rfl) (iput_none_takes rfl)) ?_
    refine .still findEntry_still fun found => ?_
    match found with
    | none => exact openNew_takes
    | some (b, e) => exact openOld_takes

/-! ### The calls of `fs/namei.c` -/

theorem iput_iput_takes (h : out a = l) :
    Takes (do iput i; iput j; pure a) (i :: j :: l) out :=
  .bind iput_takes fun _ => iput_none_takes h

theorem mkdirName_takes :
    Takes (mkdirName cur mode dir inode name) (dir :: inode :: l) fun _ => l := by
  refine .still current_still fun t => ?_
  refine .edit (fun _ => rfl) ?_
  refine .still addEntry_still fun found => ?_
  match found with
  | none =>
    refine .bind iput_takes fun _ => .get fun k => .still freeBlock_still fun _ => ?_
    exact .edit (fun _ => rfl) (iput_none_takes rfl)
  | some (b, e) =>
    refine .get fun k => .still fillEntry_still fun _ => ?_
    refine .edit (fun _ => rfl) ?_
    refine .bind iput_takes fun _ => .bind iput_takes fun _ => ?_
    exact .still brelse_still fun _ => .pure rfl

theorem mkdirNew_takes :
    Takes (mkdirNew cur mode dir inode name) (dir :: inode :: l) fun _ => l := by
  refine .get fun k => .edit (fun _ => rfl) ?_
  refine .still newBlock_still fun zone => ?_
  refine .edit (fun _ => rfl) (.ite ?_ ?_)
  · refine .bind iput_takes fun _ => .still dropLink_still fun _ => ?_
    exact iput_none_takes rfl
  refine .edit (fun _ => rfl) ?_
  refine .still bread_still fun ok => .ite ?_ ?_
  · refine .get fun k => .still modifyBlock_still fun _ => ?_
    refine .edit (fun _ => rfl) ?_
    exact .still brelse_still fun _ => mkdirName_takes
  · refine .bind iput_takes fun _ => .still freeBlock_still fun _ => ?_
    exact .still dropLink_still fun _ => iput_none_takes rfl

theorem sysMkdir_takes (hpath : Terminated path) :
    Takes (sysMkdir cur path mode) l fun _ => l := by
  refine .still current_still fun t => .ite (.pure rfl) ?_
  refine .bind (dirNamei_takes hpath) fun found => ?_
  match found with
  | none => exact .pure rfl
  | some (dir, name) =>
    refine .ite (iput_none_takes rfl) (.still mayAccess_still fun _ => ?_)
    refine .ite (iput_none_takes rfl) (.still findEntry_still fun found => ?_)
    match found with
    | some (b, _) => exact .still brelse_still fun _ => iput_none_takes rfl
    | none =>
      refine .get fun k => .bind newInode_takes fun new => ?_
      cases new with
      | none => exact iput_none_takes rfl
      | some inode => exact .swap mkdirNew_takes

theorem giveUp_takes {b : Nat} :
    Takes (do giveUp dir inode b; pure r) (inode :: dir :: l) fun _ => l := by
  have hgive : Takes (giveUp dir inode b) (inode :: dir :: l) fun _ => l := by
    refine .bind iput_takes fun _ => .bind iput_takes fun _ => ?_
    exact .of_still brelse_still
  exact .bind hgive fun _ => .pure rfl

theorem rmdirFound_takes {b e : Nat} :
    Takes (rmdirFound dir inode b e) (inode :: dir :: l) fun _ => l := by
  refine .ite giveUp_takes (.get fun k => .ite giveUp_takes ?_)
  refine .still emptyDir_still fun empty => .ite giveUp_takes ?_
  refine .still fillEntry_still fun _ => .still brelse_still fun _ => ?_
  refine .still (.modify fun k => .of_eq rfl rfl rfl rfl rfl rfl) fun _ => ?_
  refine .edit (fun _ => rfl) (.get fun k => ?_)
  refine .edit (fun _ => rfl) ?_
  exact .swap (iput_iput_takes rfl)

theorem sysRmdir_takes (hpath : Terminated path) : Takes (sysRmdir cur path) l fun _ => l := by
  refine .still current_still fun t => .ite (.pure rfl) ?_
  refine .bind (dirNamei_takes hpath) fun found => ?_
  match found with
  | none => exact .pure rfl
  | some (dir, name) =>
    refine .ite (iput_none_takes rfl) (.still findEntry_still fun found => ?_)
    match found with
    | none => exact iput_none_takes rfl
    | some (b, e) =>
      refine .still mayAccess_still fun _ => .ite ?_ (.get fun k => ?_)
      · refine .bind iput_takes fun _ => .still brelse_still fun _ => .pure rfl
      · exact .bind iget_takes fun inode => rmdirFound_takes

theorem unlinkFound_takes {b e : Nat} :
    Takes (unlinkFound dir inode b e) (inode :: dir :: l) fun _ => l := by
  refine .get fun k => .ite giveUp_takes ?_
  refine .edit (fun _ => rfl) ?_
  refine .still fillEntry_still fun _ => .still brelse_still fun _ => ?_
  refine .still dropLink_still fun _ => ?_
  exact .edit (fun _ => rfl) (iput_iput_takes rfl)

theorem sysUnlink_takes (hpath : Terminated path) : Takes (sysUnlink cur path) l fun _ => l := by
  refine .bind (dirNamei_takes hpath) fun found => ?_
  match found with
  | none => exact .pure rfl
  | some (dir, name) =>
    refine .ite (iput_none_takes rfl) (.still mayAccess_still fun _ => ?_)
    refine .ite (iput_none_takes rfl) (.still findEntry_still fun found => ?_)
    match found with
    | none => exact iput_none_takes rfl
    | some (b, e) =>
      refine .get fun k => .bind iget_takes fun inode => ?_
      exact unlinkFound_takes

theorem linkIn_takes {old : Slot} :
    Takes (linkIn cur old dir name) (dir :: old :: l) fun _ => l := by
  refine .get fun k => .ite (iput_iput_takes rfl) ?_
  refine .still mayAccess_still fun _ => .ite (iput_iput_takes rfl) ?_
  refine .still findEntry_still fun found => ?_
  match found with
  | some (b, _) => exact .still brelse_still fun _ => iput_iput_takes rfl
  | none =>
    refine .still addEntry_still fun added => ?_
    match added with
    | none => exact iput_iput_takes rfl
    | some (b, e) =>
      refine .get fun k => .still fillEntry_still fun _ => ?_
      refine .still brelse_still fun _ => .bind iput_takes fun _ => ?_
      exact .edit (fun _ => rfl) (iput_none_takes rfl)

theorem sysLink_takes {oldname newname : List UInt8} (hold : Terminated oldname)
    (hnew : Terminated newname) : Takes (sysLink cur oldname newname) l fun _ => l := by
  refine .bind (namei_takes hold) fun found => ?_
  cases found with
  | none => exact .pure rfl
  | some old =>
    refine .get fun k => .ite (iput_none_takes rfl) ?_
    refine .bind (dirNamei_takes hnew) fun found => ?_
    match found with
    | none => exact iput_none_takes rfl
    | some (dir, name) =>
      exact .ite (.swap (iput_iput_takes rfl)) linkIn_takes

/-! ### The other calls that only use an inode -/

section
variable (hpath : Terminated path)
include hpath

theorem namei_bind_takes {f : Option Slot → K Int}
    (hnone : f none = pure r) (hsome : ∀ i, Takes (f (some i)) (i :: l) fun _ => l) :
    Takes (namei cur path >>= f) l fun _ => l := by
  refine .bind (namei_takes hpath) fun found => ?_
  cases found with
  | none =>
    rw [hnone]
    exact .pure rfl
  | some i => exact hsome i

theorem sysUtime_takes {times : Option (Option Nat)}
    (htimes : times ≠ some none) : Takes (sysUtime cur path times) l fun _ => l := by
  refine namei_bind_takes hpath rfl fun i => ?_
  refine .get fun k => ?_
  have hstore : ∀ modtime, Takes (do
      modifyInode i fun m => { m with iMtime := modtime, iDirt := true }
      iput i
      pure 0) (i :: l) fun _ : Int => l := fun modtime =>
    .edit (fun _ => rfl) (iput_none_takes rfl)
  match times with
  | none => exact hstore _
  | some none => exact (htimes rfl).elim
  | some (some t) => exact hstore t

theorem sysAccess_takes :
    Takes (sysAccess cur path mode) l fun _ => l := by
  refine namei_bind_takes hpath rfl fun i => ?_
  refine .get fun k => ?_
  refine .bind iput_takes fun _ => .still current_still fun t => .get fun k => ?_
  exact .ite (.pure rfl) (.pure rfl)

theorem sysChmod_takes :
    Takes (sysChmod cur path mode) l fun _ => l := by
  refine namei_bind_takes hpath rfl fun i => ?_
  refine .still current_still fun t => .get fun k => .ite (iput_none_takes rfl) ?_
  exact .edit (fun _ => rfl) (iput_none_takes rfl)

theorem sysChown_takes {uid gid : Nat} :
    Takes (sysChown cur path uid gid) l fun _ => l := by
  refine namei_bind_takes hpath rfl fun i => ?_
  refine .still current_still fun t => .ite (iput_none_takes rfl) ?_
  exact .edit (fun _ => rfl) (iput_none_takes rfl)

theorem sysStat_takes : Takes (sysStat cur path true) l fun _ => l := by
  refine namei_bind_takes hpath rfl fun i => ?_
  exact iput_none_takes rfl

end

end Linux001.Namei
