import Linux001.ProofKit.Runs

/-! The table of in-core inodes of `fs/inode.c`, used by any number of processes. A process runs
alone until it sleeps on an inode or in `bread`. -/

namespace Linux001.Fs

open Function ProofKit

structure DInode where
  (iMode iUid : BitVec 16)
  (iSize iTime : BitVec 64)
  (iGid iNlinks : BitVec 8)
  iZone : Fin 9 → BitVec 16
  deriving DecidableEq

/-- `struct m_inode`, without what is not used here. -/
structure MInode where
  d : DInode
  (iDev iNum iCount : BitVec 16)
  (iLock iDirt iPipe : Bool)
  deriving DecidableEq

abbrev Slot := Fin 32

def clearedInode : MInode where
  d := ⟨0, 0, 0, 0, 0, 0, fun _ => 0⟩
  iDev := 0
  iNum := 0
  iCount := 0
  iLock := false
  iDirt := false
  iPipe := false

/-- `inode_table`, `last_allocated_inode`, bitmap sizes and inode blocks. -/
structure InodeTable where
  inode : Slot → MInode
  last : Slot
  (imapBlocks zmapBlocks : BitVec 16 → BitVec 16)
  blocks : BitVec 16 → BitVec 32 → Fin 21 → DInode

namespace InodeTable

def setInode (t : InodeTable) (i : Slot) (m : MInode) : InodeTable :=
  { t with inode := update t.inode i m }

/-- The block of an inode. `i_num - 1` is an `int`, divided as an `unsigned long`. -/
def blockOf (t : InodeTable) (dev num : BitVec 16) : BitVec 32 :=
  2 + (t.imapBlocks dev).setWidth 32 + (t.zmapBlocks dev).setWidth 32 +
    ((num.setWidth 64 - 1) / 21).setWidth 32

def indexOf (num : BitVec 16) : Fin 21 := Fin.ofNat 21 (num.setWidth 64 - 1).toNat

def firstFree (t : InodeTable) : Option Slot :=
  ((List.finRange 32).map (t.last + ·)).find? fun i => (t.inode i).iCount = 0

def lookup (t : InodeTable) (dev nr : BitVec 16) : Option Slot :=
  (List.finRange 32).find? fun i => (t.inode i).iDev = dev ∧ (t.inode i).iNum = nr

theorem not_lookup {t : InodeTable} {dev nr : BitVec 16} (h : t.lookup dev nr = none) (j : Slot) :
    ¬ ((t.inode j).iDev = dev ∧ (t.inode j).iNum = nr) := by
  have := List.find?_eq_none.mp h j (List.mem_finRange j)
  simpa using this

/-- `write_inode` after `bread`: the copy of the inode, and `unlock_inode`. -/
def storeInode (t : InodeTable) (i : Slot) (dev : BitVec 16) (block : BitVec 32) : InodeTable :=
  { t with
    inode := update t.inode i { t.inode i with iDirt := false, iLock := false }
    blocks := update t.blocks dev (update (t.blocks dev) block
      (update (t.blocks dev block) (indexOf (t.inode i).iNum) (t.inode i).d)) }

theorem storeInode_count (t : InodeTable) (i : Slot) (dev : BitVec 16) (block : BitVec 32)
    (j : Slot) : ((t.storeInode i dev block).inode j).iCount = (t.inode j).iCount := by
  by_cases hj : j = i
  · subst hj
    simp [storeInode]
  · simp [storeInode, hj]

def loadInode (t : InodeTable) (i : Slot) (dev : BitVec 16) (block : BitVec 32) : InodeTable :=
  t.setInode i { t.inode i with
    d := t.blocks dev block (indexOf (t.inode i).iNum), iLock := false }

def Unique (t : InodeTable) : Prop :=
  ∀ i j, (t.inode i).iDev ≠ 0 → (t.inode i).iDev = (t.inode j).iDev →
    (t.inode i).iNum = (t.inode j).iNum → i = j

end InodeTable

/-- The caller of `get_empty_inode`: nobody, `get_pipe_inode` or `iget`. -/
inductive EmptyCaller
  | plain
  | pipe (page : Bool)
  | iget (dev nr : BitVec 16)
  deriving DecidableEq

def EmptyCaller.Ok : EmptyCaller → Prop
  | .iget dev _ => dev ≠ 0
  | _ => True

inductive WriteCaller
  | empty (c : EmptyCaller)
  | put
  deriving DecidableEq

/-- Where a process is: outside, in `wait_on_inode` or `write_inode` of `get_empty_inode`, in the
search of `iget`, in `read_inode`, or in `iput`. -/
inductive Point
  | idle
  | emptyWait (c : EmptyCaller) (i : Slot)
  | writeLock (c : WriteCaller) (i : Slot)
  | writeBread (c : WriteCaller) (i : Slot) (dev : BitVec 16) (block : BitVec 32)
  | scanWait (dev nr : BitVec 16) (empty i : Slot)
  | readLock (i : Slot)
  | readBread (i : Slot) (dev : BitVec 16) (block : BitVec 32)
  | putWait (i : Slot)
  | truncate (i : Slot)
  deriving DecidableEq

variable {π : Type*} [DecidableEq π]

/-- The table, the processes with their references `held`, and the slots cleared. -/
structure World (π : Type*) where
  table : InodeTable
  point : π → Point
  held : π → Slot → Nat
  clears : Slot → Nat

namespace World

def setInode (w : World π) (i : Slot) (m : MInode) : World π :=
  { w with table := w.table.setInode i m }

def setLast (w : World π) (i : Slot) : World π :=
  { w with table := { w.table with last := i } }

def goto (w : World π) (p : π) (x : Point) : World π := { w with point := update w.point p x }

def setHeld (w : World π) (p : π) (i : Slot) (n : Nat) : World π :=
  { w with held := update w.held p (update (w.held p) i n) }

omit [DecidableEq π] in
@[simp] theorem setInode_held (w : World π) (i : Slot) (m : MInode) :
    (w.setInode i m).held = w.held := rfl

theorem setHeld_self (w : World π) (p : π) (i : Slot) : w.setHeld p i (w.held p i) = w := by
  simp [setHeld]

def drop (w : World π) (p : π) (i : Slot) : World π :=
  ((w.setInode i { w.table.inode i with iCount := (w.table.inode i).iCount - 1 }).setHeld p i
    (w.held p i - 1)).goto p .idle

def writeInode (w : World π) (p : π) (c : WriteCaller) (i : Slot) : World π :=
  let m := w.table.inode i
  if m.iLock then w.goto p (.writeLock c i)
  else (w.setInode i { m with iLock := true }).goto p
    (.writeBread c i m.iDev (w.table.blockOf m.iDev m.iNum))

def readInode (w : World π) (p : π) (i : Slot) : World π :=
  let m := w.table.inode i
  if m.iLock then w.goto p (.readLock i)
  else (w.setInode i { m with iLock := true }).goto p
    (.readBread i m.iDev (w.table.blockOf m.iDev m.iNum))

def iputRepeat (w : World π) (p : π) (i : Slot) : World π :=
  if (w.table.inode i).d.iNlinks = 0 then w.goto p (.truncate i)
  else if (w.table.inode i).iDirt then w.writeInode p .put i
  else w.drop p i

def iputBody (w : World π) (p : π) (i : Slot) : Option (World π) :=
  let m := w.table.inode i
  if m.iCount = 0 then none
  else if m.iPipe then
    if m.iCount - 1 ≠ 0 then some (w.drop p i)
    else some (((w.setInode i { m with iCount := 0, iDirt := false, iPipe := false }).setHeld p i
      (w.held p i - 1)).goto p .idle)
  else if m.iDev = 0 ∨ 1 < m.iCount then some (w.drop p i)
  else some (w.iputRepeat p i)

def iput (w : World π) (p : π) (i : Slot) : Option (World π) :=
  if (w.table.inode i).iLock then some (w.goto p (.putWait i)) else w.iputBody p i

/-- `free_inode`, after `truncate`.  The bit in the bitmap is not modelled. -/
def freeInode (w : World π) (p : π) (i : Slot) : Option (World π) :=
  let m := w.table.inode i
  if m.iDev ≠ 0 ∧ (1 < m.iCount ∨ m.d.iNlinks ≠ 0) then none
  else some (((w.setInode i clearedInode).setHeld p i (w.held p i - 1)).goto p .idle)

def igetFound (w : World π) (p : π) (empty i : Slot) : Option (World π) :=
  iput ((w.setInode i { w.table.inode i with iCount := (w.table.inode i).iCount + 1 }).setHeld p i
    (w.held p i + 1)) p empty

def igetScan (w : World π) (p : π) (dev nr : BitVec 16) (empty : Slot) : Option (World π) :=
  match w.table.lookup dev nr with
  | some i =>
    if (w.table.inode i).iLock then some (w.goto p (.scanWait dev nr empty i))
    else w.igetFound p empty i
  | none =>
    some ((w.setInode empty { w.table.inode empty with iDev := dev, iNum := nr }).readInode p empty)

def takeEmpty (w : World π) (p : π) (i : Slot) : World π :=
  { (w.setInode i { clearedInode with iCount := 1 }).setHeld p i (w.held p i + 1) with
    clears := update w.clears i (w.clears i + 1) }

theorem takeEmpty_held (w : World π) (p : π) (i : Slot) :
    (w.takeEmpty p i).held p i = w.held p i + 1 := by
  simp [takeEmpty, setHeld]

theorem takeEmpty_count (w : World π) (p : π) (i : Slot) :
    ((w.takeEmpty p i).table.inode i).iCount = 1 := by
  simp [takeEmpty, setHeld, setInode, InodeTable.setInode]

def gotEmpty (w : World π) (p : π) (c : EmptyCaller) (i : Slot) : Option (World π) :=
  match c with
  | .plain => some ((w.takeEmpty p i).goto p .idle)
  | .pipe page =>
    let w := w.takeEmpty p i
    if page then
      some (((w.setInode i { w.table.inode i with iCount := 2, iPipe := true }).setHeld p i
        (w.held p i + 1)).goto p .idle)
    else
      some (((w.setInode i { w.table.inode i with iCount := 0 }).setHeld p i
        (w.held p i - 1)).goto p .idle)
  | .iget dev nr => (w.takeEmpty p i).igetScan p dev nr i

def emptySelect (w : World π) (p : π) (c : EmptyCaller) : Option (World π) :=
  match w.table.firstFree with
  | none => none
  | some i =>
    if (w.table.inode i).iLock then some ((w.setLast i).goto p (.emptyWait c i))
    else if (w.table.inode i).iDirt then some ((w.setLast i).writeInode p (.empty c) i)
    else (w.setLast i).gotEmpty p c i

def emptyCheck (w : World π) (p : π) (c : EmptyCaller) (i : Slot) : Option (World π) :=
  if (w.table.inode i).iDirt then some (w.writeInode p (.empty c) i)
  else if (w.table.inode i).iCount = 0 then w.gotEmpty p c i
  else w.emptySelect p c

def resume (w : World π) (p : π) : Option (World π) :=
  match w.point p with
  | .idle => none
  | .emptyWait c i => if (w.table.inode i).iLock then none else w.emptyCheck p c i
  | .writeLock c i => if (w.table.inode i).iLock then none else some (w.writeInode p c i)
  | .writeBread c i dev block =>
    let w := { w with table := w.table.storeInode i dev block }
    match c with
    | .empty c => w.emptyCheck p c i
    | .put => some (w.iputRepeat p i)
  | .scanWait dev nr empty i =>
    if (w.table.inode i).iLock then none
    else if (w.table.inode i).iDev = dev ∧ (w.table.inode i).iNum = nr then w.igetFound p empty i
    else w.igetScan p dev nr empty
  | .readLock i => if (w.table.inode i).iLock then none else some (w.readInode p i)
  | .readBread i dev block =>
    some ({ w with table := w.table.loadInode i dev block }.goto p .idle)
  | .putWait i => if (w.table.inode i).iLock then none else w.iputBody p i
  | .truncate i => w.freeInode p i

end World

/-- A call, a step in it, or a change of an inode, with `unsigned short` numbers. -/
inductive InodeEvent (π : Type*)
  | getEmptyInode (p : π)
  | getPipeInode (p : π) (page : Bool)
  | iget (p : π) (dev nr : BitVec 16)
  | iput (p : π) (i : Slot)
  | resume (p : π)
  | modify (i : Slot) (d : DInode) (dirt : Bool)

/-- A step. A process calls when it is in no call, and puts an inode that it has. -/
def inodeStep (w : World π) : InodeEvent π → Option (World π)
  | .getEmptyInode p => if w.point p = .idle then w.emptySelect p .plain else none
  | .getPipeInode p page => if w.point p = .idle then w.emptySelect p (.pipe page) else none
  | .iget p dev nr =>
    if w.point p = .idle ∧ dev ≠ 0 then w.emptySelect p (.iget dev nr) else none
  | .iput p i => if w.point p = .idle ∧ 0 < w.held p i then w.iput p i else none
  | .resume p => w.resume p
  | .modify i d dirt => some (w.setInode i { w.table.inode i with d, iDirt := dirt })

def emptyTable (imapBlocks zmapBlocks : BitVec 16 → BitVec 16)
    (blocks : BitVec 16 → BitVec 32 → Fin 21 → DInode) : InodeTable where
  inode := fun _ => clearedInode
  last := 0
  imapBlocks := imapBlocks
  zmapBlocks := zmapBlocks
  blocks := blocks

def initialWorld (π : Type*) (t : InodeTable) : World π where
  table := t
  point := fun _ => .idle
  held := fun _ _ => 0
  clears := fun _ => 0

end Linux001.Fs
