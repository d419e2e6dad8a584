import Linux001.Buffer.Queues

/-! `sys_sync` and what it calls, run alone: a transfer is one step, and a process that has to wait
sleeps forever. The minor devices of a drive overlap, so that the disk is the bytes of each drive,
and a block of a device is some of them. -/

namespace Linux001.Buffer.Sync

open Function ProofKit

abbrev Block := Fin 1024 → UInt8

def nrInode : Nat := 32

def nrSuper : Nat := 8

def dInodeSize : Nat := 48

def inodesPerBlock : Nat := 21

/-- The part of `struct m_inode` that `sync_inodes` uses. -/
structure MInode where
  dInode : Fin dInodeSize → UInt8
  iDev : Nat
  iNum : Nat
  iDirt : Bool
  iPipe : Bool

structure SuperBlock where
  sDev : Nat
  sImapBlocks : Nat
  sZmapBlocks : Nat

/-- The cache, the inode table, the super blocks, and the bytes of each drive. -/
structure Machine where
  cache : Cache Block
  inode : Nat → MInode
  superBlock : Nat → SuperBlock
  startSect : Nat → Nat
  drive : Nat → Nat → UInt8

/-- A panic, the NULL of `get_super`, or a sleep from which nobody wakes it. -/
inductive Stop
  | panic
  | fault
  | asleep
  deriving DecidableEq

abbrev Call := EStateM Stop Machine

def driveOf (dev : Nat) : Nat := dev % 256 / 5

namespace Machine

variable (m : Machine)

def address (dev block : Nat) : Nat := 512 * ((2 * block + m.startSect (dev % 256)) % 2 ^ 32)

def onDisk (dev block : Nat) : Block := fun i => m.drive (driveOf dev) (m.address dev block + i)

def writeDisk (dev block : Nat) (data : Block) : Nat → Nat → UInt8 := fun d a =>
  if h : d = driveOf dev ∧ m.address dev block ≤ a ∧ a - m.address dev block < 1024 then
    data ⟨a - m.address dev block, h.2.2⟩
  else m.drive d a

def transfer (rw : Rw) (bh : Nat) : Machine :=
  let c := m.cache
  let dev := c.bDev bh
  let block := c.bBlocknr bh
  { m with
    drive := match rw with
      | .read => m.drive
      | .write => m.writeDisk dev block (c.bData bh)
    cache := { c with
      bData := match rw with
        | .read => update c.bData bh (m.onDisk dev block)
        | .write => c.bData
      bUptodate := update c.bUptodate bh true
      bDirt := update c.bDirt bh false
      bLock := update c.bLock bh false } }

def getSuper (dev : Nat) : Option SuperBlock :=
  ((List.range nrSuper).find? fun s => (m.superBlock s).sDev = dev).map m.superBlock

end Machine

def modifyCache (f : Cache Block → Cache Block) : Call Unit :=
  modify fun m => { m with cache := f m.cache }

def waitOnBuffer (bh : Nat) : Call Unit := do
  if (← get).cache.bLock bh then throw .asleep

/-- `rw_hd`.  It does nothing for a block that is not on its device. -/
def rwHd (rw : Rw) (bh : Nat) : Call Unit :=
  modify fun m => if inRange m.cache bh then m.transfer rw bh else m

/-- `ll_rw_block`.  The hard disk, major number 3, is the only block device. -/
def llRwBlock (rw : Rw) (bh : Nat) : Call Unit := do
  if (← get).cache.bDev bh / 256 ≠ 3 then throw .panic
  rwHd rw bh

def writeDirty (bh : Nat) : Call Unit := do
  waitOnBuffer bh
  if (← get).cache.bDirt bh then llRwBlock .write bh

def syncDev (dev : Nat) : Call Unit := do
  (List.range (← get).cache.nrBuffers).forM fun bh => do
    if (← get).cache.bDev bh = dev then writeDirty bh

def brelse (bh : Nat) : Call Unit := do
  waitOnBuffer bh
  let m ← get
  match countDown m.cache bh with
  | none => throw .panic
  | some c => set { m with cache := c }

/-- `get_hash_table`. The buffer still has the block after the wait. -/
def getHashTable (dev block : Nat) : Call (Option Nat) := do
  match findBuffer (← get).cache dev block with
  | none => pure none
  | some bh => do
    modifyCache (countUp · bh)
    waitOnBuffer bh
    pure (some bh)

/-- The loop of `getblk` over the free list from `tmp` on. -/
def scanFree : Nat → Nat → Call (Option Nat)
  | 0, _ => pure none
  | n + 1, tmp => do
    let c := (← get).cache
    if c.bCount tmp = 0 then do
      waitOnBuffer tmp
      pure (some tmp)
    else if c.queues.bNextFree tmp = c.queues.freeList then pure none
    else scanFree n (c.queues.bNextFree tmp)

/-- `getblk` writes the buffer that it has taken, with all of its device. -/
def cleanBuffer (tmp : Nat) : Call Unit := do
  if (← get).cache.bDirt tmp then syncDev ((← get).cache.bDev tmp)

def getblk : Nat → Nat → Nat → Call Nat
  | 0, _, _ => throw .asleep
  | n + 1, dev, block => do
    match ← getHashTable dev block with
    | some bh => pure bh
    | none => do
      match ← scanFree (← get).cache.nrBuffers (← get).cache.queues.freeList with
      -- it sleeps on buffer_wait, and nobody gives a buffer back
      | none => throw .asleep
      | some tmp => do
        modifyCache (takeBuffer · tmp)
        cleanBuffer tmp
        modifyCache (assignBuffer · tmp dev block)
        if (findBuffer (← get).cache dev block).isSome then do
          modifyCache (giveUp · tmp)
          getblk n dev block
        else do
          modifyCache (insertIntoQueues · tmp)
          pure tmp

def bread (dev block : Nat) : Call (Option Nat) := do
  let bh ← getblk 2 dev block
  if (← get).cache.bUptodate bh then pure (some bh)
  else do
    llRwBlock .read bh
    if (← get).cache.bUptodate bh then pure (some bh)
    else do
      brelse bh
      pure none

def setSlot (data : Block) (slot : Nat) (image : Fin dInodeSize → UInt8) : Block := fun i =>
  if h : slot * dInodeSize ≤ i ∧ i - slot * dInodeSize < dInodeSize then
    image ⟨i - slot * dInodeSize, h.2⟩
  else data i

def SuperBlock.inodeBlock (sb : SuperBlock) (num : Nat) : Nat :=
  2 + sb.sImapBlocks + sb.sZmapBlocks + (num - 1) / inodesPerBlock

def inodeSlot (num : Nat) : Nat := (num - 1) % inodesPerBlock

def Machine.storeInode (m : Machine) (i bh : Nat) : Machine :=
  let inode := m.inode i
  { m with
    cache := { m.cache with
      bData := update m.cache.bData bh
        (setSlot (m.cache.bData bh) (inodeSlot inode.iNum) inode.dInode)
      bDirt := update m.cache.bDirt bh true }
    inode := update m.inode i { inode with iDirt := false } }

def writeInode (i : Nat) : Call Unit := do
  let inode := (← get).inode i
  match (← get).getSuper inode.iDev with
  | none => throw .fault
  | some sb => do
    match ← bread inode.iDev (sb.inodeBlock inode.iNum) with
    | none => throw .panic
    | some bh => do
      modify (·.storeInode i bh)
      brelse bh

def syncInodes : Call Unit :=
  (List.range nrInode).forM fun i => do
    let inode := (← get).inode i
    if inode.iDirt ∧ ¬inode.iPipe then writeInode i

def sysSync : Call Unit := do
  syncInodes
  (List.range (← get).cache.nrBuffers).forM writeDirty

namespace Machine

variable (m : Machine)

/-- A block of a hard disk that `rw_hd` transfers, an unsigned short. -/
def Valid (dev block : Nat) : Prop :=
  dev / 256 = 3 ∧ block < 65536 ∧ block * 2 + 2 ≤ m.cache.nrSects (dev % 256)

def Pending (i : Nat) : Prop :=
  i < nrInode ∧ (m.inode i).iDirt = true ∧ (m.inode i).iPipe = false

def home (i : Nat) : Option Nat :=
  (m.getSuper (m.inode i).iDev).map (·.inodeBlock (m.inode i).iNum)

def HoldsInode (dev block i : Nat) : Prop :=
  m.Pending i ∧ (m.inode i).iDev = dev ∧ m.home i = some block

instance (dev block : Nat) : Decidable (m.Valid dev block) := inferInstanceAs (Decidable (_ ∧ _))

instance (i : Nat) : Decidable (m.Pending i) := inferInstanceAs (Decidable (_ ∧ _))

instance (dev block i : Nat) : Decidable (m.HoldsInode dev block i) :=
  inferInstanceAs (Decidable (_ ∧ _))

def DirtyBlock (dev block : Nat) : Prop :=
  ∃ b < m.cache.nrBuffers, m.cache.bDirt b = true ∧
    m.cache.bDev b = dev ∧ m.cache.bBlocknr b = block

def Tracked (dev block : Nat) : Prop := m.DirtyBlock dev block ∨ ∃ i, m.HoldsInode dev block i

def stored (dev block : Nat) : Nat → Block → Block
  | 0, data => data
  | i + 1, data =>
    if m.HoldsInode dev block i then
      setSlot (stored dev block i data) (inodeSlot (m.inode i).iNum) (m.inode i).dInode
    else stored dev block i data

def Overlap (d k d' k' : Nat) : Prop :=
  driveOf d = driveOf d' ∧ m.address d k < m.address d' k' + 1024 ∧
    m.address d' k' < m.address d k + 1024

end Machine

/-- Between system calls, without I/O errors: the queues are in order, nothing is locked, what is
dirty belongs to a disk, and no count overflows. -/
structure Ready (m : Machine) : Prop where
  queues : ∃ chain free, Wf m.cache chain free ∧ ∀ b, b ∈ free ↔ b < m.cache.nrBuffers
  room : 2 ≤ m.cache.nrBuffers
  unlocked : ∀ b < m.cache.nrBuffers, m.cache.bLock b = false
  counts : ∀ b < m.cache.nrBuffers, m.cache.bCount b < 255
  dirty : ∀ b < m.cache.nrBuffers, m.cache.bDirt b = true →
    m.cache.bUptodate b = true ∧ m.Valid (m.cache.bDev b) (m.cache.bBlocknr b)
  inodes : ∀ i, m.Pending i →
    0 < (m.inode i).iNum ∧ ∃ block, m.home i = some block ∧ m.Valid (m.inode i).iDev block
  distinct : ∀ i j, m.Pending i → m.Pending j → (m.inode i).iDev = (m.inode j).iDev →
    (m.inode i).iNum = (m.inode j).iNum → i = j

/-- No two of the blocks that the call writes have bytes of the disk in common. -/
def NoOverlap (m : Machine) : Prop :=
  ∀ d k d' k', m.Tracked d k → m.Tracked d' k' → m.Overlap d k d' k' → d = d' ∧ k = k'

/-- What `sys_sync` is for: dirty blocks get their data and their inodes. -/
structure Flushed (m m' : Machine) : Prop where
  partitions : m'.startSect = m.startSect
  inodes : ∀ i < nrInode, (m'.inode i).iPipe = false → (m'.inode i).iDirt = false
  buffers : ∀ b < m'.cache.nrBuffers, m'.cache.bDirt b = false
  before : ∀ b < m.cache.nrBuffers, m.cache.bDirt b = true →
    m'.onDisk (m.cache.bDev b) (m.cache.bBlocknr b) =
      m.stored (m.cache.bDev b) (m.cache.bBlocknr b) nrInode (m.cache.bData b)
  after : ∀ b < m'.cache.nrBuffers, m.Tracked (m'.cache.bDev b) (m'.cache.bBlocknr b) →
    m'.cache.bUptodate b = true →
    m'.onDisk (m'.cache.bDev b) (m'.cache.bBlocknr b) = m'.cache.bData b
  slots : ∀ i dev block, m.HoldsInode dev block i → ∀ (o : Nat) (ho : o < dInodeSize)
    (hb : inodeSlot (m.inode i).iNum * dInodeSize + o < 1024),
    m'.onDisk dev block ⟨_, hb⟩ = (m'.inode i).dInode ⟨o, ho⟩
  images : ∀ i, (m'.inode i).dInode = (m.inode i).dInode

end Linux001.Buffer.Sync
