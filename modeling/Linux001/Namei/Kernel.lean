import Linux001.Fs.Zones

/-! The tables that the file system calls share, with the one mounted device, and the functions of
`fs/inode.c`, `fs/bitmap.c` and `fs/truncate.c` on them. One call runs after the other, so that
nothing is ever locked, but a `bread` can fail. -/

namespace Linux001.Namei

open Function Fs

abbrev Slot := Fin 32

abbrev FileNr := Fin 64

abbrev TaskNr := Fin 64

abbrev Fd := Fin 20

structure Fields where
  iMode : Nat
  iUid : Nat
  iSize : Nat
  iGid : Nat
  iNlinks : Nat
  iZone : Nat → Nat

structure DiskInode extends Fields where
  iMtime : Nat

/-- `struct m_inode` without the wait queue, the lock and the other two times. -/
structure CoreInode extends Inode where
  iMtime : Nat

def fields (m : Inode) : Fields :=
  ⟨m.iMode, m.iUid, m.iSize, m.iGid, m.iNlinks, m.iZone⟩

def CoreInode.disk (m : CoreInode) : DiskInode := ⟨fields m.toInode, m.iMtime⟩

def CoreInode.load (m : CoreInode) (d : DiskInode) : CoreInode :=
  { m with
    iMode := d.iMode
    iUid := d.iUid
    iSize := d.iSize
    iGid := d.iGid
    iNlinks := d.iNlinks
    iZone := d.iZone
    iMtime := d.iMtime }

def cleared : CoreInode where
  iMode := 0
  iUid := 0
  iSize := 0
  iGid := 0
  iNlinks := 0
  iZone := fun _ => 0
  iDev := 0
  iNum := 0
  iCount := 0
  iDirt := false
  iPipe := false
  iMtime := 0

structure File where
  fMode : Nat
  fFlags : Nat
  fCount : Nat
  fInode : Option Slot
  fPos : Nat

/-- The fields of `struct task_struct` used here. -/
structure Task where
  filp : Fd → Option FileNr
  pwd : Option Slot
  root : Option Slot
  uid : Nat
  euid : Nat
  gid : Nat
  egid : Nat
  umask : Nat
  leader : Bool
  tty : Int
  pid : Nat
  father : Nat
  zombie : Bool

/-- What a search without its buffer finds: nothing, other memory, or an entry. -/
inductive Stray
  | past
  | miss
  | hit (block : Nat → Block) (dinode : Nat → DiskInode)

/-- The state; `dinode` are the inodes on `dev`, `now` is `CURRENT_TIME`, and `stale` what the disk
holds for dropped buffers. The slots freed in the call and the removed directories are for the
proofs. -/
structure Kernel where
  zones : Zones
  imap : Nat → Option Bitmap
  dinode : Nat → DiskInode
  dev : Nat
  inode : Slot → CoreInode
  last : Slot
  file : FileNr → File
  task : TaskNr → Option Task
  sIsup : Option Slot
  sImount : Option Slot
  now : Nat
  stale : Nat → Block
  failures : List Bool
  strays : List Stray
  freed : List Slot
  removed : Nat → Bool

/-- What ends a call: a panic, a null pointer, or a fault on a user address. -/
inductive Stop
  | zones (p : Panic)
  /-- "No root inode" -/
  | noRoot
  /-- "No cwd inode" -/
  | noCwd
  /-- "iput: trying to free free inode" -/
  | freeFreeInode
  /-- "No free inodes in mem" -/
  | noFreeInodes
  /-- "unable to read i-node block" -/
  | inodeBlock
  /-- "iget with dev==0" -/
  | noDev
  /-- "Close: file count is 0" -/
  | closeCount
  /-- "free_inode" -/
  | freeInodeCount
  /-- "trying to free inode with links" -/
  | freeInodeLinks
  /-- "trying to free inode 0 or nonexistant inode" -/
  | freeInodeNumber
  /-- "nonexistent imap in superblock" -/
  | freeInodeMap
  /-- "free_inode: bit already cleared" -/
  | inodeAlreadyCleared
  /-- "new_inode: bit already set" -/
  | inodeAlreadySet
  /-- "size<=0 in read_ind" -/
  | readIndSize
  /-- "Impossibly long executable" -/
  | longExecutable
  /-- "trying to release non-existent task" -/
  | releaseTask
  /-- No super block: `new_inode` and `free_inode` panic, others use the null pointer. -/
  | noSuper
  | nullPointer
  | killed
  deriving DecidableEq

abbrev K := EStateM Stop Kernel

namespace Kernel

def setInode (k : Kernel) (i : Slot) (m : CoreInode) : Kernel :=
  { k with inode := update k.inode i m }

def setFile (k : Kernel) (f : FileNr) (m : File) : Kernel := { k with file := update k.file f m }

def setTask (k : Kernel) (t : TaskNr) (m : Option Task) : Kernel :=
  { k with task := update k.task t m }

def firstFree (k : Kernel) : Option Slot :=
  ((List.finRange 32).map (k.last + ·)).find? fun i => (k.inode i).iCount = 0

def lookup (k : Kernel) (dev nr : Nat) : Option Slot :=
  (List.finRange 32).find? fun i => (k.inode i).iDev = dev ∧ (k.inode i).iNum = nr

def inodeBlock (k : Kernel) (num : Nat) : Nat :=
  2 + k.zones.sb.sImapBlocks + k.zones.sb.sZmapBlocks + (num - 1) / inodesPerBlock

end Kernel

def doIf (c : Prop) [Decidable c] (m : K Unit) : K Unit := if c then m else pure ()

instance : OnDevice Stop Kernel where
  zones := Kernel.zones
  withZones k z := { k with zones := z }
  panic := .zones

/-- Whether the next `bread` fails, and the state after it. -/
def Kernel.readFails (k : Kernel) : Bool × Kernel :=
  match k.failures with
  | [] => (false, k)
  | failed :: rest => (failed, { k with failures := rest })

def bread (b : Nat) : K Bool := breadOr Kernel.readFails b

def brelse (b : Nat) : K Unit := onZones (Fs.brelse b)

def modifyBlock (b : Nat) (f : Block → Block) : K Unit :=
  modify fun k => { k with zones := k.zones.setBlock b (f (k.zones.block b)) }

def modifyInode (i : Slot) (f : CoreInode → CoreInode) : K Unit :=
  modify fun k => k.setInode i (f (k.inode i))

def freeBlock (block : Nat) : K Unit := do
  let k ← get
  onZones (Fs.freeBlock k.stale block)

def newBlock : K Nat := onZones Fs.newBlock

/-- What `_bmap` does with `i_zone[n]`. -/
def inodeSlot (create : Bool) (i : Slot) (n : Nat) : K Nat := do
  let m := (← get).inode i
  if create ∧ m.iZone n = 0 then
    let zone := (← newBlock) % 65536
    modifyInode i fun m =>
      { m with iZone := update m.iZone n zone, iDirt := m.iDirt || zone != 0 }
    pure zone
  else pure (m.iZone n)

/-- What `_bmap` does with the entry `n` of the indirect block `b`. -/
def blockSlot (create : Bool) (b n : Nat) : K Nat := do
  if ← bread b then
    let i := entry ((← get).zones.block b) n
    if create ∧ i = 0 then
      let zone ← newBlock
      if zone ≠ 0 then
        modifyBlock b fun d => setEntry d n zone
        brelse b
        pure zone
      else
        brelse b
        pure 0
    else
      brelse b
      pure i
  else pure 0

def bmap' (create : Bool) (i : Slot) (block : Nat) : K Nat :=
  if 7 + 512 + 512 * 512 ≤ block then throw (.zones .blockBig)
  else if block < 7 then inodeSlot create i block
  else if block - 7 < 512 then do
    let zone ← inodeSlot create i 7
    if zone = 0 then pure 0 else blockSlot create zone (block - 7)
  else do
    let block := block - 7 - 512
    let zone ← inodeSlot create i 8
    if zone = 0 then pure 0
    else
      let zone ← blockSlot create zone (block / 512)
      if zone = 0 then pure 0 else blockSlot create zone (block % 512)

def bmap (i : Slot) (block : Nat) : K Nat := bmap' false i block

def createBlock (i : Slot) (block : Nat) : K Nat := bmap' true i block

/-- The loop of `free_ind` and `free_dind`, if the block can be read. -/
def freeEntries (free : Nat → K Unit) (block : Nat) : K Unit :=
  if block = 0 then pure ()
  else do
    let ok ← bread block
    doIf ok do
      (List.range 512).forM fun i => do
        let n := entry ((← get).zones.block block) i
        doIf (n ≠ 0) (free n)
      brelse block
    freeBlock block

def freeInd (block : Nat) : K Unit := freeEntries freeBlock block

def freeDind (block : Nat) : K Unit := freeEntries freeInd block

def freeDirect (i : Slot) (n : Nat) : K Unit := do
  let zone := ((← get).inode i).iZone n
  doIf (zone ≠ 0) do
    freeBlock zone
    modifyInode i fun m => { m with iZone := update m.iZone n 0 }

def truncate (i : Slot) : K Unit := do
  let m := (← get).inode i
  doIf (isReg m.iMode || isDir m.iMode) do
    (List.range 7).forM (freeDirect i)
    freeInd (((← get).inode i).iZone 7)
    freeDind (((← get).inode i).iZone 8)
    let now := (← get).now
    modifyInode i fun m =>
      { m with
        iZone := update (update m.iZone 7 0) 8 0
        iSize := 0
        iDirt := true
        iMtime := now }

def Kernel.storeInode (k : Kernel) (i : Slot) : Kernel :=
  { k.setInode i { k.inode i with iDirt := false } with
    dinode := update k.dinode (k.inode i).iNum (k.inode i).disk }

def Kernel.loadInode (k : Kernel) (i : Slot) : Kernel :=
  k.setInode i ((k.inode i).load (k.dinode (k.inode i).iNum))

/-- `write_inode` and `read_inode`, which differ in what they do with the block. -/
def withInodeBlock (i : Slot) (f : Kernel → Kernel) : K Unit := do
  let k ← get
  if (k.inode i).iDev ≠ k.dev then throw .noSuper
  else if ← bread (k.inodeBlock (k.inode i).iNum) then
    modify f
    brelse (k.inodeBlock (k.inode i).iNum)
  else throw .inodeBlock

def writeInode (i : Slot) : K Unit := withInodeBlock i fun k => k.storeInode i

def readInode (i : Slot) : K Unit := withInodeBlock i fun k => k.loadInode i

def flush (i : Slot) : K Unit := do
  let k ← get
  doIf (k.inode i).iDirt (writeInode i)

def getEmptyInode : K Slot := do
  match (← get).firstFree with
  | none => throw .noFreeInodes
  | some i =>
    modify fun k => { k with last := i, freed := k.freed.filter (· ≠ i) }
    flush i
    modifyInode i fun _ => { cleared with iCount := 1 }
    pure i

/-- `get_pipe_inode`, with the page that `get_free_page` returns. -/
def getPipeInode (page : Option Nat) : K (Option Slot) := do
  let i ← getEmptyInode
  match page with
  | none =>
    modifyInode i fun m => { m with iCount := 0 }
    pure none
  | some p =>
    modifyInode i fun m => { m with iSize := p, iCount := 2, iPipe := true }
    pure (some i)

def freeInode (i : Slot) : K Unit := do
  let k ← get
  let m := k.inode i
  if m.iDev = 0 then set (k.setInode i cleared)
  else if 1 < m.iCount then throw .freeInodeCount
  else if m.iNlinks ≠ 0 then throw .freeInodeLinks
  else if m.iDev ≠ k.dev then throw .noSuper
  else if m.iNum < 1 ∨ k.zones.sb.sNinodes < m.iNum then throw .freeInodeNumber
  else match k.imap (m.iNum / 8192) with
    | none => throw .freeInodeMap
    | some p =>
      let r := clearBit (m.iNum % 8192) p
      if r.1 then throw .inodeAlreadyCleared
      else set { k.setInode i cleared with imap := update k.imap (m.iNum / 8192) (some r.2) }

def freeUnlinked (i : Slot) : K Unit := do
  truncate i
  freeInode i
  modify fun k => { k with freed := i :: k.freed }

def iput (i : Slot) : K Unit := do
  let m := (← get).inode i
  if m.iCount = 0 then throw .freeFreeInode
  else if m.iPipe then
    if m.iCount - 1 ≠ 0 then modifyInode i fun m => { m with iCount := m.iCount - 1 }
    else modifyInode i fun m => { m with iCount := 0, iDirt := false, iPipe := false }
  else if m.iDev = 0 ∨ 1 < m.iCount then modifyInode i fun m => { m with iCount := m.iCount - 1 }
  else if m.iNlinks = 0 then freeUnlinked i
  else do
    flush i
    modifyInode i fun m => { m with iCount := m.iCount - 1 }

def iputAny : Option Slot → K Unit
  | none => pure ()
  | some i => iput i

def igrab (i : Slot) : K Unit := do
  modify fun k => { k with freed := k.freed.filter (· ≠ i) }
  modifyInode i fun m => { m with iCount := m.iCount + 1 }

def iget (dev nr : Nat) : K Slot :=
  if dev = 0 then throw .noDev
  else do
    let empty ← getEmptyInode
    match (← get).lookup dev nr with
    | some i =>
      igrab i
      iput empty
      pure i
    | none =>
      modifyInode empty fun m => { m with iDev := dev, iNum := nr }
      readInode empty
      pure empty

def newInode (dev : Nat) : K (Option Slot) := do
  let i ← getEmptyInode
  let k ← get
  if dev ≠ k.dev then throw .noSuper
  else match firstZero k.imap with
    | none =>
      iput i
      pure none
    | some (b, j, p) =>
      if k.zones.sb.sNinodes < j + b * 8192 then
        iput i
        pure none
      else
        let r := setBit j p
        if r.1 then throw .inodeAlreadySet
        else
          modify fun k =>
            { k with
              imap := update k.imap b (some r.2)
              removed := update k.removed (j + b * 8192) false }
          modifyInode i fun m =>
            { m with
              iCount := 1
              iNlinks := 1
              iDev := dev
              iDirt := true
              iNum := j + b * 8192
              iMtime := k.now }
          pure (some i)

end Linux001.Namei
