import Linux001.Fs.Bitmap

/-! The zones of a mounted file system: `free_block` and `new_block` of `fs/bitmap.c`, `_bmap` of
`fs/inode.c`, and `fs/truncate.c`. There are no I/O errors, and `bread` only counts the reference.
-/

namespace Linux001.Fs

open Function

abbrev Block := Nat → UInt8

/-- `((unsigned short *) b_data)[k]`. -/
def entry (b : Block) (k : Nat) : Nat := (b (2 * k)).toNat + 256 * (b (2 * k + 1)).toNat

def setEntry (b : Block) (k n : Nat) : Block :=
  update (update b (2 * k) (UInt8.ofNat n)) (2 * k + 1) (UInt8.ofNat (n / 256))

def clearBlock : Block := fun _ => 0

/-- `INODES_PER_BLOCK`, for a `struct d_inode` of 48 bytes. -/
def inodesPerBlock : Nat := 21

/-- The fields of `struct super_block` that come from the disk. -/
structure SuperBlock where
  sNinodes : Nat
  sNzones : Nat
  sImapBlocks : Nat
  sZmapBlocks : Nat
  sFirstdatazone : Nat
  ninodes_lt : sNinodes < 65536
  nzones_lt : sNzones < 65536
  layout : 2 ≤ sFirstdatazone

def oneZone : SuperBlock := ⟨1, 6, 1, 1, 5, by decide, by decide, by decide⟩

/-- The fields of `struct m_inode` that the file system uses. -/
structure Inode where
  iMode : Nat
  iUid : Nat
  iSize : Nat
  iGid : Nat
  iNlinks : Nat
  iZone : Nat → Nat
  iDev : Nat
  iNum : Nat
  iCount : Nat
  iDirt : Bool
  iPipe : Bool

def isReg (mode : Nat) : Bool := mode &&& 0o170000 == 0o100000

def isDir (mode : Nat) : Bool := mode &&& 0o170000 == 0o040000

/-- The super block, the zone bitmaps, and the blocks with their `b_count`. -/
structure Zones where
  sb : SuperBlock
  zmap : Nat → Option Bitmap
  block : Nat → Block
  count : Nat → Nat

/-- The panics of the functions below, and the use of a null pointer. -/
inductive Panic
  /-- "trying to free block not in datazone" -/
  | notInDatazone
  /-- "free_block: bit already cleared" -/
  | blockAlreadyCleared
  /-- "new_block: bit already set" -/
  | blockAlreadySet
  /-- "new block: count is != 1" -/
  | newBlockCount
  /-- "_bmap: block<0" -/
  | blockNegative
  /-- "_bmap: block>big" -/
  | blockBig
  /-- "Trying to free free buffer" -/
  | freeBuffer
  | nullPointer
  deriving DecidableEq

abbrev ZoneM := EStateM Panic Zones

namespace Zones

variable (z : Zones)

@[simps -fullyApplied]
def hold (b : Nat) : Zones := { z with count := update z.count b (z.count b + 1) }

@[simps -fullyApplied]
def release (b : Nat) : Zones := { z with count := update z.count b (z.count b - 1) }

@[simps -fullyApplied]
def setBlock (b : Nat) (data : Block) : Zones := { z with block := update z.block b data }

@[simps -fullyApplied]
def setZmap (i : Nat) (p : Bitmap) : Zones := { z with zmap := update z.zmap i (some p) }

end Zones

def bread (b : Nat) : ZoneM Unit := modify (·.hold b)

def brelse (b : Nat) : ZoneM Unit := do
  let z ← get
  if z.count b = 0 then throw .freeBuffer else set (z.release b)

/-- A larger state with the zones of the device, in which their panics are `panic`. -/
class OnDevice (ε : outParam Type) (σ : Type) where
  zones : σ → Zones
  withZones : σ → Zones → σ
  panic : Panic → ε

section OnDevice

variable {ε σ α : Type} [OnDevice ε σ]

/-- What `m` does, in a larger state. -/
def onZones (m : ZoneM α) : EStateM ε σ α := fun s =>
  match m (OnDevice.zones s) with
  | .ok a z => .ok a (OnDevice.withZones s z)
  | .error p z => .error (OnDevice.panic σ p) (OnDevice.withZones s z)

/-- `bread`, where `fails` says whether the read fails, and has the state after it. -/
def breadOr (fails : σ → Bool × σ) (b : Nat) : EStateM ε σ Bool := do
  let (failed, s) := fails (← get)
  set s
  if failed then pure false
  else
    onZones (bread b)
    pure true

end OnDevice

/-- `free_block`. The buffer is dropped unwritten, and the block has the bytes `stale`; a buffer in
use keeps its block, with one reference more. -/
def freeBlock (stale : Nat → Block) (block : Nat) : ZoneM Unit := do
  let z ← get
  if block < z.sb.sFirstdatazone ∨ z.sb.sNzones ≤ block then throw .notInDatazone
  else if z.count block ≠ 0 then set (z.hold block)
  else
    let z := z.setBlock block (stale block)
    let nr := block - (z.sb.sFirstdatazone - 1)
    match z.zmap (nr / 8192) with
    | none => throw .nullPointer
    | some p =>
      let r := clearBit (nr % 8192) p
      if r.1 then throw .blockAlreadyCleared else set (z.setZmap (nr / 8192) r.2)

def firstZero (map : Nat → Option Bitmap) : Option (Nat × Nat × Bitmap) :=
  (List.range 8).findSome? fun i =>
    (map i).bind fun p => if findFirstZero p < 8192 then some (i, findFirstZero p, p) else none

/-- `new_block`.  A bit behind the last zone is set and stays set. -/
def newBlock : ZoneM Nat := do
  let z ← get
  match firstZero z.zmap with
  | none => pure 0
  | some (i, j, p) =>
    let r := setBit j p
    if r.1 then throw .blockAlreadySet
    else
      let z := z.setZmap i r.2
      let n := j + i * 8192 + (z.sb.sFirstdatazone - 1)
      if z.sb.sNzones ≤ n then
        set z
        pure 0
      else if z.count n ≠ 0 then throw .newBlockCount
      else
        set (z.setBlock n clearBlock)
        pure n

/-- What `_bmap` does with `i_zone[k]`. -/
def inodeSlot (create : Bool) (inode : Inode) (k : Nat) : ZoneM Inode :=
  if create ∧ inode.iZone k = 0 then do
    let n ← newBlock
    let n := n % 65536
    pure { inode with iZone := update inode.iZone k n, iDirt := inode.iDirt || n != 0 }
  else pure inode

/-- What `_bmap` does with the entry `k` of the indirect block `b`. -/
def blockSlot (create : Bool) (b k : Nat) : ZoneM Nat := do
  bread b
  let i := entry ((← get).block b) k
  if create ∧ i = 0 then
    let n ← newBlock
    if n ≠ 0 then
      modify fun z => z.setBlock b (setEntry (z.block b) k n)
      brelse b
      pure n
    else
      brelse b
      pure 0
  else
    brelse b
    pure i

/-- `_bmap`: the inode and the zone of its block, which is not negative. -/
def bmap' (create : Bool) (inode : Inode) (block : Nat) : ZoneM (Inode × Nat) :=
  if 7 + 512 + 512 * 512 ≤ block then throw .blockBig
  else if block < 7 then do
    let inode ← inodeSlot create inode block
    pure (inode, inode.iZone block)
  else if block - 7 < 512 then do
    let inode ← inodeSlot create inode 7
    if inode.iZone 7 = 0 then pure (inode, 0)
    else
      let i ← blockSlot create (inode.iZone 7) (block - 7)
      pure (inode, i)
  else do
    let block := block - 7 - 512
    let inode ← inodeSlot create inode 8
    if inode.iZone 8 = 0 then pure (inode, 0)
    else
      let i ← blockSlot create (inode.iZone 8) (block / 512)
      if i = 0 then pure (inode, 0)
      else
        let i ← blockSlot create i (block % 512)
        pure (inode, i)

def bmap (inode : Inode) (block : Nat) : ZoneM (Inode × Nat) := bmap' false inode block

def createBlock (inode : Inode) (block : Nat) : ZoneM (Inode × Nat) := bmap' true inode block

/-- The loop of `free_ind` and `free_dind` with `free`, then the block itself. -/
def freeEntries (stale : Nat → Block) (free : Nat → ZoneM Unit) (block : Nat) : ZoneM Unit :=
  if block = 0 then pure ()
  else do
    bread block
    (List.range 512).forM fun i => do
      let n := entry ((← get).block block) i
      if n ≠ 0 then free n else pure ()
    brelse block
    freeBlock stale block

def freeInd (stale : Nat → Block) (block : Nat) : ZoneM Unit :=
  freeEntries stale (freeBlock stale) block

def freeDind (stale : Nat → Block) (block : Nat) : ZoneM Unit :=
  freeEntries stale (freeInd stale) block

def freeDirect (stale : Nat → Block) (inode : Inode) (i : Nat) : ZoneM Inode :=
  if inode.iZone i ≠ 0 then do
    freeBlock stale (inode.iZone i)
    pure { inode with iZone := update inode.iZone i 0 }
  else pure inode

def truncate (stale : Nat → Block) (inode : Inode) : ZoneM Inode :=
  if isReg inode.iMode || isDir inode.iMode then do
    let inode ← (List.range 7).foldlM (freeDirect stale) inode
    freeInd stale (inode.iZone 7)
    freeDind stale (inode.iZone 8)
    pure { inode with
      iZone := update (update inode.iZone 7 0) 8 0
      iSize := 0
      iDirt := true }
  else pure inode

end Linux001.Fs
