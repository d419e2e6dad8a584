import Linux001.Fs.Allocation

/-! `file_read` and `file_write` of `fs/file_dev.c`, on the zones of a mounted file system. -/

namespace Linux001.Fs

open Function ProofKit ProofKit.Forest

def blockSize : Nat := 1024

def oAppend : Nat := 0o2000

structure Filp where
  fFlags : Nat
  fPos : Nat
deriving DecidableEq

def slice (b : Block) (nr chars : Nat) : List UInt8 := (List.range chars).map fun j => b (nr + j)

def storeBytes (b : Block) (c chars : Nat) (buf : Nat → UInt8) (i : Nat) : Block :=
  fun off => if c ≤ off ∧ off < c + chars then buf (i + (off - c)) else b off

/-- The loop of `file_read`, with at most `left` rounds; `blockOf` finds a block. -/
def readLoop (blockOf : Inode → Nat → ZoneM (Inode × Nat)) (inode : Inode) : Nat → Filp → Nat →
    ZoneM (Filp × List UInt8)
  | 0, filp, _ => pure (filp, [])
  | fuel + 1, filp, left =>
    if left = 0 then pure (filp, [])
    else do
      let (_, nr) ← blockOf inode (filp.fPos / blockSize)
      let off := filp.fPos % blockSize
      let chars := min (blockSize - off) left
      let next := { filp with fPos := filp.fPos + chars }
      if nr = 0 then
        let (filp, rest) ← readLoop blockOf inode fuel next (left - chars)
        pure (filp, slice clearBlock off chars ++ rest)
      else
        bread nr
        let bytes := slice ((← get).block nr) off chars
        brelse nr
        let (filp, rest) ← readLoop blockOf inode fuel next (left - chars)
        pure (filp, bytes ++ rest)

/-- The file position, the bytes and the result. -/
def fileReadBy (blockOf : Inode → Nat → ZoneM (Inode × Nat)) (inode : Inode) (filp : Filp)
    (count : Int) : ZoneM (Filp × List UInt8 × Int) :=
  if count ≤ 0 then pure (filp, [], 0)
  else do
    let (filp, bytes) ← readLoop blockOf inode count.toNat filp count.toNat
    pure (filp, bytes, count)

def fileRead (inode : Inode) (filp : Filp) (count : Int) : ZoneM (Filp × List UInt8 × Int) :=
  fileReadBy bmap inode filp count

def grown (inode : Inode) (pos : Nat) : Inode :=
  if inode.iSize < pos then { inode with iSize := pos, iDirt := true } else inode

/-- The loop of `file_write`: the inode, the position and the bytes written. -/
def writeLoop (blockOf : Inode → Nat → ZoneM (Inode × Nat)) (buf : Nat → UInt8) (count : Int) :
    Nat → Inode → Nat → Nat → ZoneM (Inode × Nat × Nat)
  | 0, inode, pos, i => pure (inode, pos, i)
  | fuel + 1, inode, pos, i =>
    if (i : Int) < count then do
      let (inode, block) ← blockOf inode (pos / blockSize)
      if block = 0 then pure (inode, pos, i)
      else
        bread block
        let c := pos % blockSize
        let chars := min (blockSize - c) (count - i).toNat
        let inode := grown inode (pos + chars)
        modify fun z => z.setBlock block (storeBytes (z.block block) c chars buf i)
        brelse block
        writeLoop blockOf buf count fuel inode (pos + chars) (i + chars)
    else pure (inode, pos, i)

def fileWriteBy (blockOf : Inode → Nat → ZoneM (Inode × Nat)) (inode : Inode) (filp : Filp)
    (buf : Nat → UInt8) (count : Int) : ZoneM (Inode × Filp × Int) := do
  let append := filp.fFlags &&& oAppend ≠ 0
  let pos := if append then inode.iSize else filp.fPos
  let (inode, pos, i) ← writeLoop blockOf buf count count.toNat inode pos 0
  let filp := if append then filp else { filp with fPos := pos }
  pure (inode, filp, if i = 0 then -1 else i)

def fileWrite (inode : Inode) (filp : Filp) (buf : Nat → UInt8) (count : Int) :
    ZoneM (Inode × Filp × Int) := fileWriteBy createBlock inode filp buf count

end Linux001.Fs
