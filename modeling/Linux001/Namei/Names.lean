import Linux001.Namei.Kernel

/-! `fs/namei.c`. `cur` is the task that makes the call, and a path is the list of the bytes that it
can read from its pointer on: a read behind them ends in `do_exit`. -/

namespace Linux001.Namei

open Function Fs

def eperm : Int := 1
def enoent : Int := 2
def ebadf : Int := 9
def eagain : Int := 11
def eacces : Int := 13
def eexist : Int := 17
def exdev : Int := 18
def enotdir : Int := 20
def eisdir : Int := 21
def einval : Int := 22
def emfile : Int := 24
def enospc : Int := 28
def enotempty : Int := 39
def error : Int := 99

def oAccmode : Nat := 0o3
def oWronly : Nat := 0o1
def oCreat : Nat := 0o100
def oExcl : Nat := 0o200
def oTrunc : Nat := 0o1000
def oAppend : Nat := 0o2000
def oNonblock : Nat := 0o4000

def mayExec : Nat := 1
def mayWrite : Nat := 2

def iRegular : Nat := 0o100000
def iDirectory : Nat := 0o040000

def isChr (mode : Nat) : Bool := mode &&& 0o170000 == 0o020000

def isBlk (mode : Nat) : Bool := mode &&& 0o170000 == 0o060000

def accMode (flag : Nat) : Int :=
  match flag &&& oAccmode with
  | 0 => 4
  | 1 => 2
  | 2 => 6
  | _ => -1

/-- `mode & 0777 & ~umask`. -/
def masked (mode umask : Nat) : Nat := mode &&& (0o777 ^^^ (umask &&& 0o777))

def current (cur : TaskNr) : K Task := do
  match (← get).task cur with
  | none => throw .nullPointer
  | some t => pure t

def permission (t : Task) (m : Inode) (mask : Nat) : Nat :=
  if m.iDev ≠ 0 ∧ m.iNlinks = 0 then 0
  else
    let mode :=
      if ¬(t.uid ≠ 0 ∧ t.euid ≠ 0) then 0o777
      else if t.uid = m.iUid ∨ t.euid = m.iUid then m.iMode >>> 6
      else if t.gid = m.iGid ∨ t.egid = m.iGid then m.iMode >>> 3
      else m.iMode
    mode &&& mask &&& 0o7

def mayAccess (cur : TaskNr) (i : Slot) (mask : Nat) : K Nat := do
  let t ← current cur
  let k ← get
  pure (permission t (k.inode i).toInode mask)

def dropLink (i : Slot) : K Unit :=
  modifyInode i fun m => { m with iNlinks := (m.iNlinks + 255) % 256 }

def nameLen : Nat := 14

def dirEntriesPerBlock : Nat := 64

def deInode (b : Block) (e : Nat) : Nat := entry b (8 * e)

def deName (b : Block) (e i : Nat) : UInt8 := b (16 * e + 2 + i)

def setDeInode (b : Block) (e n : Nat) : Block := setEntry b (8 * e) n

def setDeName (b : Block) (e : Nat) (name : List UInt8) : Block := fun off =>
  if 16 * e + 2 ≤ off ∧ off < 16 * e + 2 + nameLen then name.getD (off - (16 * e + 2)) 0 else b off

/-- `match`.  `get_fs_byte` is unsigned and `de->name[i]` is not, so that no byte from 128 on
matches. -/
def matchEntry (name : List UInt8) (b : Block) (e : Nat) : Bool :=
  deInode b e != 0 && decide (name.length ≤ nameLen) &&
    (decide (nameLen ≤ name.length) || deName b e name.length == 0) &&
    name.zipIdx.all fun (c, i) => decide (c.toNat < 128) && c == deName b e i

/-- What is behind the last buffer, after `bh` was set to `NULL`. -/
def stray : K Stray := do
  let k ← get
  match k.strays with
  | [] => pure .past
  | s :: rest =>
    set { k with strays := rest }
    pure s

/-- `entries` of `find_entry` and `len` of `empty_dir`, of the type `int`. -/
def dirLength (size : Nat) : Nat :=
  let n := size / 16 % 2 ^ 32
  if n < 2 ^ 31 then n else 0

def brelseAny : Option (Nat × Nat) → K Unit
  | none => pure ()
  | some (b, _) => brelse b

/-- The pointer `de`: in a buffer, nowhere, or behind a freed buffer. -/
inductive Pointer
  | entry (b e : Nat)
  | lost
  | stray (s : Stray)

def findNext (dir : Slot) (i : Nat) : K Pointer := do
  let block ← bmap dir (i / dirEntriesPerBlock)
  if block = 0 then pure .lost
  else if ← bread block then pure (.entry block 0)
  else pure .lost

/-- The entry that `find_entry` looks at; `bh` is its place. -/
def findPointer (dir : Slot) (i : Nat) : (bh : Option (Nat × Nat)) → K Pointer
  | some (b, e) => do
    if e < dirEntriesPerBlock then pure (.entry b e)
    else
      brelse b
      findNext dir i
  | none => do
    match ← stray with
    | .past => findNext dir i
    | s => pure (.stray s)

def findLoop (dir : Slot) (name : List UInt8) (entries : Nat) :
    (fuel i : Nat) → (bh : Option (Nat × Nat)) → K (Option (Nat × Nat))
  | 0, _, bh => do
    brelseAny bh
    pure none
  | fuel + 1, i, bh => do
    if entries ≤ i then
      brelseAny bh
      pure none
    else
      match ← findPointer dir i bh with
      | .entry b e =>
        if matchEntry name ((← get).zones.block b) e then pure (some (b, e))
        else findLoop dir name entries fuel (i + 1) (some (b, e + 1))
      | .lost => findLoop dir name entries fuel (i + dirEntriesPerBlock) none
      | .stray (.hit ..) => pure none
      | .stray _ => findLoop dir name entries fuel (i + 1) none

/-- `find_entry`: the block of the entry, held, and the place in it. -/
def findEntry (dir : Slot) (name : List UInt8) : K (Option (Nat × Nat)) := do
  let m := (← get).inode dir
  let name := name.take nameLen
  if name = [] ∨ m.iZone 0 = 0 then pure none
  else if ← bread (m.iZone 0) then
    findLoop dir name (dirLength m.iSize) (dirLength m.iSize) 0 (some (m.iZone 0, 0))
  else pure none

/-- The next block in `add_entry`, `none` where there is no zone for it. -/
def addNext (dir : Slot) (i : Nat) : K (Option Pointer) := do
  let block ← createBlock dir (i / dirEntriesPerBlock)
  if block = 0 then pure none
  else if ← bread block then pure (some (.entry block 0))
  else pure (some .lost)

def addPointer (dir : Slot) (i : Nat) : (bh : Option (Nat × Nat)) → K (Option Pointer)
  | some (b, e) => do
    if e < dirEntriesPerBlock then pure (some (.entry b e))
    else
      brelse b
      addNext dir i
  | none => do
    match ← stray with
    | .past => addNext dir i
    | s => pure (some (.stray s))

/-- `add_entry` behind the last entry of the directory: the directory grows. -/
def extend (dir : Slot) (i : Nat) : K Unit :=
  modifyInode dir fun m => { m with iSize := (i + 1) * 16, iDirt := true }

def touch (dir : Slot) : K Unit := do
  let now := (← get).now
  modifyInode dir fun m => { m with iMtime := now }

def place (dir : Slot) (name : List UInt8) (i b e : Nat) : K Bool := do
  let k ← get
  doIf ((k.inode dir).iSize ≤ i * 16) do
    modifyBlock b fun d => setDeInode d e 0
    extend dir i
  if deInode ((← get).zones.block b) e = 0 then
    touch dir
    modifyBlock b fun d => setDeName d e name
    pure true
  else pure false

/-- `add_entry` behind a freed buffer: whether it stored something. -/
def placeStray (dir : Slot) (i : Nat) (s : Stray) : K Bool := do
  let k ← get
  let last := decide ((k.inode dir).iSize ≤ i * 16)
  doIf last (extend dir i)
  match s with
  | .hit block dinode =>
    touch dir
    modify fun k => { k with zones := { k.zones with block := block }, dinode := dinode }
    pure true
  | _ =>
    doIf last (touch dir)
    pure last

def addLoop (dir : Slot) (name : List UInt8) :
    (fuel i : Nat) → (bh : Option (Nat × Nat)) → K (Option (Nat × Nat))
  | 0, _, _ => throw (.zones .blockBig)
  | fuel + 1, i, bh => do
    match ← addPointer dir i bh with
    | none => pure none
    | some (.entry b e) =>
      if ← place dir name i b e then pure (some (b, e))
      else addLoop dir name fuel (i + 1) (some (b, e + 1))
    | some .lost => addLoop dir name fuel (i + dirEntriesPerBlock) none
    | some (.stray s) =>
      if ← placeStray dir i s then pure none else addLoop dir name fuel (i + 1) none

/-- `add_entry`: the block of the entry, whose buffer is held, and the place in it. -/
def addEntry (dir : Slot) (name : List UInt8) : K (Option (Nat × Nat)) := do
  let m := (← get).inode dir
  let name := name.take nameLen
  if name = [] ∨ m.iZone 0 = 0 then pure none
  else if ← bread (m.iZone 0) then
    addLoop dir name (64 * (7 + 512 + 512 * 512) + 65) 0 (some (m.iZone 0, 0))
  else pure none

def fillEntry (b e n : Nat) : K Unit := modifyBlock b fun d => setDeInode d e n

/-- The names before slashes, and the last one before a null byte. -/
def splitPath : List UInt8 → List (List UInt8) × Option (List UInt8)
  | [] => ([], none)
  | c :: path =>
    if c = 0 then ([], some [])
    else
      match splitPath path with
      | (names, last) =>
        if c = 47 then ([] :: names, last)
        else
          match names with
          | name :: names => ((c :: name) :: names, last)
          | [] => ([], last.map (c :: ·))

def enter (dir : Slot) (b e : Nat) : K Slot := do
  let k ← get
  brelse b
  iput dir
  iget (k.inode dir).iDev (deInode (k.zones.block b) e)

/-- The end of a round of `get_dir`: the entry of this name is entered. -/
def walkInto (inode : Slot) (name : List UInt8) (walk : Slot → K (Option Slot)) :
    K (Option Slot) := do
  match ← findEntry inode name with
  | none =>
    iput inode
    pure none
  | some (b, e) => walk (← enter inode b e)

/-- The loop of `get_dir`; `ended` if the null byte can be read. -/
def walk (cur : TaskNr) (ended : Bool) : List (List UInt8) → Slot → K (Option Slot)
  | names, inode => do
    let m := (← get).inode inode
    if !isDir m.iMode ∨ (← mayAccess cur inode mayExec) = 0 then
      iput inode
      pure none
    else
      match names with
      | [] => if ended then pure (some inode) else throw .killed
      | name :: names => walkInto inode name (walk cur ended names)

def walkFrom (cur : TaskNr) (path : List UInt8) (inode : Slot) : K (Option Slot) := do
  igrab inode
  walk cur (splitPath path).2.isSome (splitPath path).1 inode

/-- `get_dir`; `walkFrom` goes along the path from its start. -/
def getDirWith (walkFrom : List UInt8 → Slot → K (Option Slot)) (cur : TaskNr)
    (path : List UInt8) : K (Option Slot) := do
  let t ← current cur
  let k ← get
  match t.root with
  | none => throw .noRoot
  | some root =>
    if (k.inode root).iCount = 0 then throw .noRoot
    else
      match t.pwd with
      | none => throw .noCwd
      | some pwd =>
        if (k.inode pwd).iCount = 0 then throw .noCwd
        else
          match path with
          | [] => throw .killed
          | c :: rest =>
            if c = 47 then walkFrom rest root
            else if c ≠ 0 then walkFrom path pwd
            else pure none

def getDir (cur : TaskNr) : List UInt8 → K (Option Slot) := getDirWith (walkFrom cur) cur

def dirNamei (cur : TaskNr) (path : List UInt8) : K (Option (Slot × List UInt8)) := do
  match ← getDir cur path with
  | none => pure none
  | some dir =>
    match (splitPath path).2 with
    | none => throw .killed
    | some name => pure (some (dir, name))

/-- `namei` after `dir_namei`. -/
def nameiFrom : Option (Slot × List UInt8) → K (Option Slot)
  | none => pure none
  | some (dir, name) => do
    if name = [] then pure (some dir)
    else
      match ← findEntry dir name with
      | none =>
        iput dir
        pure none
      | some (b, e) =>
        let inode ← enter dir b e
        modifyInode inode fun m => { m with iDirt := true }
        pure (some inode)

def namei (cur : TaskNr) (path : List UInt8) : K (Option Slot) :=
  dirNamei cur path >>= nameiFrom

def openNew (cur : TaskNr) (flag mode : Nat) (dir : Slot) (name : List UInt8) :
    K (Except Int Slot) := do
  if flag &&& oCreat = 0 then
    iput dir
    pure (.error (-enoent))
  else if (← mayAccess cur dir mayWrite) = 0 then
    iput dir
    pure (.error (-eacces))
  else
    match ← newInode ((← get).inode dir).iDev with
    | none =>
      iput dir
      pure (.error (-enospc))
    | some inode =>
      modifyInode inode fun m => { m with iMode := mode, iDirt := true }
      match ← addEntry dir name with
      | none =>
        dropLink inode
        iput inode
        iput dir
        pure (.error (-enospc))
      | some (b, e) =>
        fillEntry b e ((← get).inode inode).iNum
        brelse b
        iput dir
        pure (.ok inode)

def openOld (cur : TaskNr) (flag : Nat) (dir : Slot) (b e : Nat) : K (Except Int Slot) := do
  let k ← get
  let inr := deInode (k.zones.block b) e
  let dev := (k.inode dir).iDev
  brelse b
  iput dir
  if flag &&& oExcl ≠ 0 then pure (.error (-eexist))
  else
    let inode ← iget dev inr
    let m := (← get).inode inode
    if isDir m.iMode ∧ flag &&& oAccmode ≠ 0 ∨
        ((← mayAccess cur inode (accMode flag).toNat) : Int) ≠ accMode flag then
      iput inode
      pure (.error (-eperm))
    else
      doIf (flag &&& oTrunc ≠ 0) (truncate inode)
      pure (.ok inode)

def openNamei (cur : TaskNr) (path : List UInt8) (flag mode : Nat) : K (Except Int Slot) := do
  let flag := if flag &&& oTrunc ≠ 0 ∧ flag &&& oAccmode = 0 then flag ||| oWronly else flag
  let mode := masked mode (← current cur).umask ||| iRegular
  match ← dirNamei cur path with
  | none => pure (.error (-enoent))
  | some (dir, name) =>
    if name = [] then
      if flag &&& (oAccmode ||| oCreat ||| oTrunc) = 0 then pure (.ok dir)
      else
        iput dir
        pure (.error (-eisdir))
    else
      match ← findEntry dir name with
      | none => openNew cur flag mode dir name
      | some (b, e) => openOld cur flag dir b e

def unprivileged (t : Task) : Bool := t.euid != 0 && t.uid != 0

def dotEntries (num parent : Nat) (b : Block) : Block :=
  let dot := setDeInode b 0 num
  let dot := update (update dot 2 46) 3 0
  let dots := setDeInode dot 1 parent
  update (update (update dots 18 46) 19 46) 20 0

def mkdirName (cur : TaskNr) (mode : Nat) (dir inode : Slot) (name : List UInt8) : K Int := do
  let umask := (← current cur).umask
  modifyInode inode fun m => { m with iMode := iDirectory ||| masked mode umask, iDirt := true }
  match ← addEntry dir name with
  | none =>
    iput dir
    freeBlock (((← get).inode inode).iZone 0)
    modifyInode inode fun m => { m with iNlinks := 0 }
    iput inode
    pure (-enospc)
  | some (b, e) =>
    fillEntry b e ((← get).inode inode).iNum
    modifyInode dir fun m => { m with iNlinks := (m.iNlinks + 1) % 256, iDirt := true }
    iput dir
    iput inode
    brelse b
    pure 0

def mkdirNew (cur : TaskNr) (mode : Nat) (dir inode : Slot) (name : List UInt8) : K Int := do
  let now := (← get).now
  modifyInode inode fun m => { m with iSize := 32, iDirt := true, iMtime := now }
  let zone := (← newBlock) % 65536
  modifyInode inode fun m => { m with iZone := update m.iZone 0 zone }
  if zone = 0 then
    iput dir
    dropLink inode
    iput inode
    pure (-enospc)
  else
    modifyInode inode fun m => { m with iDirt := true }
    if ← bread zone then
      let k ← get
      modifyBlock zone (dotEntries (k.inode inode).iNum (k.inode dir).iNum)
      modifyInode inode fun m => { m with iNlinks := 2 }
      brelse zone
      mkdirName cur mode dir inode name
    else
      iput dir
      freeBlock zone
      dropLink inode
      iput inode
      pure (-error)

def sysMkdir (cur : TaskNr) (path : List UInt8) (mode : Nat) : K Int := do
  if unprivileged (← current cur) then pure (-eperm)
  else
    match ← dirNamei cur path with
    | none => pure (-enoent)
    | some (dir, name) =>
      if name = [] then
        iput dir
        pure (-enoent)
      else if (← mayAccess cur dir mayWrite) = 0 then
        iput dir
        pure (-eperm)
      else
        match ← findEntry dir name with
        | some (b, _) =>
          brelse b
          iput dir
          pure (-eexist)
        | none =>
          match ← newInode ((← get).inode dir).iDev with
          | none =>
            iput dir
            pure (-enospc)
          | some inode => mkdirNew cur mode dir inode name

/-- The loop of `empty_dir`. Behind a missing block the buffer is still the one that was given back.
-/
def emptyLoop (inode : Slot) (len : Nat) : (fuel nr b e : Nat) → K Bool
  | 0, _, b, _ => do
    brelse b
    pure true
  | fuel + 1, nr, b, e => do
    if len ≤ nr then
      brelse b
      pure true
    else if e < dirEntriesPerBlock then
      if deInode ((← get).zones.block b) e ≠ 0 then
        brelse b
        pure false
      else emptyLoop inode len fuel (nr + 1) b (e + 1)
    else
      brelse b
      let block ← bmap inode (nr / dirEntriesPerBlock)
      if block = 0 then emptyLoop inode len fuel (nr + dirEntriesPerBlock) b e
      else if ← bread block then
        if deInode ((← get).zones.block block) 0 ≠ 0 then
          brelse block
          pure false
        else emptyLoop inode len fuel (nr + 1) block 1
      else pure false

def goodDirectory (num : Nat) (b : Block) : Bool :=
  deInode b 0 == num && deInode b 1 != 0 && deName b 0 0 == 46 && deName b 0 1 == 0 &&
    deName b 1 0 == 46 && deName b 1 1 == 46 && deName b 1 2 == 0

def emptyDir (inode : Slot) : K Bool := do
  let m := (← get).inode inode
  let len := dirLength m.iSize
  if len < 2 ∨ m.iZone 0 = 0 then pure false
  else if ← bread (m.iZone 0) then
    if goodDirectory m.iNum ((← get).zones.block (m.iZone 0)) then
      emptyLoop inode len len 2 (m.iZone 0) 2
    else pure false
  else pure false

def giveUp (dir inode : Slot) (b : Nat) : K Unit := do
  iput inode
  iput dir
  brelse b

def rmdirFound (dir inode : Slot) (b e : Nat) : K Int := do
  if inode = dir then
    giveUp dir inode b
    pure (-eperm)
  else if !isDir ((← get).inode inode).iMode then
    giveUp dir inode b
    pure (-enotdir)
  else if !(← emptyDir inode) then
    giveUp dir inode b
    pure (-enotempty)
  else
    fillEntry b e 0
    brelse b
    modify fun k => { k with removed := update k.removed (k.inode inode).iNum true }
    modifyInode inode fun m => { m with iNlinks := 0, iDirt := true }
    let now := (← get).now
    modifyInode dir fun m =>
      { m with iNlinks := (m.iNlinks + 255) % 256, iMtime := now, iDirt := true }
    iput dir
    iput inode
    pure 0

def sysRmdir (cur : TaskNr) (path : List UInt8) : K Int := do
  if unprivileged (← current cur) then pure (-eperm)
  else
    match ← dirNamei cur path with
    | none => pure (-enoent)
    | some (dir, name) =>
      if name = [] then
        iput dir
        pure (-enoent)
      else
        match ← findEntry dir name with
        | none =>
          iput dir
          pure (-enoent)
        | some (b, e) =>
          if (← mayAccess cur dir mayWrite) = 0 then
            iput dir
            brelse b
            pure (-eperm)
          else
            let k ← get
            let inode ← iget (k.inode dir).iDev (deInode (k.zones.block b) e)
            rmdirFound dir inode b e

def unlinkFound (dir inode : Slot) (b e : Nat) : K Int := do
  if !isReg ((← get).inode inode).iMode then
    giveUp dir inode b
    pure (-eperm)
  else
    modifyInode inode fun m => { m with iNlinks := if m.iNlinks = 0 then 1 else m.iNlinks }
    fillEntry b e 0
    brelse b
    dropLink inode
    modifyInode inode fun m => { m with iDirt := true }
    iput inode
    iput dir
    pure 0

def sysUnlink (cur : TaskNr) (path : List UInt8) : K Int := do
  match ← dirNamei cur path with
  | none => pure (-enoent)
  | some (dir, name) =>
    if name = [] then
      iput dir
      pure (-enoent)
    else if (← mayAccess cur dir mayWrite) = 0 then
      iput dir
      pure (-eperm)
    else
      match ← findEntry dir name with
      | none =>
        iput dir
        pure (-enoent)
      | some (b, e) =>
        let k ← get
        let inode ← iget (k.inode dir).iDev (deInode (k.zones.block b) e)
        unlinkFound dir inode b e

def linkIn (cur : TaskNr) (oldinode dir : Slot) (name : List UInt8) : K Int := do
  let k ← get
  if (k.inode dir).iDev ≠ (k.inode oldinode).iDev then
    iput dir
    iput oldinode
    pure (-exdev)
  else if (← mayAccess cur dir mayWrite) = 0 then
    iput dir
    iput oldinode
    pure (-eacces)
  else
    match ← findEntry dir name with
    | some (b, _) =>
      brelse b
      iput dir
      iput oldinode
      pure (-eexist)
    | none =>
      match ← addEntry dir name with
      | none =>
        iput dir
        iput oldinode
        pure (-enospc)
      | some (b, e) =>
        fillEntry b e ((← get).inode oldinode).iNum
        brelse b
        iput dir
        modifyInode oldinode fun m =>
          { m with iNlinks := (m.iNlinks + 1) % 256, iDirt := true }
        iput oldinode
        pure 0

def sysLink (cur : TaskNr) (oldname newname : List UInt8) : K Int := do
  match ← namei cur oldname with
  | none => pure (-enoent)
  | some oldinode =>
    if !isReg ((← get).inode oldinode).iMode then
      iput oldinode
      pure (-eperm)
    else
      match ← dirNamei cur newname with
      | none =>
        iput oldinode
        pure (-eacces)
      | some (dir, name) =>
        if name = [] then
          iput oldinode
          iput dir
          pure (-eperm)
        else linkIn cur oldinode dir name

end Linux001.Namei
