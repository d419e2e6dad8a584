import Linux001.Fs.ByteFiles

/-! `sys_lseek`, `sys_read` and `sys_write` of `fs/read_write.c`, in the integer types of the
source: a position is a `long`, a size an `unsigned long`, a count and the number of a block an
`int`. -/

namespace Linux001.Fs.ReadWrite

open Function ProofKit ProofKit.Forest

def toInt (x : Int) : Int := x.bmod (2 ^ 32)

def toLong (x : Int) : Int := x.bmod (2 ^ 64)

def toUlong (x : Int) : Int := x % 2 ^ 64

def ebadf : Int := 9
def einval : Int := 22
def espipe : Int := 29

def nrOpen : Nat := 20

def major (dev : Nat) : Nat := dev / 256

def isBlockdev (major : Nat) : Bool := major == 2 || major == 3

def isChr (mode : Nat) : Bool := mode &&& 0o170000 == 0o020000

def isBlk (mode : Nat) : Bool := mode &&& 0o170000 == 0o060000

structure File extends Filp where
  fMode : Nat
  fInode : Nat

structure Process where
  files : Files Nat
  file : Nat → File
  filp : Nat → Option Nat

namespace Process

def lookup (s : Process) (fd : Nat) : Option Nat := if nrOpen ≤ fd then none else s.filp fd

def setFilp (s : Process) (k : Nat) (filp : Filp) : Process :=
  { s with file := update s.file k { s.file k with toFilp := filp } }

end Process

def seekTo (pos size : Nat) (offset origin : Int) : Option Nat :=
  if origin = 0 then
    if offset < 0 then none else some offset.toNat
  else if origin = 1 then
    let pos := toLong (pos + offset)
    if pos < 0 then none else some pos.toNat
  else if origin = 2 then
    let tmp := toInt (toUlong (size + offset))
    if tmp < 0 then none else some tmp.toNat
  else none

def sysLseek (s : Process) (fd : Nat) (offset origin : Int) : Process × Int :=
  match s.lookup fd with
  | none => (s, -ebadf)
  | some k =>
    let inode := s.files.inode (s.file k).fInode
    if !isBlockdev (major inode.iDev) then (s, -ebadf)
    else if inode.iPipe then (s, -espipe)
    else
      match seekTo (s.file k).fPos inode.iSize offset origin with
      | none => (s, -einval)
      | some pos => (s.setFilp k { (s.file k).toFilp with fPos := pos }, toInt pos)

def bmapInt (create : Bool) (inode : Inode) (block : Int) : ZoneM (Inode × Nat) :=
  if block < 0 then throw .blockNegative else bmap' create inode block.toNat

/-- The block of a file, whose number becomes an `int` for `bmap`. -/
def blockOf (create : Bool) (inode : Inode) (block : Nat) : ZoneM (Inode × Nat) :=
  bmapInt create inode (toInt block)

def fileRead (inode : Inode) (filp : Filp) (count : Int) : ZoneM (Filp × List UInt8 × Int) :=
  fileReadBy (blockOf false) inode filp count

def fileWrite (inode : Inode) (filp : Filp) (buf : Nat → UInt8) (count : Int) :
    ZoneM (Inode × Filp × Int) := fileWriteBy (blockOf true) inode filp buf count

/-- `read_pipe`, `rw_char` and `block_read`, or their counterparts for writing. -/
abbrev Devices := Process → Nat → Int → Except Panic (Process × Int × List UInt8)

/-- `count + f_pos` is compared unsigned, and the difference stored in an `int`. -/
def clampCount (count : Int) (pos size : Nat) : Int :=
  if (size : Int) < toUlong (toLong (count + pos)) then toInt (toUlong (size - pos)) else count

/-- `sys_read` for files and directories: process, result and bytes. -/
def readFile (s : Process) (k : Nat) (count : Int) : Except Panic (Process × Int × List UInt8) :=
  if count ≤ 0 then .ok (s, 0, [])
  else
    match fileRead (s.files.inode (s.file k).fInode) (s.file k).toFilp count s.files.zones with
    | .ok (filp, bytes, ret) z =>
      .ok ({ s with files := { s.files with zones := z } }.setFilp k filp, ret, bytes)
    | .error e _ => .error e

def sysRead (devices : Devices) (s : Process) (fd : Nat) (count : Int) :
    Except Panic (Process × Int × List UInt8) :=
  match s.lookup fd with
  | none => .ok (s, -einval, [])
  | some k =>
    let inode := s.files.inode (s.file k).fInode
    if count < 0 then .ok (s, -einval, [])
    else if count = 0 then .ok (s, 0, [])
    else if inode.iPipe || isChr inode.iMode || isBlk inode.iMode then devices s k count
    else if isDir inode.iMode || isReg inode.iMode then
      readFile s k (clampCount count (s.file k).fPos inode.iSize)
    else .ok (s, -einval, [])

def writeFile (s : Process) (k : Nat) (buf : Nat → UInt8) (count : Int) :
    Except Panic (Process × Int) :=
  let i := (s.file k).fInode
  match fileWrite (s.files.inode i) (s.file k).toFilp buf count s.files.zones with
  | .ok (inode, filp, ret) z =>
    .ok ({ s with files := ⟨z, update s.files.inode i inode⟩ }.setFilp k filp, ret)
  | .error e _ => .error e

def sysWrite (devices : Devices) (s : Process) (fd : Nat) (buf : Nat → UInt8) (count : Int) :
    Except Panic (Process × Int) :=
  match s.lookup fd with
  | none => .ok (s, -einval)
  | some k =>
    let inode := s.files.inode (s.file k).fInode
    if count < 0 then .ok (s, -einval)
    else if count = 0 then .ok (s, 0)
    else if inode.iPipe || isChr inode.iMode || isBlk inode.iMode then
      (devices s k count).map fun p => (p.1, p.2.1)
    else if isReg inode.iMode then writeFile s k buf count
    else .ok (s, -einval)

end Linux001.Fs.ReadWrite
