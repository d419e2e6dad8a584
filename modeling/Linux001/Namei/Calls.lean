import Linux001.Namei.Names
import Linux001.ProofKit.Runs

/-! The other calls on files and inodes, of `fs/open.c`, `fs/fcntl.c`, `fs/pipe.c`, `fs/stat.c`,
`fs/read_write.c`, `fs/file_dev.c`, `kernel/fork.c` and `kernel/exit.c`, and the machine that runs
them. -/

namespace Linux001.Namei

open Function Fs

def modifyTask (cur : TaskNr) (f : Task → Task) : K Unit :=
  modify fun k => k.setTask cur ((k.task cur).map f)

def modifyFile (f : FileNr) (g : File → File) : K Unit :=
  modify fun k => k.setFile f (g (k.file f))

def setFilp (cur : TaskNr) (fd : Fd) (f : Option FileNr) : K Unit :=
  modifyTask cur fun t => { t with filp := update t.filp fd f }

def setCount (f : FileNr) (n : Nat) : K Unit := modifyFile f fun m => { m with fCount := n }

/-- `current->filp[fd]`, `none` also where the number is too big. -/
def filpOf (t : Task) (fd : Nat) : Option FileNr :=
  if h : fd < 20 then t.filp ⟨fd, h⟩ else none

def freeFds (t : Task) : List Fd := (List.finRange 20).filter fun fd => (t.filp fd).isNone

def freeFiles (k : Kernel) : List FileNr :=
  (List.finRange 64).filter fun f => (k.file f).fCount = 0

def sysClose (cur : TaskNr) (fd : Nat) : K Int := do
  let t ← current cur
  if h : fd < 20 then
    match t.filp ⟨fd, h⟩ with
    | none => pure (-einval)
    | some f =>
      setFilp cur ⟨fd, h⟩ none
      let m := (← get).file f
      if m.fCount = 0 then throw .closeCount
      else
        setCount f (m.fCount - 1)
        if m.fCount - 1 ≠ 0 then pure 0
        else
          iputAny m.fInode
          pure 0
  else pure (-einval)

def dupfd (cur : TaskNr) (fd arg : Nat) : K Int := do
  let t ← current cur
  match filpOf t fd with
  | none => pure (-ebadf)
  | some f =>
    if 20 ≤ arg then pure (-einval)
    else
      match (freeFds t).find? fun fd => arg ≤ fd.val with
      | none => pure (-emfile)
      | some new =>
        setFilp cur new (some f)
        modifyFile f fun m => { m with fCount := m.fCount + 1 }
        pure new.val

def sysDup (cur : TaskNr) (fildes : Nat) : K Int := dupfd cur fildes 0

def sysDup2 (cur : TaskNr) (oldfd newfd : Nat) : K Int := do
  let _ ← sysClose cur newfd
  dupfd cur oldfd newfd

inductive Fcntl
  | dupfd
  | getfl
  | setfl

def sysFcntl (cur : TaskNr) (fd : Nat) (cmd : Fcntl) (arg : Nat) : K Int := do
  match filpOf (← current cur) fd with
  | none => pure (-ebadf)
  | some f =>
    match cmd with
    | .dupfd => dupfd cur fd arg
    | .getfl => pure ((← get).file f).fFlags
    | .setfl =>
      modifyFile f fun m =>
        { m with
          fFlags := (m.fFlags &&& (0o177777 ^^^ (oAppend ||| oNonblock))) |||
            (arg &&& (oAppend ||| oNonblock)) }
      pure 0

def major (dev : Nat) : Nat := dev / 256

def minor (dev : Nat) : Nat := dev % 256

def openFile (cur : TaskNr) (flag : Nat) (fd : Fd) (f : FileNr) (inode : Slot) : K Int := do
  let t ← current cur
  let m := (← get).inode inode
  if isChr m.iMode ∧ major (m.iZone 0) = 5 ∧ t.tty < 0 then
    iput inode
    setFilp cur fd none
    setCount f 0
    pure (-eperm)
  else
    doIf (isChr m.iMode ∧ major (m.iZone 0) = 4 ∧ t.leader ∧ t.tty < 0)
      (modifyTask cur fun t => { t with tty := minor (m.iZone 0) })
    modifyFile f fun _ =>
      { fMode := m.iMode, fFlags := flag % 65536, fCount := 1, fInode := some inode, fPos := 0 }
    pure fd.val

def sysOpen (cur : TaskNr) (path : List UInt8) (flag mode : Nat) : K Int := do
  let t ← current cur
  match freeFds t with
  | [] => pure (-einval)
  | fd :: _ =>
    match freeFiles (← get) with
    | [] => pure (-einval)
    | f :: _ =>
      setFilp cur fd (some f)
      setCount f 1
      match ← openNamei cur path flag (masked mode t.umask) with
      | .error e =>
        setFilp cur fd none
        setCount f 0
        pure e
      | .ok inode => openFile cur flag fd f inode

def sysCreat (cur : TaskNr) (path : List UInt8) (mode : Nat) : K Int :=
  sysOpen cur path (oCreat ||| oTrunc) mode

/-- `times` is the pointer, with the `modtime` that can be read there. -/
def sysUtime (cur : TaskNr) (path : List UInt8) (times : Option (Option Nat)) : K Int := do
  match ← namei cur path with
  | none => pure (-enoent)
  | some inode =>
    let now := (← get).now
    let modtime ←
      match times with
      | none => pure now
      | some none => throw .killed
      | some (some t) => pure t
    modifyInode inode fun m => { m with iMtime := modtime, iDirt := true }
    iput inode
    pure 0

def sysAccess (cur : TaskNr) (path : List UInt8) (mode : Nat) : K Int := do
  let mode := mode &&& 0o7
  match ← namei cur path with
  | none => pure (-eacces)
  | some inode =>
    let res := ((← get).inode inode).iMode &&& 0o777
    iput inode
    let t ← current cur
    let m := (← get).inode inode
    let res := if unprivileged t then res else if res &&& 0o111 ≠ 0 then 0o777 else 0o666
    let res := if t.euid = m.iUid ∨ t.egid = m.iGid then res >>> 6 else res
    if res &&& 0o7 &&& mode = mode then pure 0 else pure (-eacces)

/-- `sys_chdir` and `sys_chroot`, which differ in the field of the task. -/
def changeDir (cur : TaskNr) (path : List UInt8) (old : Task → Option Slot)
    (change : Slot → Task → Task) : K Int := do
  match ← namei cur path with
  | none => pure (-enoent)
  | some inode =>
    if !isDir ((← get).inode inode).iMode then
      iput inode
      pure (-enotdir)
    else
      iputAny (old (← current cur))
      modifyTask cur (change inode)
      pure 0

def sysChdir (cur : TaskNr) (path : List UInt8) : K Int :=
  changeDir cur path Task.pwd fun i t => { t with pwd := some i }

def sysChroot (cur : TaskNr) (path : List UInt8) : K Int :=
  changeDir cur path Task.root fun i t => { t with root := some i }

def sysChmod (cur : TaskNr) (path : List UInt8) (mode : Nat) : K Int := do
  match ← namei cur path with
  | none => pure (-enoent)
  | some inode =>
    let t ← current cur
    let m := (← get).inode inode
    if unprivileged t ∧ t.uid ≠ m.iUid ∧ t.euid ≠ m.iUid then
      iput inode
      pure (-eacces)
    else
      let mode :=
        if unprivileged t then (mode &&& 0o777) ||| (m.iMode &&& 0o7000) else mode &&& 0o7777
      modifyInode inode fun m =>
        { m with iMode := mode ||| (m.iMode &&& 0o170000), iDirt := true }
      iput inode
      pure 0

def sysChown (cur : TaskNr) (path : List UInt8) (uid gid : Nat) : K Int := do
  match ← namei cur path with
  | none => pure (-enoent)
  | some inode =>
    if unprivileged (← current cur) then
      iput inode
      pure (-eacces)
    else
      modifyInode inode fun m =>
        { m with iUid := uid % 65536, iGid := gid % 256, iDirt := true }
      iput inode
      pure 0

/-- `sys_stat`; `buf` tells whether `cp_stat` can write to the buffer. -/
def sysStat (cur : TaskNr) (path : List UInt8) (buf : Bool) : K Int := do
  match ← namei cur path with
  | none => pure (-enoent)
  | some inode =>
    if !buf then throw .killed
    else
      iput inode
      pure 0

/-- `sys_pipe`, with the result of `get_free_page`; `fildes` can be written or not. -/
def sysPipe (cur : TaskNr) (page : Option Nat) (fildes : Bool) : K Int := do
  let t ← current cur
  match freeFiles (← get), freeFds t with
  | f₀ :: f₁ :: _, fd₀ :: fd₁ :: _ =>
    setCount f₀ 1
    setCount f₁ 1
    setFilp cur fd₀ (some f₀)
    setFilp cur fd₁ (some f₁)
    match ← getPipeInode page with
    | none =>
      setFilp cur fd₀ none
      setFilp cur fd₁ none
      setCount f₀ 0
      setCount f₁ 0
      pure (-1)
    | some inode =>
      modifyFile f₀ fun m => { m with fInode := some inode, fPos := 0, fMode := 1 }
      modifyFile f₁ fun m => { m with fInode := some inode, fPos := 0, fMode := 2 }
      if fildes then pure 0 else throw .killed
  | _, _ => pure (-1)

def writeBytes (d : Block) (off : Nat) (l : List UInt8) : Block := fun j =>
  if off ≤ j ∧ j < off + l.length then l.getD (j - off) 0 else d j

/-- The loop of `file_write`: the bytes that were written, and the position. -/
def writeLoop (i : Slot) (count : Nat) :
    (fuel written pos : Nat) → (buf : List UInt8) → K (Nat × Nat)
  | 0, written, pos, _ => pure (written, pos)
  | fuel + 1, written, pos, buf => do
    if count ≤ written then pure (written, pos)
    else
      let block ← createBlock i (pos / 1024)
      if block = 0 then pure (written, pos)
      else if ← bread block then
        let c := min (1024 - pos % 1024) (count - written)
        let k ← get
        doIf ((k.inode i).iSize < pos + c)
          (modifyInode i fun m => { m with iSize := pos + c, iDirt := true })
        modifyBlock block fun d => writeBytes d (pos % 1024) (buf.take c)
        if buf.length < c then throw .killed
        else
          brelse block
          writeLoop i count fuel (written + c) (pos + c) (buf.drop c)
      else pure (written, pos)

def fileWrite (i : Slot) (f : FileNr) (buf : List UInt8) (count : Nat) : K Int := do
  let k ← get
  let append := (k.file f).fFlags &&& oAppend ≠ 0
  let pos := if append then (k.inode i).iSize else (k.file f).fPos
  let (written, pos) ← writeLoop i count count 0 pos buf
  touch i
  doIf (¬append) (modifyFile f fun m => { m with fPos := pos })
  pure (if written = 0 then -1 else written)

/-- `sys_write`. A write to the mounted device leaves its blocks as given; pipes and devices are
elsewhere. -/
def sysWrite (cur : TaskNr) (fd : Nat) (buf : List UInt8) (count : Nat)
    (raw : (Nat → Block) × (Nat → DiskInode)) : K Int := do
  match filpOf (← current cur) fd with
  | none => pure (-einval)
  | some f =>
    if count = 0 then pure 0
    else
      let k ← get
      match (k.file f).fInode with
      | none => throw .nullPointer
      | some i =>
        let m := k.inode i
        if m.iPipe ∨ isChr m.iMode then pure count
        else if isBlk m.iMode then
          doIf (m.iZone 0 = k.dev)
            (set { k with zones := { k.zones with block := raw.1 }, dinode := raw.2 })
          pure count
        else if isReg m.iMode then fileWrite i f buf count
        else pure (-einval)

def grabFile : Option FileNr → K Unit
  | none => pure ()
  | some f => modifyFile f fun m => { m with fCount := m.fCount + 1 }

def igrabAny : Option Slot → K Unit
  | none => pure ()
  | some i => igrab i

/-- `copy_process`, with the pid and whether `get_free_page` and `copy_mem` succeed. Its copy, which
is longer than the page, is taken to reach no other task. -/
def sysFork (cur : TaskNr) (pid : Nat) (page mem : Bool) : K Int := do
  let t ← current cur
  let k ← get
  match (List.finRange 64).find? fun nr => nr ≠ 0 ∧ (k.task nr).isNone with
  | none => pure (-eagain)
  | some nr =>
    if !page ∨ !mem then pure (-eagain)
    else
      (List.finRange 20).forM fun fd => grabFile (t.filp fd)
      igrabAny t.pwd
      igrabAny t.root
      modify fun k =>
        k.setTask nr (some { t with pid, father := t.pid, leader := false, zombie := false })
      pure pid

def finish (cur : TaskNr) (t : Task) : K Unit :=
  if t.father ≠ 0 then modifyTask cur fun t => { t with zombie := true }
  else if cur = 0 then throw .releaseTask
  else modify fun k => k.setTask cur none

def orphan (pid : Nat) (t : Task) : Task := if t.father = pid then { t with father := 0 } else t

def doExit (cur : TaskNr) : K Int := do
  let t ← current cur
  modify fun k => { k with task := fun nr => (k.task nr).map (orphan t.pid) }
  (List.finRange 20).forM fun fd => do
    let t ← current cur
    doIf ((t.filp fd).isSome) (discard (sysClose cur fd.val))
  iputAny (← current cur).pwd
  modifyTask cur fun t => { t with pwd := none }
  iputAny (← current cur).root
  modifyTask cur fun t => { t with root := none }
  finish cur (← current cur)
  pure (-1)

inductive Call
  | open (path : List UInt8) (flag mode : Nat)
  | creat (path : List UInt8) (mode : Nat)
  | close (fd : Nat)
  | dup (fd : Nat)
  | dup2 (oldfd newfd : Nat)
  | fcntl (fd : Nat) (cmd : Fcntl) (arg : Nat)
  | pipe (page : Option Nat) (fildes : Bool)
  | fork (pid : Nat) (page mem : Bool)
  | exit
  | chdir (path : List UInt8)
  | chroot (path : List UInt8)
  | mkdir (path : List UInt8) (mode : Nat)
  | rmdir (path : List UInt8)
  | link (oldname newname : List UInt8)
  | unlink (path : List UInt8)
  | stat (path : List UInt8) (buf : Bool)
  | access (path : List UInt8) (mode : Nat)
  | utime (path : List UInt8) (times : Option (Option Nat))
  | chmod (path : List UInt8) (mode : Nat)
  | chown (path : List UInt8) (uid gid : Nat)
  | write (fd : Nat) (buf : List UInt8) (count : Nat)
      (raw : (Nat → Block) × (Nat → DiskInode))

def Call.exec (cur : TaskNr) : Call → K Int
  | .open path flag mode => sysOpen cur path flag mode
  | .creat path mode => sysCreat cur path mode
  | .close fd => sysClose cur fd
  | .dup fd => sysDup cur fd
  | .dup2 oldfd newfd => sysDup2 cur oldfd newfd
  | .fcntl fd cmd arg => sysFcntl cur fd cmd arg
  | .pipe page fildes => sysPipe cur page fildes
  | .fork pid page mem => sysFork cur pid page mem
  | .exit => doExit cur
  | .chdir path => sysChdir cur path
  | .chroot path => sysChroot cur path
  | .mkdir path mode => sysMkdir cur path mode
  | .rmdir path => sysRmdir cur path
  | .link oldname newname => sysLink cur oldname newname
  | .unlink path => sysUnlink cur path
  | .stat path buf => sysStat cur path buf
  | .access path mode => sysAccess cur path mode
  | .utime path times => sysUtime cur path times
  | .chmod path mode => sysChmod cur path mode
  | .chown path uid gid => sysChown cur path uid gid
  | .write fd buf count raw => sysWrite cur fd buf count raw

structure Event where
  cur : TaskNr
  call : Call
  now : Nat
  stale : Nat → Block
  failures : List Bool
  strays : List Stray

def Kernel.start (k : Kernel) (e : Event) : Kernel :=
  { k with
    now := e.now
    stale := e.stale
    failures := e.failures
    strays := e.strays
    freed := [] }

/-- The call returns or its task ends in it; no step where the kernel panics. -/
def step (k : Kernel) (e : Event) : Option Kernel :=
  match k.task e.cur with
  | none => none
  | some t =>
    if t.zombie then none
    else
      match e.call.exec e.cur (k.start e) with
      | .ok _ k' => some k'
      | .error .killed k' =>
        match doExit e.cur k' with
        | .ok _ k'' => some k''
        | .error _ _ => none
      | .error _ _ => none

def Terminated (path : List UInt8) : Prop := (splitPath path).2.isSome = true

instance (path : List UInt8) : Decidable (Terminated path) := inferInstanceAs (Decidable (_ = _))

def Call.Accessible : Call → Prop
  | .open path _ _ | .creat path _ | .chdir path | .chroot path | .mkdir path _ | .rmdir path
  | .unlink path | .access path _ | .chmod path _ | .chown path _ _ => Terminated path
  | .link oldname newname => Terminated oldname ∧ Terminated newname
  | .stat path buf => Terminated path ∧ buf = true
  | .utime path times => Terminated path ∧ times ≠ some none
  | .pipe _ fildes => fildes = true
  | .write _ buf count _ => count ≤ buf.length
  | .close _ | .dup _ | .dup2 _ _ | .fcntl .. | .fork .. | .exit => True

instance : (call : Call) → Decidable call.Accessible
  | .open path _ _ | .creat path _ | .chdir path | .chroot path | .mkdir path _ | .rmdir path
  | .unlink path | .access path _ | .chmod path _ | .chown path _ _ =>
    inferInstanceAs (Decidable (Terminated path))
  | .link oldname newname => inferInstanceAs (Decidable (Terminated oldname ∧ Terminated newname))
  | .stat path buf => inferInstanceAs (Decidable (Terminated path ∧ buf = true))
  | .utime path times => inferInstanceAs (Decidable (Terminated path ∧ times ≠ some none))
  | .pipe _ fildes => inferInstanceAs (Decidable (fildes = true))
  | .write _ buf count _ => inferInstanceAs (Decidable (count ≤ buf.length))
  | .close _ | .dup _ | .dup2 _ _ | .fcntl .. | .fork .. | .exit => inferInstanceAs (Decidable True)

/-- The super block of a disk with 16 inodes and 20 zones of data. -/
def smallSuper : SuperBlock where
  sNinodes := 16
  sNzones := 30
  sImapBlocks := 1
  sZmapBlocks := 1
  sFirstdatazone := 10
  ninodes_lt := by decide
  nzones_lt := by decide
  layout := by decide

def rootInode : DiskInode where
  iMode := 0o040755
  iUid := 0
  iSize := 32
  iGid := 0
  iNlinks := 2
  iZone := fun n => if n = 0 then 10 else 0
  iMtime := 0

def shell : Task where
  filp := fun _ => none
  pwd := some 0
  root := some 0
  uid := 0
  euid := 0
  gid := 0
  egid := 0
  umask := 0
  leader := true
  tty := 0
  pid := 2
  father := 1
  zombie := false

/-- The state after `mount_root` of a disk with the root directory only. -/
def mounted : Kernel where
  zones :=
    { sb := smallSuper
      zmap := fun n => if n = 0 then some fun w => if w = 0 then 3 else 0 else none
      block := fun n => if n = 10 then dotEntries 1 1 clearBlock else clearBlock
      count := fun _ => 0 }
  imap := fun n => if n = 0 then some fun w => if w = 0 then 3 else 0 else none
  dinode := fun _ => rootInode
  dev := 0x301
  inode := update (fun _ => cleared) 0
    ({ cleared with iDev := 0x301, iNum := 1, iCount := 4 }.load rootInode)
  last := 0
  file := fun _ => { fMode := 0, fFlags := 0, fCount := 0, fInode := none, fPos := 0 }
  task := update (fun _ => none) 2 (some shell)
  sIsup := some 0
  sImount := some 0
  now := 0
  stale := fun _ => clearBlock
  failures := []
  strays := []
  freed := []
  removed := fun _ => false

def calls (call : Call) : Event where
  cur := 2
  call := call
  now := 1
  stale := fun _ => clearBlock
  failures := []
  strays := []

end Linux001.Namei
