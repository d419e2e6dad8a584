import Linux001.ProofKit.Bytes
import Linux001.User.VerifyArea

/-! The system calls that store to user memory, as the sequences of their accesses. What a call
reads from the rest of the system is a parameter. -/

namespace Linux001.User

open ProofKit

def sizeofTms : Nat := structSize [(8, 8), (8, 8), (8, 8), (8, 8)]

def sizeofUtsname : Nat := structSize [(9, 1), (9, 1), (9, 1), (9, 1), (9, 1)]

def sizeofStat : Nat :=
  structSize [(2, 2), (2, 2), (2, 2), (1, 1), (2, 2), (1, 1), (2, 2), (8, 8), (8, 8), (8, 8),
    (8, 8)]

def sizeofTermios : Nat := structSize [(8, 8), (8, 8), (8, 8), (8, 8), (1, 1), (17, 1)]

def sizeofTermio : Nat := structSize [(2, 2), (2, 2), (2, 2), (2, 2), (1, 1), (8, 1)]

def sysTime (u : Segments) (tloc : BitVec 64) : List Access :=
  if tloc = 0 then [] else verifyArea u tloc 4 ++ putFsLong u tloc

def sysTimes (u : Segments) (tbuf : BitVec 64) : List Access :=
  if tbuf = 0 then [] else
    verifyArea u tbuf (BitVec.ofNat 32 sizeofTms) ++ putFsLong u tbuf ++ putFsLong u (tbuf + 8) ++
      putFsLong u (tbuf + 16) ++ putFsLong u (tbuf + 24)

def sysUname (u : Segments) (name : BitVec 64) : List Access :=
  if name = 0 then [] else
    verifyArea u name (BitVec.ofNat 32 sizeofUtsname) ++ putBytes u name sizeofUtsname

def cpStat (u : Segments) (statbuf : BitVec 64) : List Access :=
  verifyArea u statbuf (BitVec.ofNat 32 sizeofStat) ++ putBytes u statbuf sizeofStat

structure WaitTask where
  (pid pgrp father : Int)
  zombie : Bool
  deriving DecidableEq

structure Wait where
  (callerPid callerPgrp : Int)
  pid : Int
  wnohang : Bool

def Wait.child (w : Wait) (t : WaitTask) : Bool :=
  (w.pid == -1 || t.pid == w.pid || (w.pid == 0 && t.pgrp == w.callerPgrp) ||
    (decide (w.pid < 0) && t.pgrp == -w.pid)) && t.father == w.callerPid

/-- The rounds of `sys_waitpid`: the tasks from the last, then `sys_pause`. -/
def waitRounds (u : Segments) (w : Wait) (statAddr : BitVec 64) :
    List (List WaitTask × Bool) → List Access
  | [] => []
  | (tasks, interrupted) :: rounds =>
    if tasks.any fun t => w.child t && t.zombie then putFsLong u statAddr
    else if !tasks.any w.child || w.wnohang || interrupted then []
    else waitRounds u w statAddr rounds

/-- A round finds a zombie child before another round returns. -/
def Wait.reaps (w : Wait) : List (List WaitTask × Bool) → Bool
  | [] => false
  | (tasks, interrupted) :: rounds =>
    if tasks.any fun t => w.child t && t.zombie then true
    else if !tasks.any w.child || w.wnohang || interrupted then false
    else w.reaps rounds

def sysWaitpid (u : Segments) (w : Wait) (statAddr : BitVec 64)
    (rounds : List (List WaitTask × Bool)) : List Access :=
  verifyArea u statAddr 4 ++ waitRounds u w statAddr rounds

/-- `sys_pipe` with the file table, the descriptors, and maybe an inode. -/
def sysPipe (u : Segments) (fildes : BitVec 64) (fCount : List Nat) (filp : List Bool)
    (inode : Bool) : List Access :=
  if fCount.count 0 < 2 then []
  else if filp.count false < 2 then []
  else if !inode then []
  else putFsLong u fildes ++ putFsLong u (fildes + 8)

/-- `read_pipe` as compiled: one test, and every round stores a byte. -/
def readPipe (u : Segments) (head tail : Nat) (b : BitVec 64) (count : Nat) : List Access :=
  if head = tail then [] else putBytes u b count

def getTermios (u : Segments) (termios : BitVec 64) : List Access :=
  verifyArea u termios (BitVec.ofNat 32 sizeofTermios) ++ putBytes u termios sizeofTermios

def getTermio (u : Segments) (termio : BitVec 64) : List Access :=
  verifyArea u termio (BitVec.ofNat 32 sizeofTermio) ++ putBytes u termio sizeofTermio

inductive TtyCommand
  | tcgets | tcgeta | tiocgpgrp | tiocoutq
  deriving DecidableEq

def ttyIoctl (u : Segments) (cmd : TtyCommand) (arg : BitVec 64) : List Access :=
  let pointer := (arg.setWidth 32).signExtend 64
  match cmd with
  | .tcgets => getTermios u pointer
  | .tcgeta => getTermio u pointer
  | .tiocgpgrp | .tiocoutq => verifyArea u pointer 4 ++ putFsLong u pointer

/-- The terminal: its mode, end-of-file character and `minimum`. -/
structure Tty where
  canon : Bool
  eof : BitVec 8
  minimum : Nat

def Tty.enough (t : Tty) (got : Nat) : Bool :=
  if t.canon then decide (0 < got) else decide (t.minimum ≤ got)

/-- The inner loop of `tty_read`: the bytes, and whether it returns. -/
def ttyTake (t : Tty) : List (BitVec 8) → Nat → Nat × Bool
  | [], _ => (0, false)
  | _, 0 => (0, false)
  | c :: cs, nr + 1 =>
    if c = t.eof ∧ t.canon then (0, true) else ((ttyTake t cs nr).1 + 1, (ttyTake t cs nr).2)

/-- The call returns after a round that took `taken`. -/
def Tty.returns (t : Tty) (cs : List (BitVec 8)) (taken : Nat × Bool) (got : Nat) : Bool :=
  taken.2 || (!cs.isEmpty && t.enough (got + taken.1))

/-- `tty_read` after `got` bytes: a round returns, sleeps, or takes characters. -/
def ttyRead (u : Segments) (t : Tty) : List (Option (List (BitVec 8))) → BitVec 64 → Nat → Nat →
    List Access
  | [], _, _, _ => []
  | none :: _, _, _, _ => []
  | some cs :: rounds, b, nr, got =>
    if nr = 0 then [] else
      let taken := ttyTake t cs nr
      putBytes u b taken.1 ++
        if t.returns cs taken got then []
        else ttyRead u t rounds (b + BitVec.ofNat 64 taken.1) (nr - taken.1) (got + taken.1)

/-- The number of bytes that `tty_read` takes. -/
def Tty.count (t : Tty) : List (Option (List (BitVec 8))) → Nat → Nat → Nat
  | [], _, _ => 0
  | none :: _, _, _ => 0
  | some cs :: rounds, nr, got =>
    if nr = 0 then 0 else
      let taken := ttyTake t cs nr
      taken.1 + if t.returns cs taken got then 0 else t.count rounds (nr - taken.1) (got + taken.1)

/-- The loop of `block_read` and `file_read` over the blocks from `off` in the first; `ok` says
which can be read, and `left` rounds are enough. -/
def readBlocks (u : Segments) (ok : Nat → Bool) : (rounds block off : Nat) → BitVec 64 → Nat →
    List Access
  | 0, _, _, _, _ => []
  | rounds + 1, block, off, buf, left =>
    if left = 0 ∨ ok block = false then []
    else
      let chars := min (1024 - off) left
      putBytes u buf chars ++
        readBlocks u ok rounds (block + 1) 0 (buf + BitVec.ofNat 64 chars) (left - chars)

/-- The blocks from `block` on that can be read, up to the first that cannot. -/
def okRun (ok : Nat → Bool) : (rounds block : Nat) → Nat
  | 0, _ => 0
  | rounds + 1, block => if ok block then okRun ok rounds (block + 1) + 1 else 0

/-- `block_read` from block `block` on, where `bread` says which blocks can be read. -/
def blockRead (u : Segments) (bread : Nat → Bool) (block : Nat) (buf : BitVec 64) (count : Nat) :
    List Access :=
  readBlocks u bread count block 0 buf count

/-- `bmap` does not panic, and the block has no zone or can be read. -/
def fileBlock (readable : Nat → Bool) (block : Nat) : Bool :=
  decide (block % 2 ^ 32 < 7 + 512 + 512 * 512) && readable (block % 2 ^ 32)

/-- `file_read` of `left` bytes at `pos`, with the `readable` blocks. -/
def fileRead (u : Segments) (readable : Nat → Bool) (pos : Nat) (buf : BitVec 64) (left : Nat) :
    List Access :=
  readBlocks u (fileBlock readable) left (pos / 1024) (pos % 1024) buf left

inductive ReadFile
  /-- a pipe: whether the file is for reading, and head and tail when there is something to read -/
  | pipe (readable : Bool) (contents : Option (Nat × Nat))
  /-- a character device: its number, the terminal of the task, and the rounds of `tty_read` -/
  | chr (dev : BitVec 16) (currentTty : Int) (tty : Tty) (rounds : List (Option (List (BitVec 8))))
  | blk (bread : Nat → Bool) (pos : Nat)
  /-- a directory or a regular file -/
  | reg (size pos : Nat) (readable : Nat → Bool)
  | other

/-- `rw_char` finds a terminal, at the majors 4 and 5, or panics. -/
def isTerminal (dev : BitVec 16) (currentTty : Int) : Bool :=
  let channel : Option Int :=
    if dev.toNat / 256 = 4 then some (dev.toNat % 256)
    else if dev.toNat / 256 = 5 ∧ 0 ≤ currentTty then some currentTty
    else none
  channel.any (· ≤ 2)

/-- `rw_char(READ, ...)`. -/
def rwChar (u : Segments) (dev : BitVec 16) (currentTty : Int) (tty : Tty)
    (rounds : List (Option (List (BitVec 8)))) (buf : BitVec 64) (count : Nat) : List Access :=
  if isTerminal dev currentTty then ttyRead u tty rounds buf count 0 else []

/-- The count for `file_read`: what is left of the file, as an `int`. -/
def clipped (size pos : Nat) (count : Int) : Int :=
  if (size : Int) < count + pos then (BitVec.ofInt 32 (size - pos)).toInt else count

def ReadFile.stores (f : ReadFile) (u : Segments) (buf : BitVec 64) (count : Int) : List Access :=
  match f with
  | .pipe readable contents =>
    match contents with
    | none => []
    | some (head, tail) => if readable then readPipe u head tail buf count.toNat else []
  | .chr dev currentTty tty rounds => rwChar u dev currentTty tty rounds buf count.toNat
  | .blk bread pos => blockRead u bread (pos / 1024) buf count.toNat
  | .reg size pos readable => fileRead u readable pos buf (clipped size pos count).toNat
  | .other => []

/-- The number of bytes that a read of `count` bytes stores. -/
def ReadFile.stored (f : ReadFile) (count : Int) : Nat :=
  match f with
  | .pipe readable contents =>
    if readable ∧ contents.any (fun (head, tail) => head ≠ tail) then count.toNat else 0
  | .chr dev currentTty tty rounds =>
    if isTerminal dev currentTty then tty.count rounds count.toNat 0 else 0
  | .blk bread pos => min count.toNat (1024 * okRun bread count.toNat (pos / 1024))
  | .reg size pos readable =>
    let left := (clipped size pos count).toNat
    min left (1024 * okRun (fileBlock readable) left (pos / 1024) - pos % 1024)
  | .other => 0

def sysRead (u : Segments) (file : Option ReadFile) (buf : BitVec 64) (count : BitVec 32) :
    List Access :=
  match file with
  | none => []
  | some f =>
    if count.toInt ≤ 0 then [] else verifyArea u buf count ++ f.stores u buf count.toInt

theorem ttyRead_eq (u : Segments) (t : Tty) (rounds : List (Option (List (BitVec 8))))
    (b : BitVec 64) (nr got : Nat) :
    ttyRead u t rounds b nr got = putBytes u b (t.count rounds nr got) := by
  induction rounds generalizing b nr got with
  | nil => rfl
  | cons round rounds ih =>
    cases round with
    | none => rfl
    | some cs =>
      rw [ttyRead, Tty.count]
      dsimp only
      split
      · rfl
      · rw [← putBytes_add]
        split
        · rfl
        · rw [ih]

theorem readBlocks_eq (u : Segments) (ok : Nat → Bool) (rounds block off : Nat) (buf : BitVec 64)
    (left : Nat) (hoff : off ≤ 1024) : readBlocks u ok rounds block off buf left =
      putBytes u buf (min left (1024 * okRun ok rounds block - off)) := by
  induction rounds generalizing block off buf left with
  | zero => rw [okRun, Nat.mul_zero, Nat.zero_sub, Nat.min_zero, readBlocks, putBytes]
  | succ rounds ih =>
    rw [readBlocks, okRun]
    by_cases hend : left = 0 ∨ ok block = false
    · rw [if_pos hend]
      rcases hend with rfl | hok
      · rw [Nat.zero_min, putBytes]
      · rw [hok, if_neg (by decide), Nat.mul_zero, Nat.zero_sub, Nat.min_zero, putBytes]
    · rw [if_neg hend, if_pos (by simpa using (not_or.mp hend).2)]
      dsimp only
      rw [ih _ _ _ _ (by decide), putBytes_add]
      congr 1
      omega

theorem ReadFile.stores_eq (f : ReadFile) (u : Segments) (buf : BitVec 64) (count : Int) :
    f.stores u buf count = putBytes u buf (f.stored count) := by
  cases f with
  | pipe readable contents =>
    cases contents with
    | none => cases readable <;> rfl
    | some headTail =>
      cases readable with
      | false => rfl
      | true =>
        by_cases h : headTail.1 = headTail.2 <;>
          simp [ReadFile.stores, ReadFile.stored, readPipe, putBytes, h]
  | chr dev currentTty tty rounds =>
    rw [ReadFile.stores, rwChar, ReadFile.stored]
    split
    · exact ttyRead_eq u tty rounds buf _ 0
    · rfl
  | blk bread pos => exact readBlocks_eq u bread _ _ 0 buf _ (by decide)
  | reg size pos readable =>
    exact readBlocks_eq u (fileBlock readable) _ _ _ buf _ (Nat.mod_lt pos (by decide)).le
  | other => rfl

inductive Call
  | read (file : Option ReadFile) (buf : BitVec 64) (count : BitVec 32)
  | time (tloc : BitVec 64)
  | times (tbuf : BitVec 64)
  | uname (name : BitVec 64)
  | waitpid (w : Wait) (statAddr : BitVec 64) (rounds : List (List WaitTask × Bool))
  | pipe (fildes : BitVec 64) (fCount : List Nat) (filp : List Bool) (inode : Bool)
  | stat (statbuf : BitVec 64)
  | termios (p : BitVec 64)
  | ioctl (cmd : TtyCommand) (arg : BitVec 64)

def Call.accesses (u : Segments) : Call → List Access
  | .read file buf count => sysRead u file buf count
  | .time tloc => sysTime u tloc
  | .times tbuf => sysTimes u tbuf
  | .uname name => sysUname u name
  | .waitpid w statAddr rounds => sysWaitpid u w statAddr rounds
  | .pipe fildes fCount filp inode => sysPipe u fildes fCount filp inode
  | .stat statbuf => cpStat u statbuf
  | .termios p => getTermios u p
  | .ioctl cmd arg => ttyIoctl u cmd arg

/-- Where a call stores, what it passed to `verify_area`, and the bytes stored. -/
structure Area where
  pointer : BitVec 64
  verified : Option (BitVec 32)
  stored : Nat

namespace Area

def accesses (u : Segments) (a : Area) : List Access :=
  (match a.verified with
    | none => []
    | some size => verifyArea u a.pointer size) ++ putBytes u a.pointer a.stored

/-- From the first page that `verify_area` visits on, the stored bytes end no later than the last
one. -/
def Inside (u : Segments) (a : Area) : Prop :=
  a.stored = 0 ∨ ∃ size ∈ a.verified,
    distance u a.pointer + spanned u a.pointer a.stored ≤ visited a.pointer size

-- the search over the sizes of the other instance is over all of `BitVec 32`
instance (u : Segments) (a : Area) : Decidable (a.Inside u) :=
  decidable_of_iff (a.stored = 0 ∨ a.verified.any (fun size =>
      decide (distance u a.pointer + spanned u a.pointer a.stored ≤ visited a.pointer size)) = true)
        <| by
    rw [Inside, Option.any_eq_true]
    simp

theorem verified_iff (u : Segments) (a : Area) : Verified (a.accesses u) ↔ a.Inside u := by
  obtain ⟨pointer, verified, stored⟩ := a
  rcases Nat.eq_zero_or_pos stored with rfl | hpos
  · refine iff_of_true ?_ (.inl rfl)
    cases verified with
    | none => exact verified_nil
    | some size => exact (verified_append_iff _ u pointer 0).mpr fun i hi => absurd hi (by omega)
  cases verified with
  | none =>
    refine iff_of_false (not_verified_putBytes u pointer hpos) ?_
    rintro (h | ⟨size, h, -⟩)
    · exact absurd h (by dsimp only; omega)
    · cases h
  | some size =>
    refine (verified_verifyArea_iff u pointer size hpos).trans ⟨fun h => .inr ⟨size, rfl, h⟩, ?_⟩
    rintro (h | ⟨size', h, hle⟩)
    · exact absurd h (by dsimp only; omega)
    · cases h
      exact hle

end Area

/-- The area of a call that stores a fixed number of bytes or none. -/
def structArea (pointer : BitVec 64) (verified stored : Nat) : Area :=
  ⟨pointer, some (BitVec.ofNat 32 verified), stored⟩

def Call.area : Call → Area
  | .read file buf count =>
    match file with
    | none => ⟨buf, none, 0⟩
    | some f =>
      if count.toInt ≤ 0 then ⟨buf, none, 0⟩
      else ⟨buf, some count, f.stored count.toInt⟩
  | .time tloc => if tloc = 0 then ⟨tloc, none, 0⟩ else structArea tloc 4 8
  | .times tbuf => if tbuf = 0 then ⟨tbuf, none, 0⟩ else structArea tbuf sizeofTms 32
  | .uname name =>
    if name = 0 then ⟨name, none, 0⟩ else structArea name sizeofUtsname sizeofUtsname
  | .waitpid w statAddr rounds =>
    structArea statAddr 4 (if w.reaps rounds then 8 else 0)
  | .pipe fildes fCount filp inode =>
    ⟨fildes, none, if fCount.count 0 < 2 ∨ filp.count false < 2 ∨ !inode then 0 else 16⟩
  | .stat statbuf => structArea statbuf sizeofStat sizeofStat
  | .termios p => structArea p sizeofTermios sizeofTermios
  | .ioctl cmd arg =>
    let pointer := (arg.setWidth 32).signExtend 64
    match cmd with
    | .tcgets => structArea pointer sizeofTermios sizeofTermios
    | .tcgeta => structArea pointer sizeofTermio sizeofTermio
    | .tiocgpgrp | .tiocoutq => structArea pointer 4 8

theorem waitRounds_eq (u : Segments) (w : Wait) (statAddr : BitVec 64)
    (rounds : List (List WaitTask × Bool)) :
    waitRounds u w statAddr rounds = putBytes u statAddr (if w.reaps rounds then 8 else 0) := by
  induction rounds with
  | nil => rfl
  | cons round rounds ih =>
    rw [waitRounds, Wait.reaps]
    split
    · rfl
    · split
      · rfl
      · exact ih

theorem sysPipe_eq (u : Segments) (fildes : BitVec 64) (fCount : List Nat) (filp : List Bool)
    (inode : Bool) : sysPipe u fildes fCount filp inode = putBytes u fildes
      (if fCount.count 0 < 2 ∨ filp.count false < 2 ∨ !inode then 0 else 16) := by
  have hsixteen : putFsLong u fildes ++ putFsLong u (fildes + 8) = putBytes u fildes 16 :=
    putBytes_add u fildes 8 8
  rw [sysPipe, hsixteen, ite_or, ite_or]
  split
  · rfl
  · split
    · rfl
    · cases inode <;> rfl

theorem sysTimes_eq (u : Segments) {tbuf : BitVec 64} (h : tbuf ≠ 0) :
    sysTimes u tbuf = (structArea tbuf sizeofTms 32).accesses u := by
  rw [sysTimes, if_neg h, Area.accesses, structArea]
  rw [← putBytes_add u tbuf 8 24, ← putBytes_add u _ 8 16, ← putBytes_add u _ 8 8]
  simp [putFsLong, BitVec.add_assoc, List.append_assoc]

theorem Call.accesses_eq (u : Segments) (c : Call) : c.accesses u = c.area.accesses u := by
  cases c with
  | read file buf count =>
    cases file with
    | none => rfl
    | some f =>
      rw [Call.accesses, sysRead, Call.area]
      split
      · rfl
      · exact congrArg _ (f.stores_eq u buf count.toInt)
  | time tloc =>
    rw [Call.accesses, sysTime, Call.area]
    split
    · rfl
    · rfl
  | times tbuf =>
    rw [Call.accesses, Call.area]
    split
    · next h => rw [sysTimes, if_pos h]; rfl
    · next h => exact sysTimes_eq u h
  | uname name =>
    rw [Call.accesses, sysUname, Call.area]
    split
    · rfl
    · rfl
  | waitpid w statAddr rounds =>
    exact congrArg _ (waitRounds_eq u w statAddr rounds)
  | pipe fildes fCount filp inode => exact sysPipe_eq u fildes fCount filp inode
  | stat statbuf => rfl
  | termios p => rfl
  | ioctl cmd arg => cases cmd <;> rfl

def flat : Segments := ⟨0, 0⟩

def onePipe : ReadFile := .pipe true (some (1, 0))

def zombieRound : List WaitTask × Bool := ([⟨2, 1, 1, true⟩], false)

end Linux001.User
