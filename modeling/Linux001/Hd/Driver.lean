import Linux001.ProofKit.Sizes

/-! The hard-disk driver of `kernel/hd.c`: the request table, the interrupt routines, and the
controller, which serves one command at a time with one interrupt for each sector. -/

namespace Linux001.Hd

open Function

def nrRequest : Nat := 32

def maxErrors : Nat := 5

def nrHead : Nat := 5

def nrSect : Nat := 17

abbrev Sector := Fin 512 → UInt8

inductive Cmd
  | winRead
  | winWrite
  deriving DecidableEq

structure Request where
  hd : Int
  nsector : Int
  sector : Nat
  head : Nat
  cyl : Nat
  cmd : Cmd
  errors : Nat
  bh : Nat
  next : Option Nat

/-- The fields of `struct buffer_head` used here; `bData k` is a half of `b_data`. -/
structure BufferHead where
  bData : Nat → Sector
  bUptodate : Bool
  bDirt : Bool
  bLock : Bool

inductive Handler
  | readIntr
  | writeIntr
  | doRequest
  deriving DecidableEq

inductive Op
  | read
  | write
  | specify
  deriving DecidableEq

/-- The next sector `lba`, the sectors `left`, and the data `latch` to write. -/
structure Command where
  op : Op
  drive : Int
  lba : Nat
  left : Nat
  latch : Sector

structure Driver where
  request : Nat → Request
  thisRequest : Option Nat
  sorting : Bool
  doHd : Option Handler
  buffer : Nat → BufferHead
  disk : Int → Nat → Sector
  ctl : Option Command

/-- A sector was transferred, an error came, or a command without data ended. -/
inductive Status
  | ok
  | error (left : Sector)
  | ready

/-- An interrupt, and whether `DRQ_STAT` is raised for the next write. -/
structure Intr where
  status : Status
  drq : Bool

namespace Driver

@[simps -fullyApplied]
def setRequest (s : Driver) (r : Nat) (q : Request) : Driver :=
  { s with request := update s.request r q }

@[simps -fullyApplied]
def setBuffer (s : Driver) (b : Nat) (bh : BufferHead) : Driver :=
  { s with buffer := update s.buffer b bh }

end Driver

/-- The sector that `hd_out` addresses, with `sect` one byte and `cyl` two. -/
def startSector (sect head cyl : Nat) : Nat :=
  (cyl % 65536 * nrHead + head) * nrSect + sect % 256 - 1

/-- `hd_out`, with the controller ready; `none` where it panics. The drive number is compared as
unsigned. -/
def hdOut (s : Driver) (drive : Int) (nsect : Int) (sect head cyl : Nat) (op : Op)
    (intr : Handler) : Option Driver :=
  if drive < 0 ∨ 1 < drive ∨ 15 < head then none
  else some { s with
    doHd := some intr
    ctl := some ⟨op, drive, startSector sect head cyl, nsect.toNat, fun _ => 0⟩ }

/-- `reset_hd`, which drops the command and issues `WIN_SPECIFY`. -/
def resetHd (s : Driver) (nr : Int) : Option Driver :=
  hdOut { s with ctl := none } nr nrSect nrSect (nrHead - 1) 977 .specify .doRequest

def portWrite (s : Driver) (data : Sector) : Driver :=
  { s with ctl := s.ctl.map fun c => { c with latch := data } }

/-- The command of `do_request` for `q`; `drq` is what its wait finds. -/
def issue (s : Driver) (q : Request) (drq : Bool) : Option Driver :=
  match q.cmd with
  | .winWrite =>
    (hdOut s q.hd q.nsector q.sector q.head q.cyl .write .writeIntr).bind fun s =>
      if drq then some (portWrite s ((s.buffer q.bh).bData (q.nsector % 2).toNat))
      else resetHd s q.hd
  | .winRead => hdOut s q.hd q.nsector q.sector q.head q.cyl .read .readIntr

def doRequest (s : Driver) (drq : Bool) : Option Driver :=
  if s.sorting then some s
  else
    match s.thisRequest with
    | none => some { s with doHd := none }
    | some r => issue s (s.request r) drq

def badRwIntr (s : Driver) (r : Nat) : Option Driver :=
  let q := s.request r
  let s := s.setRequest r { q with errors := q.errors + 1 }
  if maxErrors ≤ q.errors then
    let s := s.setBuffer q.bh { s.buffer q.bh with bUptodate := false, bLock := false }
    let s := s.setRequest r { s.request r with hd := -1 }
    resetHd { s with thisRequest := q.next } q.hd
  else resetHd s q.hd

/-- The common end of `read_intr` and `write_intr`, without wait queues. -/
def endRequest (s : Driver) (r : Nat) (drq : Bool) : Option Driver :=
  let q := s.request r
  let s := s.setBuffer q.bh
    { s.buffer q.bh with bUptodate := true, bDirt := false, bLock := false }
  let s := s.setRequest r { q with hd := -1 }
  doRequest { s with thisRequest := q.next } drq

def readIntr (s : Driver) (r : Nat) (port : Sector) (drq : Bool) : Option Driver :=
  let q := s.request r
  let b := s.buffer q.bh
  let s := s.setBuffer q.bh { b with bData := update b.bData (q.nsector % 2).toNat port }
  let s := s.setRequest r { q with errors := 0, nsector := q.nsector - 1 }
  if q.nsector - 1 ≠ 0 then some s else endRequest s r drq

def writeIntr (s : Driver) (r : Nat) (drq : Bool) : Option Driver :=
  let q := s.request r
  let s := s.setRequest r { q with nsector := q.nsector - 1 }
  if q.nsector - 1 ≠ 0 then some (portWrite s ((s.buffer q.bh).bData 1))
  else endRequest s r drq

def Command.advance (c : Command) : Option Command :=
  if c.left = 1 then none else some { c with lba := c.lba + 1, left := c.left - 1 }

/-- The command that remains and the disk, `none` for a report that `c` cannot give. -/
def Command.raise (c : Command) (disk : Int → Nat → Sector) :
    Status → Option (Option Command × (Int → Nat → Sector))
  | .ok =>
    match c.op with
    | .read => some (c.advance, disk)
    | .write => some (c.advance, update disk c.drive (update (disk c.drive) c.lba c.latch))
    | .specify => none
  | .error left =>
    match c.op with
    | .read => some (none, disk)
    | .write => some (none, update disk c.drive (update (disk c.drive) c.lba left))
    | .specify => none
  | .ready =>
    match c.op with
    | .specify => some (none, disk)
    | _ => none

def callHandler (s : Driver) (c : Command) (i : Intr) (h : Handler) : Option Driver :=
  match h with
  | .doRequest => doRequest s i.drq
  | .readIntr =>
    s.thisRequest.bind fun r =>
      match i.status with
      | .error _ => badRwIntr s r
      | _ => readIntr s r (s.disk c.drive c.lba) i.drq
  | .writeIntr =>
    s.thisRequest.bind fun r =>
      match i.status with
      | .error _ => badRwIntr s r
      | _ => writeIntr s r i.drq

/-- `hd_interrupt`, which panics with `do_hd` NULL; none comes without a command. -/
def hdInterrupt (s : Driver) (i : Intr) : Option Driver :=
  s.ctl.bind fun c =>
    (c.raise s.disk i.status).bind fun p =>
      s.doHd.bind fun h => callHandler { s with ctl := p.1, disk := p.2 } c i h

end Linux001.Hd
