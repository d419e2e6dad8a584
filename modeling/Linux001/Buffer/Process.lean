import Linux001.Buffer.Cache

/-! The processes that use the buffer cache, in small steps. Another process runs only where one
sleeps: in `wait_on_buffer`, on the request table of the driver, or on `buffer_wait`. -/

namespace Linux001.Buffer

open Function

def nrTasks : Nat := 64

inductive Call
  | getHashTable
  | getblk
  | bread
  deriving DecidableEq

structure Request where
  call : Call
  dev : Nat
  block : Nat
  deriving DecidableEq

/-- Where `ll_rw_block` returns to: `sync_dev` of a `getblk`, or `bread`. -/
inductive Return
  | syncDev (r : Request) (tmp dev i : Nat)
  | bread (r : Request)
  deriving DecidableEq

inductive Pc
  /-- Outside the buffer cache. -/
  | idle
  /-- At `repeat` in `get_hash_table`. -/
  | find (r : Request)
  /-- In `get_hash_table`, waiting for `bh`. -/
  | waitHash (r : Request) (bh : Nat)
  /-- In the `brelse` of `get_hash_table`. -/
  | releaseHash (r : Request) (bh : Nat)
  /-- At the head of the loop of `getblk` over the free list. -/
  | scan (r : Request) (tmp : Nat)
  /-- In that loop, waiting for `tmp`. -/
  | waitScan (r : Request) (tmp : Nat)
  /-- Sleeping on `buffer_wait`. -/
  | sleep (r : Request)
  /-- At the head of the loop of `sync_dev`. -/
  | sync (r : Request) (tmp dev i : Nat)
  /-- In that loop, waiting for buffer `i`. -/
  | waitSync (r : Request) (tmp dev i : Nat)
  /-- In `rw_abs_hd`, with `bh` locked, looking for a free request. -/
  | rwRequest (rw : Rw) (bh : Nat) (k : Return)
  /-- At the end of `rw_abs_hd`, waiting for `bh`. -/
  | waitRw (bh : Nat) (k : Return)
  /-- After `sync_dev`. -/
  | assign (r : Request) (tmp : Nat)
  /-- In the `brelse` that the process or `bread` calls. -/
  | release (bh : Nat)
  deriving DecidableEq

structure Process where
  pc : Pc
  refs : List Nat
  deriving DecidableEq

structure State (α : Type) where
  cache : Cache α
  process : Nat → Process
  current : Option Nat

variable {α : Type}

namespace State

def goto (s : State α) (p : Nat) (c : Cache α) (pc : Pc) : State α :=
  { s with cache := c, process := update s.process p { s.process p with pc := pc } }

def give (s : State α) (p : Nat) (c : Cache α) (bh : Nat) : State α :=
  { s with cache := c, process := update s.process p ⟨.idle, bh :: (s.process p).refs⟩ }

end State

def afterRw (s : State α) (p bh : Nat) : Return → State α
  | .syncDev r tmp dev i => s.goto p s.cache (.sync r tmp dev (i + 1))
  | .bread _ =>
    if s.cache.bUptodate bh then s.give p s.cache bh else s.goto p s.cache (.release bh)

/-- `ll_rw_block`, `rw_hd` and `rw_abs_hd` up to the search for a request. Major 3 is the only block
device. -/
def llRwBlock (s : State α) (p : Nat) (rw : Rw) (bh : Nat) (k : Return) : Option (State α) :=
  if s.cache.bDev bh / 256 ≠ 3 then none
  else if inRange s.cache bh then
    some (s.goto p { s.cache with bLock := update s.cache.bLock bh true } (.rwRequest rw bh k))
  else some (afterRw s p bh k)

/-- The process after `get_hash_table` or `getblk` has found `bh`. -/
def afterGet (s : State α) (p : Nat) (r : Request) (bh : Nat) : Option (State α) :=
  if r.call = .bread ∧ s.cache.bUptodate bh = false then llRwBlock s p .read bh (.bread r)
  else some (s.give p s.cache bh)

def scanNext (c : Cache α) (r : Request) (tmp : Nat) : Pc :=
  if c.queues.bNextFree tmp = c.queues.freeList then .sleep r
  else .scan r (c.queues.bNextFree tmp)

def assignStep (s : State α) (p : Nat) (r : Request) (tmp : Nat) : Option (State α) :=
  let c := assignBuffer s.cache tmp r.dev r.block
  if findBuffer c r.dev r.block ≠ none then some (s.goto p (giveUp c tmp) (.find r))
  else afterGet { s with cache := insertIntoQueues c tmp } p r tmp

/-- One step of process `p`, `none` where it sleeps, panics or has nothing to do. -/
def stepProcess (s : State α) (p : Nat) : Option (State α) :=
  let c := s.cache
  match (s.process p).pc with
  | .idle => none
  | .find r =>
    match findBuffer c r.dev r.block with
    | some bh => some (s.goto p (countUp c bh) (.waitHash r bh))
    | none =>
      if r.call = .getHashTable then some (s.goto p c .idle)
      else some (s.goto p c (.scan r c.queues.freeList))
  | .waitHash r bh =>
    if c.bLock bh then none
    else if c.bDev bh ≠ r.dev ∨ c.bBlocknr bh ≠ r.block then some (s.goto p c (.releaseHash r bh))
    else afterGet s p r bh
  | .releaseHash r bh =>
    if c.bLock bh then none else (countDown c bh).map fun c => s.goto p c (.find r)
  | .scan r tmp =>
    if c.bCount tmp = 0 then some (s.goto p c (.waitScan r tmp))
    else some (s.goto p c (scanNext c r tmp))
  | .waitScan r tmp =>
    if c.bLock tmp then none
    else if c.bCount tmp = 0 then
      if c.bDirt tmp then some (s.goto p (takeBuffer c tmp) (.sync r tmp (c.bDev tmp) 0))
      else some (s.goto p (takeBuffer c tmp) (.assign r tmp))
    else some (s.goto p c (scanNext c r tmp))
  | .sleep r => some (s.goto p c (.find r))
  | .sync r tmp dev i =>
    if i < c.nrBuffers then
      if c.bDev i ≠ dev then some (s.goto p c (.sync r tmp dev (i + 1)))
      else some (s.goto p c (.waitSync r tmp dev i))
    else some (s.goto p c (.assign r tmp))
  | .waitSync r tmp dev i =>
    if c.bLock i then none
    else if c.bDirt i then llRwBlock s p .write i (.syncDev r tmp dev i)
    else some (s.goto p c (.sync r tmp dev (i + 1)))
  | .rwRequest rw bh k =>
    if nrPending c < nrRequest then
      some (s.goto p { c with pending := update c.pending bh (some rw) } (.waitRw bh k))
    else none
  | .waitRw bh k => if c.bLock bh then none else some (afterRw s p bh k)
  | .assign r tmp => assignStep s p r tmp
  | .release bh =>
    if c.bLock bh then none else (countDown c bh).map fun c => s.goto p c .idle

def asleep (s : State α) (p : Nat) : Bool :=
  match (s.process p).pc with
  | .waitHash _ bh | .releaseHash _ bh | .waitScan _ bh | .waitSync _ _ _ bh | .waitRw bh _
  | .release bh => s.cache.bLock bh
  | .rwRequest .. => nrRequest ≤ nrPending s.cache
  | .sleep _ => true
  | _ => false

/-- A call, the change of a buffer, a step, a preemption, or the end of a request. -/
inductive Event (α : Type)
  | call (p : Nat) (r : Request)
  | brelse (p bh : Nat)
  | change (p bh : Nat) (data : α) (uptodate dirt : Bool)
  | run (p : Nat)
  | leave (p : Nat)
  | intr (bh : Nat) (o : Outcome α)

def mayRun (s : State α) (p : Nat) : Prop :=
  p < nrTasks ∧ (s.current = none ∨ s.current = some p)

instance (s : State α) (p : Nat) : Decidable (mayRun s p) :=
  inferInstanceAs (Decidable (_ ∧ _))

def reschedule (s : State α) (p : Nat) : State α :=
  { s with current := if asleep s p then none else some p }

/-- A process holds at most three buffers, the one that it is getting included. -/
def maxRefs : Nat := 3

def step (s : State α) : Event α → Option (State α)
  | .call p r =>
    if mayRun s p ∧ (s.process p).pc = .idle ∧ (s.process p).refs.length < maxRefs ∧
        r.dev < 65536 ∧ r.block < 65536 then
      some (reschedule (s.goto p s.cache (.find r)) p)
    else none
  | .brelse p bh =>
    if mayRun s p ∧ (s.process p).pc = .idle ∧ bh ∈ (s.process p).refs then
      some (reschedule { s with
        process := update s.process p ⟨.release bh, (s.process p).refs.erase bh⟩ } p)
    else none
  | .change p bh data uptodate dirt =>
    if mayRun s p ∧ (s.process p).pc = .idle ∧ bh ∈ (s.process p).refs then
      some (reschedule { s with
        cache := { s.cache with
          bData := update s.cache.bData bh data
          bUptodate := update s.cache.bUptodate bh uptodate
          bDirt := update s.cache.bDirt bh dirt } } p)
    else none
  | .run p => if mayRun s p then (stepProcess s p).map fun t => reschedule t p else none
  | .leave p =>
    if s.current = some p ∧ (s.process p).pc = .idle then some { s with current := none } else none
  | .intr bh o => (endRequest s.cache bh o).map fun c => { s with cache := c }

end Linux001.Buffer
