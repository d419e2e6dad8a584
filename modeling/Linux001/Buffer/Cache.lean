import Linux001.ProofKit.DoublyLinked

/-! The buffer cache of `fs/buffer.c`: the buffer heads, the hash table and the free list, with the
parts of `getblk`, `brelse` and the disk driver that run without sleeping. -/

namespace Linux001.Buffer

open Function ProofKit

def nrHash : Nat := 307

/-- `NR_REQUEST`, the number of requests that the disk driver can hold. -/
def nrRequest : Nat := 32

inductive Rw
  | read
  | write
  deriving DecidableEq

/-- The hash table and the free list. Pointers are indices from `start_buffer` on. -/
structure Queues where
  bPrev : Nat → Option Nat
  bNext : Nat → Option Nat
  hashTable : Nat → Option Nat
  bPrevFree : Nat → Nat
  bNextFree : Nat → Nat
  freeList : Nat

/-- The buffers, one function for each field of `struct buffer_head`; `pending` is the driver's
request for a buffer, `nrSects` the sectors of a minor device. -/
structure Cache (α : Type) where
  nrBuffers : Nat
  queues : Queues
  bDev : Nat → Nat
  bBlocknr : Nat → Nat
  bUptodate : Nat → Bool
  bDirt : Nat → Bool
  bCount : Nat → Nat
  bLock : Nat → Bool
  bData : Nat → α
  pending : Nat → Option Rw
  disk : Nat → Nat → α
  nrSects : Nat → Nat

def hashfn (dev block : Nat) : Nat := (dev ^^^ block) % nrHash

namespace Queues

/-- The part of `remove_from_queues` for the hash queue, with the hash value `h`. -/
def removeHash (q : Queues) (h bh : Nat) : Queues :=
  let q := { q with bPrev := store q.bPrev (q.bNext bh) (q.bPrev bh) }
  let q := { q with bNext := store q.bNext (q.bPrev bh) (q.bNext bh) }
  { q with
    hashTable := update q.hashTable h
      (if q.hashTable h = some bh then q.bNext bh else q.hashTable h) }

def removeFree (q : Queues) (bh : Nat) : Queues :=
  let q := { q with bNextFree := update q.bNextFree (q.bPrevFree bh) (q.bNextFree bh) }
  let q := { q with bPrevFree := update q.bPrevFree (q.bNextFree bh) (q.bPrevFree bh) }
  { q with freeList := if q.freeList = bh then q.bNextFree bh else q.freeList }

def insertFree (q : Queues) (bh : Nat) : Queues :=
  let q := { q with bNextFree := update q.bNextFree bh q.freeList }
  let q := { q with bPrevFree := update q.bPrevFree bh (q.bPrevFree q.freeList) }
  let q := { q with bNextFree := update q.bNextFree (q.bPrevFree q.freeList) bh }
  { q with bPrevFree := update q.bPrevFree q.freeList bh }

/-- The part of `insert_into_queues` for the hash queue, with the hash value `h`. -/
def insertHash (q : Queues) (dev h bh : Nat) : Queues :=
  let q := { q with bPrev := update q.bPrev bh none }
  let q := { q with bNext := update q.bNext bh none }
  if dev = 0 then q
  else
    let q := { q with bNext := update q.bNext bh (q.hashTable h) }
    let q := { q with hashTable := update q.hashTable h (some bh) }
    { q with bPrev := store q.bPrev (q.bNext bh) (some bh) }

end Queues

variable {α : Type}

def Cache.hashOf (c : Cache α) (bh : Nat) : Nat := hashfn (c.bDev bh) (c.bBlocknr bh)

def removeFromQueues (c : Cache α) (bh : Nat) : Cache α :=
  { c with queues := (c.queues.removeHash (c.hashOf bh) bh).removeFree bh }

def insertIntoQueues (c : Cache α) (bh : Nat) : Cache α :=
  { c with queues := (c.queues.insertFree bh).insertHash (c.bDev bh) (c.hashOf bh) bh }

def findLoop (c : Cache α) (dev block : Nat) : Nat → Option Nat → Option Nat
  | _, none => none
  | 0, some _ => none
  | n + 1, some tmp =>
    if c.bDev tmp = dev ∧ c.bBlocknr tmp = block then some tmp
    else findLoop c dev block n (c.queues.bNext tmp)

def findBuffer (c : Cache α) (dev block : Nat) : Option Nat :=
  findLoop c dev block c.nrBuffers (c.queues.hashTable (hashfn dev block))

/-- `b_count++`, on an unsigned char. -/
def countUp (c : Cache α) (bh : Nat) : Cache α :=
  { c with bCount := update c.bCount bh ((c.bCount bh + 1) % 256) }

/-- `brelse` after its wait.  The result is `none` where it panics. -/
def countDown (c : Cache α) (bh : Nat) : Option (Cache α) :=
  if c.bCount bh = 0 then none
  else some { c with bCount := update c.bCount bh (c.bCount bh - 1) }

def takeBuffer (c : Cache α) (tmp : Nat) : Cache α :=
  removeFromQueues (countUp c tmp) tmp

def assignBuffer (c : Cache α) (tmp dev block : Nat) : Cache α :=
  { c with
    bDev := update c.bDev tmp dev
    bBlocknr := update c.bBlocknr tmp block
    bDirt := update c.bDirt tmp false
    bUptodate := update c.bUptodate tmp false }

def giveUp (c : Cache α) (tmp : Nat) : Cache α :=
  insertIntoQueues
    { c with
      bDev := update c.bDev tmp 0
      bBlocknr := update c.bBlocknr tmp 0
      bCount := update c.bCount tmp 0 } tmp

/-- The check at the head of `rw_hd`: the block, of two sectors, is on its device. -/
def inRange (c : Cache α) (bh : Nat) : Prop :=
  c.bBlocknr bh * 2 + 2 ≤ c.nrSects (c.bDev bh % 256)

instance (c : Cache α) (bh : Nat) : Decidable (inRange c bh) := Nat.decLe ..

def nrPending (c : Cache α) : Nat :=
  (List.range c.nrBuffers).countP fun bh => (c.pending bh).isSome

/-- A request ends with success, or with an error that leaves some contents. -/
inductive Outcome (α : Type)
  | ok
  | failed (left : α)

def endRequest (c : Cache α) (bh : Nat) (o : Outcome α) : Option (Cache α) :=
  (c.pending bh).map fun rw =>
    let data : α := match o with
      | .ok => match rw with
        | .read => c.disk (c.bDev bh) (c.bBlocknr bh)
        | .write => c.bData bh
      | .failed left => left
    let c := match rw with
      | .read => { c with bData := update c.bData bh data }
      | .write =>
        { c with
          disk := update c.disk (c.bDev bh)
            (update (c.disk (c.bDev bh)) (c.bBlocknr bh) data) }
    let c := match o with
      | .ok => { c with bUptodate := update c.bUptodate bh true, bDirt := update c.bDirt bh false }
      | .failed _ => { c with bUptodate := update c.bUptodate bh false }
    { c with bLock := update c.bLock bh false, pending := update c.pending bh none }

/-- `buffer_init`, for the number of buffers that fit. -/
def bufferInit (c : Cache α) (n : Nat) : Cache α :=
  { c with
    nrBuffers := n
    queues :=
      { bPrev := fun _ => none
        bNext := fun _ => none
        hashTable := fun _ => none
        bPrevFree := fun bh => if bh = 0 then n - 1 else bh - 1
        bNextFree := fun bh => if bh = n - 1 then 0 else bh + 1
        freeList := 0 }
    bDev := fun _ => 0
    bDirt := fun _ => false
    bCount := fun _ => 0
    bLock := fun _ => false
    bUptodate := fun _ => false }

end Linux001.Buffer
