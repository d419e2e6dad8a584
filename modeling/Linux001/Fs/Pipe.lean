import Linux001.ProofKit.RingBuffer
import Linux001.ProofKit.Runs

/-! `read_pipe` and `write_pipe` of `fs/pipe.c`, called by any number of processes and interleaved
where they sleep. `read_pipe` stores the byte at the tail once for each byte that it is asked for.
-/

namespace Linux001.Pipe

open Function ProofKit

/-- The memory of a process at `buf`: the bytes, and which of them can be accessed. -/
structure UserBuf where
  byte : Nat → UInt8
  mapped : Nat → Bool

/-- A process is outside, or sleeps in a call with `left` bytes to go. -/
inductive Proc
  | idle
  | reading (count : Int) (buf : UserBuf)
  | writing (count : Int) (buf : UserBuf) (left b : Nat)

/-- A return, with the bytes `moved` and the value `peers` of `i_count`. -/
structure Return (ι : Type*) where
  process : ι
  write : Bool
  count : Int
  value : Int
  moved : Nat
  peers : BitVec 16

/-- The pipe inode and the processes; `stored` and `taken` record the bytes, and `since` their
number at the start of a call. -/
structure State (ι : Type*) where
  ring : RingBuffer UInt8 4096
  iCount : BitVec 16
  proc : ι → Proc
  stored : List (ι × UInt8)
  taken : List (ι × UInt8)
  since : ι → Nat
  returns : List (Return ι)

/-- How a call goes on: it returns, sleeps, or its process ends in a page fault. -/
inductive Outcome
  | returns (value : Int)
  | sleeps (left b : Nat)
  | killed

variable {ι : Type*} {s' : State ι} {o : Outcome} {write : Bool} {count : Int}
  {asleep : Nat → Nat → Proc}

namespace State

/-- `PIPE_EMPTY`. -/
def empty (s : State ι) : Bool := s.ring.head = s.ring.tail

/-- `PIPE_FULL`. -/
def full (s : State ι) : Bool := s.ring.size = 4095

/-- The byte `x` goes to the process `p`, and `INC_PIPE` advances the tail. -/
def take (s : State ι) (p : ι) (x : UInt8) : State ι :=
  { s with ring := s.ring.pop, taken := s.taken ++ [(p, x)] }

/-- The byte `x` of the process `p` is stored, and `INC_PIPE` advances the head. -/
def put (s : State ι) (p : ι) (x : UInt8) : State ι :=
  { s with ring := s.ring.push x, stored := s.stored ++ [(p, x)] }

/-- The second loop of `read_pipe`, as compiled: `INC_PIPE` has no output operand, so that the byte
`x` and `PIPE_EMPTY` are read once before it. -/
def readLoop (p : ι) (buf : UserBuf) (x : UInt8) : (count b : Nat) → State ι → Outcome × State ι
  | 0, b, s => (.returns b, s)
  | count + 1, b, s =>
    if !buf.mapped b then (.killed, s) else readLoop p buf x count (b + 1) (s.take p x)

/-- `read_pipe`, from the test of its first loop on. -/
def readPipe (s : State ι) (p : ι) (count : Int) (buf : UserBuf) : Outcome × State ι :=
  if s.empty then
    if s.iCount ≠ 2 then (.returns 0, s) else (.sleeps count.toNat 0, s)
  else readLoop p buf s.ring.first count.toNat 0 s

/-- The loop of `write_pipe`, which loads the head in every round. -/
def writeLoop (p : ι) (buf : UserBuf) : (left b : Nat) → State ι → Outcome × State ι
  | 0, b, s => (.returns b, s)
  | left + 1, b, s =>
    if s.full then
      if s.iCount ≠ 2 then (.returns b, s) else (.sleeps (left + 1) b, s)
    else if !buf.mapped b then (.killed, s)
    else writeLoop p buf left (b + 1) (s.put p (buf.byte b))

/-- `write_pipe`. -/
def writePipe (s : State ι) (p : ι) (count : Int) (buf : UserBuf) : Outcome × State ι :=
  if s.iCount ≠ 2 then (.returns (-1), s) else writeLoop p buf count.toNat 0 s

variable [DecidableEq ι]

/-- The number of bytes that were moved for the process. -/
def moved (s : State ι) (p : ι) : Nat :=
  ((s.stored ++ s.taken).filter fun e => e.1 = p).length

def setProc (s : State ι) (p : ι) (x : Proc) : State ι := { s with proc := update s.proc p x }

def start (s : State ι) (p : ι) : State ι := { s with since := update s.since p (s.moved p) }

/-- What becomes of the process `p` after its call has returned, slept or failed. -/
def settle (p : ι) (write : Bool) (count : Int) (asleep : Nat → Nat → Proc) :
    Outcome × State ι → State ι
  | (.returns value, s) =>
    { s.setProc p .idle with
      returns := s.returns ++
        [{ process := p, write, count, value, moved := s.moved p - s.since p, peers := s.iCount }] }
  | (.sleeps left b, s) => s.setProc p (asleep left b)
  | (.killed, s) => s.setProc p .idle

end State

/-- A call of `read_pipe` or `write_pipe`, a wake-up, or a change of `i_count`. -/
inductive Event (ι : Type*)
  | read (p : ι) (count : Int) (buf : UserBuf)
  | write (p : ι) (count : Int) (buf : UserBuf)
  | resume (p : ι)
  | count (n : BitVec 16)

open State in
/-- A step of the system. -/
def step [DecidableEq ι] (s : State ι) : Event ι → Option (State ι)
  | .read p count buf =>
    match s.proc p with
    | .idle => some (settle p false count (fun _ _ => .reading count buf)
        ((s.start p).readPipe p count buf))
    | _ => none
  | .write p count buf =>
    match s.proc p with
    | .idle => some (settle p true count (.writing count buf) ((s.start p).writePipe p count buf))
    | _ => none
  | .resume p =>
    match s.proc p with
    | .idle => none
    | .reading count buf =>
      some (settle p false count (fun _ _ => .reading count buf) (s.readPipe p count buf))
    | .writing count buf left b =>
      some (settle p true count (.writing count buf) (writeLoop p buf left b s))
  | .count n => some { s with iCount := n }

/-- The pipe of `get_pipe_inode`. -/
def State.created (page : Nat → UInt8) : State ι where
  ring := .empty (by decide) page
  iCount := 2
  proc _ := .idle
  stored := []
  taken := []
  since _ := 0
  returns := []

/-- The bytes stored are the bytes taken and those in the ring. -/
def State.Fifo (s : State ι) : Prop :=
  s.stored.map Prod.snd = s.taken.map Prod.snd ++ s.ring.contents

/-- The pipe is empty, or its first `count` bytes are there and equal. -/
def State.uniform (s : State ι) (count : Int) : Bool :=
  s.empty || (List.replicate count.toNat s.ring.first).isPrefixOf s.ring.contents

/-- A reader finds the pipe empty, or enough equal bytes at the tail. -/
def Uniform (s : State ι) : Event ι → Bool
  | .read _ count _ => s.uniform count
  | .resume p =>
    match s.proc p with
    | .reading count _ => s.uniform count
    | _ => true
  | _ => true

variable {s : State ι} {p q : ι} {buf : UserBuf}

theorem State.Fifo.take (h : s.Fifo) {x : UInt8} (hx : s.ring.contents = x :: s.ring.pop.contents) :
    (s.take p x).Fifo := by
  show s.stored.map Prod.snd = (s.taken ++ [(p, x)]).map Prod.snd ++ s.ring.pop.contents
  rw [h, hx]
  simp

theorem State.Fifo.put (h : s.Fifo) (hroom : ¬ s.full = true) (x : UInt8) : (s.put p x).Fifo := by
  have hlt := s.ring.size_lt
  have hsize : s.ring.size + 1 < 4096 := by
    rw [State.full, decide_eq_true_eq] at hroom
    omega
  show (s.stored ++ [(p, x)]).map Prod.snd = s.taken.map Prod.snd ++ (s.ring.push x).contents
  rw [List.map_append, h, s.ring.contents_push hsize]
  simp

section Moved

variable [DecidableEq ι]

theorem State.moved_take {x : UInt8} :
    (s.take p x).moved q = s.moved q + if q = p then 1 else 0 := by
  by_cases hq : q = p
  · simp [State.moved, State.take, hq]
    omega
  · simp [State.moved, State.take, hq, Ne.symm hq]

theorem State.moved_put {x : UInt8} : (s.put p x).moved q = s.moved q + if q = p then 1 else 0 := by
  by_cases hq : q = p
  · simp [State.moved, State.put, hq]
    omega
  · simp [State.moved, State.put, hq, Ne.symm hq]

/-- What a loop leaves when it has moved the bytes from `b` to `b'` for `p`. -/
structure Moves (p : ι) (b b' : Nat) (s s' : State ι) : Prop where
  le : b ≤ b'
  fifo : s.Fifo → s'.Fifo
  iCount : s'.iCount = s.iCount
  proc : s'.proc = s.proc
  since : s'.since = s.since
  returns : s'.returns = s.returns
  moved : ∀ q, s'.moved q + (if q = p then b else 0) = s.moved q + if q = p then b' else 0

theorem Moves.refl (p : ι) (b : Nat) (s : State ι) : Moves p b b s s :=
  ⟨Nat.le_refl b, id, rfl, rfl, rfl, rfl, fun _ => rfl⟩

theorem Moves.trans {b b' b'' : Nat} {s s'' : State ι} (h : Moves p b b' s s')
    (h' : Moves p b' b'' s' s'') : Moves p b b'' s s'' := by
  refine ⟨Nat.le_trans h.le h'.le, h'.fifo ∘ h.fifo, h'.iCount.trans h.iCount, h'.proc.trans h.proc,
    h'.since.trans h.since, h'.returns.trans h.returns, fun q => ?_⟩
  have h1 := h.moved q
  have h2 := h'.moved q
  omega

theorem Moves.take {x : UInt8} (hx : s.ring.contents = x :: s.ring.pop.contents) (b : Nat) :
    Moves p b (b + 1) s (s.take p x) := by
  refine ⟨by omega, fun h => h.take hx, rfl, rfl, rfl, rfl, fun q => ?_⟩
  rw [State.moved_take]
  split <;> omega

theorem Moves.put (hroom : ¬ s.full = true) (x : UInt8) (b : Nat) :
    Moves p b (b + 1) s (s.put p x) := by
  refine ⟨by omega, fun h => h.put hroom x, rfl, rfl, rfl, rfl, fun q => ?_⟩
  rw [State.moved_put]
  split <;> omega

/-- A loop has moved `left` bytes from `b` to `b'`, early only if `early`, asleep only if `asleep`.
-/
def Outcome.Fits (left b b' : Nat) (early asleep : Prop) : Outcome → Prop
  | .returns value => value = b' ∧ b' ≤ b + left ∧ (b' < b + left → early)
  | .sleeps left' b'' => b'' = b' ∧ b' + left' = b + left ∧ asleep
  | .killed => True

theorem Outcome.Fits.next {left b b' : Nat} {early early' asleep : Prop}
    (h : o.Fits left (b + 1) b' early asleep) (hearly : early → early') :
    o.Fits (left + 1) b b' early' asleep := by
  cases o with
  | returns value =>
    obtain ⟨hvalue, hbound, hshort⟩ := h
    exact ⟨hvalue, by omega, fun hlt => hearly (hshort (by omega))⟩
  | sleeps left' b'' =>
    obtain ⟨hb, hleft, hasleep⟩ := h
    exact ⟨hb, by omega, hasleep⟩
  | killed => trivial

theorem readLoop_moves (p : ι) (buf : UserBuf) {x : UInt8} {count : Nat} (b : Nat) {s : State ι}
    (h : List.replicate count x <+: s.ring.contents) :
    ∃ b', Moves p b b' s (State.readLoop p buf x count b s).2 ∧
      (State.readLoop p buf x count b s).1.Fits count b b' False False := by
  -- the bytes that are still to be taken are the first ones of the ring in each round
  induction count generalizing b s with
  | zero => exact ⟨b, .refl p b s, rfl, by omega, fun h => by omega⟩
  | succ count ih =>
    obtain ⟨hx, hrest⟩ := s.ring.contents_of_starts h
    rw [State.readLoop]
    split
    · exact ⟨b, .refl p b s, trivial⟩
    · obtain ⟨b', hmoves, hfits⟩ := ih (b + 1) (s := s.take p x) hrest
      exact ⟨b', (Moves.take hx b).trans hmoves, hfits.next id⟩

theorem writeLoop_moves (p : ι) (buf : UserBuf) (left b : Nat) (s : State ι) :
    ∃ b', Moves p b b' s (State.writeLoop p buf left b s).2 ∧
      (State.writeLoop p buf left b s).1.Fits left b b' (s.iCount ≠ 2) True := by
  induction left generalizing b s with
  | zero => exact ⟨b, .refl p b s, rfl, by omega, fun h => by omega⟩
  | succ left ih =>
    rw [State.writeLoop]
    split
    · split
      · next hpeers => exact ⟨b, .refl p b s, rfl, by omega, fun _ => hpeers⟩
      · exact ⟨b, .refl p b s, rfl, by omega, trivial⟩
    · next hroom =>
      split
      · exact ⟨b, .refl p b s, trivial⟩
      · obtain ⟨b', hmoves, hfits⟩ := ih (b + 1) (s.put p (buf.byte b))
        exact ⟨b', (Moves.put hroom _ b).trans hmoves, hfits.next id⟩

end Moved

/-- A reader returns what it moved, nothing only without a count or a peer; a writer what it moved,
less only without a peer, or -1. -/
def Return.Accounted (r : Return ι) : Prop :=
  if r.write then
    r.value = r.moved ∧ r.moved ≤ r.count.toNat ∧ (r.moved < r.count.toNat → r.peers ≠ 2) ∨
      r.value = -1 ∧ r.moved = 0 ∧ r.peers ≠ 2
  else
    r.value = r.moved ∧ r.moved ≤ r.count.toNat ∧ (r.moved = 0 → r.count ≤ 0 ∨ r.peers ≠ 2)

def Proc.Accounted (since moved : Nat) : Proc → Prop
  | .idle => True
  | .reading _ _ => moved = since
  | .writing count _ left b => moved = since + b ∧ b + left = count.toNat

structure Good [DecidableEq ι] (s : State ι) : Prop where
  fifo : s.Fifo
  proc : ∀ p, (s.proc p).Accounted (s.since p) (s.moved p)
  returns : ∀ r ∈ s.returns, r.Accounted

variable [DecidableEq ι]

theorem good_settle
    (hfifo : s.Fifo) (hproc : ∀ q, q ≠ p → (s.proc q).Accounted (s.since q) (s.moved q))
    (hreturns : ∀ r ∈ s.returns, r.Accounted)
    (hvalue : ∀ value, o = .returns value → Return.Accounted
      { process := p, write, count, value, moved := s.moved p - s.since p, peers := s.iCount })
    (hasleep : ∀ left b, o = .sleeps left b →
      (asleep left b).Accounted (s.since p) (s.moved p)) :
    Good (State.settle p write count asleep (o, s)) := by
  have hupdate : ∀ x : Proc, x.Accounted (s.since p) (s.moved p) →
      ∀ q, ((update s.proc p x) q).Accounted (s.since q) (s.moved q) := fun x hx =>
    (forall_update_iff _ fun q (x : Proc) => x.Accounted (s.since q) (s.moved q)).mpr ⟨hx, hproc⟩
  cases o with
  | returns value =>
    refine ⟨hfifo, hupdate .idle trivial, fun r hr => ?_⟩
    rcases List.mem_append.mp hr with hold | hnew
    · exact hreturns r hold
    · rw [List.mem_singleton.mp hnew]
      exact hvalue value rfl
  | sleeps left b => exact ⟨hfifo, hupdate _ (hasleep left b rfl), hreturns⟩
  | killed => exact ⟨hfifo, hupdate .idle trivial, hreturns⟩

theorem Good.settle_moves (h : Good s) {b b' : Nat} (hmoves : Moves p b b' s s')
    (hb : s.moved p = s.since p + b) (hvalue : ∀ value, o = .returns value → Return.Accounted
      { process := p, write, count, value, moved := b', peers := s.iCount })
    (hasleep : ∀ left c, o = .sleeps left c →
      (asleep left c).Accounted (s.since p) (s.since p + b')) :
    Good (State.settle p write count asleep (o, s')) := by
  have hmoved : s'.moved p = s.since p + b' := by
    have hp := hmoves.moved p
    rw [if_pos rfl, if_pos rfl] at hp
    omega
  refine good_settle (hmoves.fifo h.fifo) ?_ ?_ ?_ ?_
  · intro q hq
    have hsame := hmoves.moved q
    rw [if_neg hq, if_neg hq, Nat.add_zero, Nat.add_zero] at hsame
    rw [hmoves.proc, hmoves.since, hsame]
    exact h.proc q
  · rw [hmoves.returns]
    exact h.returns
  · intro value ho
    rw [hmoves.iCount, hmoves.since, hmoved, Nat.add_sub_cancel_left]
    exact hvalue value ho
  · intro left c ho
    rw [hmoves.since, hmoved]
    exact hasleep left c ho

theorem Good.readPipe (h : Good s) (hb : s.moved p = s.since p) {count : Int}
    (hcount : s.uniform count = true) (buf : UserBuf) :
    Good (State.settle p false count (fun _ _ => .reading count buf) (s.readPipe p count buf)) := by
  rw [State.readPipe]
  split
  · split
    · next hpeers =>
      refine h.settle_moves (.refl p 0 s) hb ?_ ?_
      · rintro value ho
        obtain rfl := Outcome.returns.inj ho
        exact ⟨rfl, Nat.zero_le _, fun _ => .inr hpeers⟩
      · intro left c ho
        cases ho
    · refine h.settle_moves (.refl p 0 s) hb ?_ ?_
      · intro value ho
        cases ho
      · intro left c _
        rfl
  · next hne =>
    have hbytes : List.replicate count.toNat s.ring.first <+: s.ring.contents := by
      simpa [State.uniform, hne] using hcount
    obtain ⟨b', hmoves, hfits⟩ := readLoop_moves p buf 0 hbytes
    refine h.settle_moves hmoves hb ?_ ?_
    · intro value ho
      rw [ho] at hfits
      obtain ⟨hvalue, hbound, hearly⟩ := hfits
      show value = b' ∧ b' ≤ count.toNat ∧ (b' = 0 → count ≤ 0 ∨ s.iCount ≠ 2)
      refine ⟨hvalue, by omega, fun hzero => .inl ?_⟩
      by_contra hpos
      exact hearly (by omega)
    · intro left c ho
      rw [ho] at hfits
      exact hfits.2.2.elim

theorem Good.writeLoop (h : Good s) {left b : Nat} (hb : s.moved p = s.since p + b)
    (hleft : b + left = count.toNat) (buf : UserBuf) :
    Good (State.settle p true count (.writing count buf) (State.writeLoop p buf left b s)) := by
  obtain ⟨b', hmoves, hfits⟩ := writeLoop_moves p buf left b s
  refine h.settle_moves hmoves hb ?_ ?_
  · intro value ho
    rw [ho] at hfits
    obtain ⟨hvalue, hbound, hearly⟩ := hfits
    left
    show value = b' ∧ b' ≤ count.toNat ∧ (b' < count.toNat → s.iCount ≠ 2)
    exact ⟨hvalue, by omega, fun hshort => hearly (by omega)⟩
  · intro left' c ho
    rw [ho] at hfits
    obtain ⟨rfl, hsum, -⟩ := hfits
    exact ⟨rfl, by omega⟩

theorem Good.start (h : Good s) (hidle : s.proc p = .idle) :
    Good (s.start p) ∧ (s.start p).moved p = (s.start p).since p := by
  refine ⟨⟨h.fifo, fun q => ?_, h.returns⟩, ?_⟩
  · show (s.proc q).Accounted (update s.since p (s.moved p) q) (s.moved q)
    by_cases hq : q = p
    · subst hq
      rw [hidle]
      trivial
    · rw [update_of_ne hq]
      exact h.proc q
  · show s.moved p = update s.since p (s.moved p) p
    rw [update_self]

theorem step_good {e : Event ι} (h : Good s) (huniform : Uniform s e = true)
    (hstep : step s e = some s') : Good s' := by
  cases e with
  | read p count buf =>
    simp only [step] at hstep
    split at hstep
    · next hidle =>
      cases hstep
      obtain ⟨hgood, hb⟩ := h.start hidle
      exact hgood.readPipe hb huniform buf
    · cases hstep
  | write p count buf =>
    simp only [step] at hstep
    split at hstep
    · next hidle =>
      cases hstep
      obtain ⟨hgood, hb⟩ := h.start hidle
      rw [State.writePipe]
      split
      · next hpeers =>
        refine hgood.settle_moves (.refl p 0 _) hb ?_ ?_
        · intro value ho
          obtain rfl := Outcome.returns.inj ho
          exact .inr ⟨rfl, rfl, hpeers⟩
        · intro left c ho
          cases ho
      · exact hgood.writeLoop hb (Nat.zero_add _) buf
    · cases hstep
  | resume p =>
    have hp := h.proc p
    simp only [step] at hstep
    split at hstep
    · cases hstep
    · next count buf hread =>
      cases hstep
      simp only [Uniform, hread] at huniform
      rw [hread] at hp
      exact h.readPipe hp huniform buf
    · next count buf left b hwrite =>
      cases hstep
      rw [hwrite] at hp
      exact h.writeLoop hp.1 hp.2 buf
  | count n =>
    cases hstep
    exact ⟨h.fifo, h.proc, h.returns⟩

/-- Where no reader asks for more bytes than the pipe holds at its tail with one value, the bytes
taken are the first of those stored, the others are in the ring, and every call returns what it
moved. -/
theorem fifo_of_reaches {page : Nat → UInt8} {s : State ι}
    (hreach : Reaches step (fun s e => Uniform s e = true) (.created page) s) :
    s.stored.map Prod.snd = s.taken.map Prod.snd ++ s.ring.contents ∧
      s.taken.map Prod.snd <+: s.stored.map Prod.snd ∧
      s.ring.contents.length ≤ 4095 ∧
      ∀ r ∈ s.returns, r.Accounted := by
  have hgood : Good s := by
    refine hreach.invariant (P := Good) ?_ ?_
    · intro s e s' h huniform hstep
      exact step_good h huniform hstep
    · refine ⟨?_, fun _ => trivial, fun r hr => nomatch hr⟩
      show [] = [] ++ (RingBuffer.empty _ page).contents
      rw [RingBuffer.contents_empty, List.nil_append]
  have hlt := s.ring.size_lt
  refine ⟨hgood.fifo, ⟨s.ring.contents, hgood.fifo.symm⟩, ?_, hgood.returns⟩
  rw [RingBuffer.length_contents]
  omega

/-- Memory that holds these bytes. -/
def userBytes (l : List UInt8) : UserBuf := ⟨fun k => l.getD k 0, fun _ => true⟩

/-- Reader `false` waits for two bytes of the four of `true`, then asks for one. -/
def threeOfFour : List (Event Bool) :=
  [.read false 2 (userBytes []), .write true 4 (userBytes [7, 7, 8, 9]), .resume false,
    .read false 1 (userBytes [])]

theorem fifo_of_reaches_three :
    ∃ s : State Bool, Reaches step (fun s e => Uniform s e = true) (.created fun _ => 0) s ∧
      s.taken.map Prod.snd = [7, 7, 8] ∧ s.ring.contents = [9] ∧
      s.stored.map Prod.snd = s.taken.map Prod.snd ++ s.ring.contents := by
  have hrun : (run (fun s e => if Uniform s e then step s e else none) threeOfFour
      (.created fun _ => 0)).map (fun s => (s.taken.map Prod.snd, s.ring.contents)) =
      some ([7, 7, 8], [9]) := by
    decide +kernel
  obtain ⟨s, hs, hbytes⟩ := Option.map_eq_some_iff.mp hrun
  obtain ⟨htaken, hring⟩ := Prod.mk.inj hbytes
  have hreach : Reaches step (fun s e => Uniform s e = true) (.created fun _ => 0) s :=
    reaches_of_checked (fun _ _ h => h) hs
  exact ⟨s, hreach, htaken, hring, (fifo_of_reaches hreach).1⟩

/-- A writer stores `abc`, and a reader that asks for five bytes gets `aaaaa`. -/
theorem first_byte_repeated :
    ∃ s : State Bool, Reaches step (fun _ _ => True) (.created fun _ => 0) s ∧
      s.stored.map Prod.snd = [97, 98, 99] ∧ s.taken.map Prod.snd = [97, 97, 97, 97, 97] ∧
      ¬ s.taken.map Prod.snd <+: s.stored.map Prod.snd := by
  have hrun : (run step [.write true 3 (userBytes [97, 98, 99]), .read false 5 (userBytes [])]
      (.created fun _ => 0)).map (fun s => (s.stored.map Prod.snd, s.taken.map Prod.snd)) =
      some ([97, 98, 99], [97, 97, 97, 97, 97]) := by
    decide +kernel
  obtain ⟨s, hs, hbytes⟩ := Option.map_eq_some_iff.mp hrun
  obtain ⟨hstored, htaken⟩ := Prod.mk.inj hbytes
  refine ⟨s, reaches_of_run hs, hstored, htaken, fun hstarts => ?_⟩
  have hle := hstarts.length_le
  rw [hstored, htaken] at hle
  exact absurd hle (by decide)

end Linux001.Pipe
