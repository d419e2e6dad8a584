import Linux001.Console.Model
import Linux001.ProofKit.RingBuffer
import Linux001.ProofKit.Runs

/-! A terminal of `kernel/tty_io.c`: its three queues, `copy_to_cooked`, `tty_read`, `tty_write`,
the interrupts, and `con_write`, which answers ESC Z by a nested `copy_to_cooked`. -/

namespace Linux001.Tty

open Function ProofKit Console

/-- A `struct tty_queue`, with counts and whether a full one was put into. -/
structure Queue where
  ring : RingBuffer UInt8 1024
  data : BitVec 64
  (put taken : Nat)
  overrun : Bool

namespace Queue

def isEmpty (q : Queue) : Bool := q.ring.head = q.ring.tail

def left (q : Queue) : Nat := (q.ring.tail + 1024 - q.ring.head - 1) % 1024

def full (q : Queue) : Bool := q.left = 0

def chars (q : Queue) : Nat := q.ring.size

def last (q : Queue) : UInt8 := q.ring.last

def first (q : Queue) : UInt8 := q.ring.first

def getch (q : Queue) : Queue := { q with ring := q.ring.pop, taken := q.taken + 1 }

def putch (q : Queue) (c : UInt8) : Queue :=
  { q with ring := q.ring.push c, put := q.put + 1, overrun := q.overrun || q.full }

def dec (q : Queue) : Queue := { q with ring := q.ring.unpush, taken := q.taken + 1 }

def putAll (q : Queue) (l : List UInt8) : Queue := l.foldl putch q

def empty (data : BitVec 64) : Queue where
  ring := .empty (by decide) fun _ => 0
  data := data
  put := 0
  taken := 0
  overrun := false

end Queue

/-- The flags and control characters used here; `upper` and `lower` read before `_ctype`. -/
structure Termios where
  (inlcr igncr icrnl iuclc : Bool)
  (opost olcuc onlcr ocrnl onlret : Bool)
  (isig icanon echo echoctl : Bool)
  (vintr verase veof vstart vstop : UInt8)
  (upper lower : UInt8 → Bool)

namespace Termios

def isChar (c cc : UInt8) : Bool := c = cc ∧ c < 128

/-- `c<32` for a `signed char`. -/
def control (c : UInt8) : Bool := c < 32 ∨ 128 ≤ c

/-- `tolower`, which adds `'a'+'A'`. -/
def tolower (tm : Termios) (c : UInt8) : UInt8 :=
  if if c < 128 then 65 ≤ c ∧ c ≤ 90 else tm.upper c = true then c + 162 else c

def toupper (tm : Termios) (c : UInt8) : UInt8 :=
  if if c < 128 then 97 ≤ c ∧ c ≤ 122 else tm.lower c = true then c - 32 else c

def translate (tm : Termios) (c : UInt8) : Option UInt8 :=
  let c :=
    if c = 13 then if tm.icrnl then some 10 else if tm.igncr then none else some c
    else if c = 10 ∧ tm.inlcr then some 13
    else some c
  c.map fun c => if tm.iuclc then tm.tolower c else c

inductive Action
  | drop | erase | stop | start | queue (c : UInt8)

def action (tm : Termios) (c : UInt8) : Action :=
  match tm.translate c with
  | none => .drop
  | some c =>
    if tm.icanon ∧ isChar c tm.verase then .erase
    else if tm.icanon ∧ isChar c tm.vstop then .stop
    else if tm.icanon ∧ isChar c tm.vstart then .start
    else if !tm.isig ∧ isChar c tm.vintr then .drop
    else .queue c

def endsLine (tm : Termios) (c : UInt8) : Bool := c = 10 ∨ isChar c tm.veof

def echoChars (tm : Termios) (c : UInt8) : List UInt8 :=
  if c = 10 then [10, 13]
  else if control c then if tm.echoctl then [94, c + 64] else []
  else [c]

def eraseChars (c : UInt8) : List UInt8 := if control c then [127, 127] else [127]

end Termios

/-- A character was taken from the read queue, or by `tty_read`. -/
inductive Op
  | input (tm : Termios) (c : UInt8)
  | take

/-- A `struct tty_struct`, with the console and `cr_flag`; `entered` was put into the read queue,
`log` happened to the secondary queue. -/
structure TtyStruct (σ : Type*) where
  console : Bool
  termios : Termios
  (stopped crFlag : Bool)
  (readQ writeQ secondary : Queue)
  vt : Vt σ
  entered : List UInt8
  log : List Op

/-- A call, `none` if it does not come back in the rounds that are given. -/
abbrev Call (σ : Type*) := TtyStruct σ → Option (TtyStruct σ)

variable {σ : Type*}

namespace TtyStruct

def response : List UInt8 := [27, 91, 63, 49, 59, 50, 99]

def putResponse (t : TtyStruct σ) : TtyStruct σ :=
  { t with readQ := t.readQ.putAll response, entered := t.entered ++ response }

variable [Screen σ]

def answers (t : TtyStruct σ) (c : UInt8) : Bool := t.vt.state = 1 ∧ c = 0x5a

def conLoop (respond : Call σ) : (nr : Nat) → Call σ
  | 0, t => some t
  | nr + 1, t =>
    let c := t.writeQ.first
    let t' :=
      { t with
        writeQ := t.writeQ.getch
        vt := t.vt.write t.termios.verase c }
    if t.answers c then (respond t').bind (conLoop respond nr) else conLoop respond nr t'

/-- `tty->write`.  `rs_write` only enables the transmit interrupt. -/
def write (respond : Call σ) (t : TtyStruct σ) : Option (TtyStruct σ) :=
  if t.console then conLoop respond t.writeQ.chars t else some t

def echo (respond : Call σ) (t : TtyStruct σ) (l : List UInt8) : Option (TtyStruct σ) :=
  if t.termios.echo then { t with writeQ := t.writeQ.putAll l }.write respond else some t

def eraseChar (respond : Call σ) (t : TtyStruct σ) : Option (TtyStruct σ) :=
  if t.secondary.isEmpty ∨ t.termios.endsLine t.secondary.last then some t
  else
    (t.echo respond (Termios.eraseChars t.secondary.last)).map fun t =>
      { t with secondary := t.secondary.dec }

def queueChar (respond : Call σ) (t : TtyStruct σ) (c : UInt8) : Option (TtyStruct σ) :=
  let t :=
    if t.termios.endsLine c then
      { t with secondary := { t.secondary with data := t.secondary.data + 1 } }
    else t
  (t.echo respond (t.termios.echoChars c)).map fun t =>
    { t with secondary := t.secondary.putch c }

def nextChar (t : TtyStruct σ) : TtyStruct σ :=
  { t with readQ := t.readQ.getch, log := t.log ++ [.input t.termios t.readQ.first] }

def copyChar (respond : Call σ) (t : TtyStruct σ) : Option (TtyStruct σ) :=
  match t.termios.action t.readQ.first with
  | .drop => some t.nextChar
  | .erase => t.nextChar.eraseChar respond
  | .stop => some { t.nextChar with stopped := true }
  | .start => some { t.nextChar with stopped := false }
  | .queue c => t.nextChar.queueChar respond c

/-- The loop of `copy_to_cooked`, `none` if it has more than `n` rounds. -/
def copyLoop (respond : Call σ) : (n : Nat) → Call σ
  | 0, _ => none
  | n + 1, t =>
    if t.readQ.isEmpty ∨ t.secondary.full then some t
    else (t.copyChar respond).bind (copyLoop respond n)

/-- `copy_to_cooked`, `none` if it is nested or goes round more than `n` times. -/
def copyToCooked : (n : Nat) → Call σ
  | 0, _ => none
  | n + 1, t => copyLoop (fun t => copyToCooked n t.putResponse) (n + 1) t

def respond (n : Nat) (t : TtyStruct σ) : Option (TtyStruct σ) := copyToCooked n t.putResponse

/-- The output flags for a character, and whether a carriage return goes before it. -/
def post (tm : Termios) (crFlag : Bool) (c : UInt8) : Bool × UInt8 :=
  if tm.opost then
    let c := if c = 13 ∧ tm.ocrnl then 10 else if c = 10 ∧ tm.onlret then 13 else c
    (c = 10 ∧ !crFlag ∧ tm.onlcr, if tm.olcuc then tm.toupper c else c)
  else (false, c)

def fill : List UInt8 → TtyStruct σ → TtyStruct σ
  | [], t => t
  | c :: rest, t =>
    if t.writeQ.full then t
    else if (post t.termios t.crFlag c).1 then
      let t := { t with writeQ := t.writeQ.putch 13, crFlag := true }
      if t.writeQ.full then t
      else
        fill rest
          { t with writeQ := t.writeQ.putch (post t.termios t.crFlag c).2, crFlag := false }
    else
      fill rest { t with writeQ := t.writeQ.putch (post t.termios t.crFlag c).2, crFlag := false }

def drain : (nr : Nat) → TtyStruct σ → TtyStruct σ
  | 0, t => t
  | nr + 1, t =>
    if t.secondary.isEmpty then t
    else
      let c := t.secondary.first
      let q := t.secondary.getch
      let q := if t.termios.endsLine c then { q with data := q.data - 1 } else q
      let t' := { t with secondary := q, log := t.log ++ [.take] }
      if Termios.isChar c t.termios.veof ∧ t.termios.icanon then t' else drain nr t'

def unready (t : TtyStruct σ) : Bool :=
  t.secondary.isEmpty ∨ t.termios.icanon ∧ t.secondary.data = 0 ∧ 20 < t.secondary.left

end TtyStruct

/-- An interrupt, `copy_to_cooked`, a round of `tty_read` or `tty_write`, `con_write`, new settings,
or a `tty_write` elsewhere that leaves `cr_flag`. -/
inductive Event
  | receive (c : UInt8)
  | cook (fuel : Nat)
  | read (nr : Nat)
  | output (bytes : List UInt8) (killed : Bool) (fuel : Nat)
  | conWrite (fuel : Nat)
  | transmit
  | settings (tm : Termios)
  | crFlag (b : Bool)

variable [Screen σ]

open TtyStruct in
def step (t : TtyStruct σ) : Event → Option (TtyStruct σ)
  | .receive c =>
    if t.readQ.full then some t
    else some { t with readQ := t.readQ.putch c, entered := t.entered ++ [c] }
  | .cook fuel => copyToCooked fuel t
  | .read nr => if t.unready then some t else some (t.drain nr)
  | .output bytes killed fuel =>
    if killed then some (t.fill bytes) else (t.fill bytes).write (respond fuel)
  | .conWrite fuel => if t.console then t.write (respond fuel) else none
  | .transmit =>
    if t.console then none
    else if t.writeQ.isEmpty then some t
    else some { t with writeQ := t.writeQ.getch }
  | .settings tm => some { t with termios := tm }
  | .crFlag b => some { t with crFlag := b }

def TtyStruct.boot (console : Bool) (tm : Termios) (vt : Vt σ) : TtyStruct σ where
  console := console
  termios := tm
  stopped := false
  crFlag := false
  readQ := .empty 0
  writeQ := .empty 0
  secondary := .empty 0
  vt := vt
  entered := []
  log := []

end Linux001.Tty
