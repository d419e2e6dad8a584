import Linux001.ProofKit.RingBuffer

/-! The keyboard interrupt of `kernel/keyboard.nasm`, up to its call of `do_tty_interrupt`: the key
table, its handlers, and `put_queue`. -/

namespace Linux001.Keyboard

open ProofKit

abbrev ReadQueue := RingBuffer UInt8 1024

/-! ### `put_queue` -/

/-- The loop of `put_queue`: the written slots and whether it went to `.store`. -/
def putLoop : (n : Nat) → ReadQueue → (rax rbx : UInt64) → Option (ReadQueue × List Nat × Bool)
  | 0, _, _, _ => none
  | n + 1, q, rax, rbx =>
    let q' := q.push rax.toUInt8
    if q'.head = q'.tail then some (q', [q.head], false)
    else
      -- `shrd rax, rbx, 8`
      let rax := rax >>> 8 ||| rbx <<< 56
      if rax = 0 then some (q', [q.head], true)
      else
        (putLoop n q' rax (rbx >>> 8)).map fun (r, slots, store) => (r, q.head :: slots, store)

/-- `put_queue`: the queue and the slots that were written. -/
def putQueue (q : ReadQueue) (rax rbx : UInt64) : Option (ReadQueue × List Nat) :=
  (putLoop 16 q rax rbx).map fun (r, slots, store) =>
    (if store then r else { q with buf := r.buf }, slots)

/-- `rax` holds these bytes, the first one lowest, and zeros above them. -/
def Holds : UInt64 → List UInt8 → Prop
  | rax, [] => rax = 0
  | rax, b :: l => rax.toUInt8 = b ∧ b ≠ 0 ∧ Holds (rax >>> 8) l

instance : (rax : UInt64) → (l : List UInt8) → Decidable (Holds rax l)
  | rax, [] => inferInstanceAs (Decidable (rax = 0))
  | rax, b :: l =>
    have := instDecidableHolds (rax >>> 8) l
    inferInstanceAs (Decidable (rax.toUInt8 = b ∧ b ≠ 0 ∧ Holds (rax >>> 8) l))

theorem Holds.ne_zero {rax : UInt64} {b : UInt8} {l : List UInt8} (h : Holds rax (b :: l)) :
    rax ≠ 0 := by
  rintro rfl
  exact h.2.1 h.1.symm

theorem putLoop_spec {l : List UInt8} (hl : l ≠ []) {n : Nat} (hn : l.length ≤ n) (q : ReadQueue)
    {rax : UInt64} (h : Holds rax l) :
    ∃ r slots, putLoop n q rax 0 = some (r, slots, decide (q.size + l.length < 1024)) ∧
      r.tail = q.tail ∧ (q.size + l.length < 1024 → r.contents = q.contents ++ l) ∧
      (∀ i ∉ slots, r.buf i = q.buf i) ∧ ∀ k < q.size, (q.tail + k) % 1024 ∉ slots := by
  induction l generalizing n q rax with
  | nil => exact absurd rfl hl
  | cons b l ih =>
    obtain ⟨rfl, -, hrest⟩ := h
    obtain _ | n := n
    · simp at hn
    have hsize := q.size_push rax.toUInt8
    have hbuf : ∀ i ≠ q.head, (q.push rax.toUInt8).buf i = q.buf i := fun i hi =>
      Function.update_of_ne hi ..
    have hempty := (q.push rax.toUInt8).size_eq_zero_iff
    have hshift : rax >>> 8 ||| (0 : UInt64) <<< 56 = rax >>> 8 := by simp
    simp only [putLoop, hshift]
    by_cases hroom : q.size + 1 < 1024
    · rw [if_pos hroom] at hsize
      rw [if_neg fun hfull => by have := hempty.mpr hfull; omega]
      have hput := q.contents_push (x := rax.toUInt8) hroom
      cases l with
      | nil =>
        rw [if_pos (show rax >>> 8 = 0 from hrest)]
        exact ⟨q.push rax.toUInt8, [q.head], by simp [hroom], rfl, fun _ => hput, fun i hi =>
          hbuf i (by simpa using hi),
          fun k hk => by simpa using q.cell_ne_head hk⟩
      | cons c l =>
        rw [if_neg hrest.ne_zero]
        -- the cells of `q` are cells of the ring with the next head
        obtain ⟨r, slots, heq, htail, hcontents, hkeep, hcells⟩ :=
          ih (List.cons_ne_nil c l) (n := n) (by simpa using hn) (q.push rax.toUInt8) hrest
        have hlen : (q.push rax.toUInt8).size + (c :: l).length =
            q.size + (rax.toUInt8 :: c :: l).length := by
          simp only [List.length_cons]
          omega
        rw [hlen] at heq hcontents
        refine ⟨r, q.head :: slots, ?_, htail, fun hfits => ?_, fun i hi => ?_, fun k hk => ?_⟩
        · rw [show (0 : UInt64) >>> 8 = 0 from rfl, heq]
          rfl
        · rw [hcontents hfits, hput, List.append_assoc]
          rfl
        · rw [List.mem_cons, not_or] at hi
          rw [hkeep i hi.2, hbuf i hi.1]
        · rw [List.mem_cons, not_or]
          exact ⟨q.cell_ne_head hk, hcells k (by omega)⟩
    · rw [if_neg hroom] at hsize
      rw [if_pos (hempty.mp hsize)]
      have hno : ¬ q.size + (rax.toUInt8 :: l).length < 1024 := by
        rw [List.length_cons]
        omega
      exact ⟨q.push rax.toUInt8, [q.head], by rw [decide_eq_false hno], rfl, fun hfits =>
        absurd hfits hno,
        fun i hi => hbuf i (by simpa using hi), fun k hk => by simpa using q.cell_ne_head hk⟩

/-- The bytes are all put or none, and no unread character is overwritten. -/
theorem putQueue_spec (q : ReadQueue) {rax : UInt64} {l : List UInt8} (h : Holds rax l)
    (hpos : l ≠ []) (hlen : l.length ≤ 8) :
    ∃ r slots, putQueue q rax 0 = some (r, slots) ∧ r.tail = q.tail ∧
      (q.size + l.length < 1024 → r.contents = q.contents ++ l) ∧
      (1024 ≤ q.size + l.length → r.head = q.head ∧ r.contents = q.contents) ∧
      ∀ k < q.size, (q.tail + k) % 1024 ∉ slots := by
  obtain ⟨r, slots, heq, htail, hcontents, hkeep, hcells⟩ :=
    putLoop_spec hpos (Nat.le_trans hlen (by decide : 8 ≤ 16)) q h
  rw [putQueue, heq]
  by_cases hfits : q.size + l.length < 1024
  · refine ⟨r, slots, by simp [hfits], htail, hcontents, fun hfull => by omega, hcells⟩
  · refine ⟨{ q with buf := r.buf }, slots, by simp [hfits], rfl, fun h => absurd h hfits,
      fun _ => ⟨rfl, ?_⟩, hcells⟩
    exact List.map_congr_left fun k hk => hkeep _ (hcells k (List.mem_range.mp hk))

/-- Nonzero bytes in `rax` are put whole, exactly when there is room. -/
theorem putQueue_whole (q : ReadQueue) (rax : UInt64) (l : List UInt8) (h : Holds rax l)
    (hlen : 1 ≤ l.length ∧ l.length ≤ 8) :
    ∃ r slots, putQueue q rax 0 = some (r, slots) ∧ r.tail = q.tail ∧
      (r.contents = q.contents ++ l ↔ q.size + l.length ≤ 1023) ∧
      (1023 < q.size + l.length → r.head = q.head ∧ r.contents = q.contents) ∧
      ∀ k < q.size, (q.tail + k) % 1024 ∉ slots := by
  obtain ⟨r, slots, heq, htail, hroom, hfull, hcells⟩ :=
    putQueue_spec q h (List.length_pos_iff.mp hlen.1) hlen.2
  refine ⟨r, slots, heq, htail, ⟨fun hcontents => ?_, fun hfits => hroom (by omega)⟩,
    fun hno => hfull (by omega), hcells⟩
  have hlength := congrArg List.length hcontents
  have hlt := r.size_lt
  rw [List.length_append, r.length_contents, q.length_contents] at hlength
  omega

/-- The cursor key up, in an empty queue. -/
theorem putQueue_whole_up : ∃ r slots,
    putQueue (.empty (by decide) fun _ => 0) 0x415b1b 0 = some (r, slots) ∧
      r.contents = [0x1b, 0x5b, 0x41] := by
  obtain ⟨r, slots, heq, -, hput, -⟩ := putQueue_whole (.empty (by decide) fun _ => 0) 0x415b1b
    [0x1b, 0x5b, 0x41] (by decide +kernel) (by decide)
  exact ⟨r, slots, heq, by simpa using hput.mpr (by decide)⟩

/-! ### The handlers -/

structure State where
  (mode leds e0 : UInt8)
  queue : ReadQueue

/-- The registers of the interrupted program, by their numbers: `rcx` is register 1. -/
abbrev Registers := Fin 16 → Int64

def bytes (s : String) : List UInt8 := s.toList.map fun c => c.toNat.toUInt8

def numTable : List UInt8 := bytes "789 456 1230,"

def curTable : List UInt8 := bytes "HA5 DGC YB623"

def funcTable : List UInt64 :=
  [0x415b5b1b, 0x425b5b1b, 0x435b5b1b, 0x445b5b1b, 0x455b5b1b, 0x465b5b1b,
    0x475b5b1b, 0x485b5b1b, 0x495b5b1b, 0x4a5b5b1b, 0x4b5b5b1b, 0x4c5b5b1b]

def keyMap : List UInt8 :=
  [0, 27] ++ bytes "1234567890+'" ++ [127, 9] ++ bytes "qwertyuiop\x7d" ++ [0, 10, 0] ++
    bytes "asdfghjkl|\x7b" ++ [0, 0] ++ bytes "'zxcvbnm,.-" ++ [0, 42, 0, 32] ++
    List.replicate 16 0 ++ [45, 0, 0, 0, 43, 0, 0, 0, 0, 0, 0, 0, 60] ++ List.replicate 10 0

def shiftMap : List UInt8 :=
  [0, 27] ++ bytes "!\"#$%&/()=?\x60" ++ [127, 9] ++ bytes "QWERTYUIOP]^" ++ [10, 0] ++
    bytes "ASDFGHJKL\\[" ++ [0, 0] ++ bytes "*ZXCVBNM;:_" ++ [0, 42, 0, 32] ++
    List.replicate 16 0 ++ [45, 0, 0, 0, 43, 0, 0, 0, 0, 0, 0, 0, 62] ++ List.replicate 10 0

def altMap : List UInt8 :=
  [0, 0, 0, 64, 0, 36, 0, 0, 123, 91, 93, 125, 92, 0, 0, 0] ++ List.replicate 11 0 ++
    [126, 10, 0] ++
    List.replicate 11 0 ++ [0, 0] ++ List.replicate 11 0 ++ [0, 0, 0, 0] ++ List.replicate 16 0 ++
    List.replicate 5 0 ++ [0, 0, 0, 0, 0, 0, 0, 124] ++ List.replicate 10 0

namespace State

def put (s : State) (rax : UInt64) : Option State :=
  (putQueue s.queue rax 0).map fun (q, _) => { s with queue := q }

def ctrlAltCommon (s : State) (al : UInt8) : State :=
  { s with mode := s.mode ||| if s.e0 = 0 then al else al + al }

def caps (s : State) : State :=
  if s.mode &&& 0x80 ≠ 0 then s
  else { s with leds := s.leds ^^^ 4, mode := (s.mode ^^^ 0x40) ||| 0x80 }

def cur (s : State) (al : UInt8) : Option State :=
  let al := curTable.getD al.toNat 0
  let ah : UInt64 := if al > 57 then 0 else 126
  s.put ((al.toUInt64 ||| ah <<< 8) <<< 16 ||| 0x5b1b)

def cursor (s : State) (al : UInt8) : Option State :=
  if al < 0x47 then some s
  else
    let al := al - 0x47
    if al > 12 then some s
    else if al = 12 ∧ s.mode &&& 0x0c ≠ 0 ∧ s.mode &&& 0x30 ≠ 0 then none
    else if s.e0 = 1 ∨ s.leds &&& 2 = 0 ∨ s.mode &&& 3 ≠ 0 then s.cur al
    else s.put (numTable.getD al.toNat 0).toUInt64

def funcIndex (al : UInt8) : Option Nat :=
  if al < 0x3b then none
  else
    let al := al - 0x3b
    if al ≤ 9 then some al.toNat
    else
      let al := al - 18
      if al < 10 ∨ 11 < al then none else some al.toNat

def func (s : State) (al : UInt8) (rcx : Int64) : Option State :=
  match funcIndex al with
  | none => some s
  | some i => if rcx < 4 then some s else s.put (funcTable.getD i 0)

def doSelf (s : State) (al : UInt8) : Option State :=
  let map := if s.mode &&& 0x20 ≠ 0 then altMap else if s.mode &&& 3 ≠ 0 then shiftMap else keyMap
  let al := map.getD al.toNat 0
  if al = 0 then some s
  else
    let al := if s.mode &&& 0x4c ≠ 0 ∧ 97 ≤ al ∧ al ≤ 122 then al - 32 else al
    let al := if s.mode &&& 0x0c ≠ 0 ∧ 64 ≤ al ∧ al < 96 then al - 64 else al
    let al := if s.mode &&& 0x10 ≠ 0 then al ||| 0x80 else al
    s.put al.toUInt64

def minus (s : State) (al : UInt8) : Option State := if s.e0 = 1 then s.put 47 else s.doSelf al

end State

inductive Key
  | none | doSelf | ctrl | lshift | minus | rshift | alt | caps | func | num | scroll | cursor
  deriving DecidableEq

/-- The key table as runs of entries; the entries after these are `none`. -/
def keyTable : List Key :=
  [(1, Key.none), (28, .doSelf), (1, .ctrl), (12, .doSelf), (1, .lshift), (10, .doSelf),
    (1, .minus),
    (1, .rshift), (1, .doSelf), (1, .alt), (1, .doSelf), (1, .caps), (10, .func), (1, .num),
    (1, .scroll), (3, .cursor), (1, .doSelf), (3, .cursor), (1, .doSelf), (5, .cursor), (2, .none),
    (1, .doSelf), (2, .func)].flatMap fun (n, k) => List.replicate n k

def Key.handle (s : State) (al : UInt8) (r : Registers) : Key → Option State
  | .none => some s
  | .doSelf => s.doSelf al
  | .ctrl => some (s.ctrlAltCommon 0x04)
  | .lshift => some { s with mode := s.mode ||| 1 }
  | .minus => s.minus al
  | .rshift => some { s with mode := s.mode ||| 2 }
  | .alt => some (s.ctrlAltCommon 0x10)
  | .caps => some s.caps
  | .func => s.func al (r 1)
  | .num => some { s with leds := s.leds ^^^ 2 }
  | .scroll => some { s with leds := s.leds ^^^ 1 }
  | .cursor => s.cursor al

def keyOf (scan : UInt8) : Key := keyTable.getD scan.toNat .none

/-- `keyboard_interrupt` up to its call of `do_tty_interrupt`, `none` if it reboots. -/
def keyboardInterrupt (s : State) (r : Registers) (scan : UInt8) : Option State :=
  if scan = 0xe0 then some { s with e0 := 1 }
  else if scan = 0xe1 then some { s with e0 := 2 }
  else ((keyOf scan).handle s scan r).map fun s => { s with e0 := 0 }

/-! ### The interrupted program -/

/-- The unread characters, not what is left in free slots. -/
def State.view (s : State) : UInt8 × UInt8 × UInt8 × Nat × Nat × List UInt8 :=
  (s.mode, s.leds, s.e0, s.queue.head, s.queue.tail, s.queue.contents)

theorem func_entry {scan : UInt8} (h : keyOf scan = .func) : ∃ i l,
    State.funcIndex scan = some i ∧ Holds (funcTable.getD i 0) l ∧ l.length = 4 := by
  have hall : ∀ c < 256, keyTable.getD c .none = .func → ∃ i < 12,
      State.funcIndex c.toUInt8 = some i ∧
        Holds (funcTable.getD i 0) [0x1b, 0x5b, 0x5b, 0x41 + i.toUInt8] := by
    decide +kernel
  obtain ⟨i, -, hindex, hholds⟩ := hall scan.toNat scan.toNat_lt h
  rw [Nat.toUInt8, UInt8.ofNat_toNat] at hindex
  exact ⟨i, _, hindex, hholds, rfl⟩

theorem func_scan {s : State} {scan : UInt8} (h : keyOf scan = .func) (r : Registers) :
    keyboardInterrupt s r scan = (s.func scan (r 1)).map fun s => { s with e0 := 0 } := by
  have he0 : scan ≠ 0xe0 := by rintro rfl; exact absurd h (by decide +kernel)
  have he1 : scan ≠ 0xe1 := by rintro rfl; exact absurd h (by decide +kernel)
  rw [keyboardInterrupt, if_neg he0, if_neg he1, h, Key.handle]

/-- A function key puts its bytes if the interrupted `rcx` is at least four. -/
theorem func_spec (s : State) {scan : UInt8} (h : keyOf scan = .func) (rcx : Int64) :
    ∃ q, s.func scan rcx = some { s with queue := q } ∧ q.tail = s.queue.tail ∧
      (4 ≤ rcx → s.queue.size + 4 < 1024 → q.size = s.queue.size + 4) ∧
      (rcx < 4 ∨ 1024 ≤ s.queue.size + 4 → q.head = s.queue.head ∧
        q.contents = s.queue.contents) := by
  obtain ⟨i, l, hindex, hholds, hlen⟩ := func_entry h
  have hpos : l ≠ [] := by rintro rfl; exact absurd hlen (by decide)
  obtain ⟨q, slots, heq, htail, hroom, hfull, -⟩ := putQueue_spec s.queue hholds hpos (by omega)
  rw [State.func, hindex]
  simp only
  split
  · next hlt =>
    exact ⟨s.queue, rfl, rfl, fun hle => absurd hlt (Int64.not_lt.mpr hle), fun _ => ⟨rfl, rfl⟩⟩
  · next hge =>
    refine ⟨q, by rw [State.put, heq]; rfl, htail, fun _ hfits => ?_, fun h => hfull ?_⟩
    · rw [← q.length_contents, hroom (by omega), List.length_append, s.queue.length_contents, hlen]
    · rcases h with h | h
      · exact absurd h hge
      · omega

/-- A scan code acts the same in any program but for function keys with room. -/
theorem keyboardInterrupt_independent_iff (s : State) (scan : UInt8) :
    (∀ r r', (keyboardInterrupt s r scan).map State.view =
      (keyboardInterrupt s r' scan).map State.view) ↔
    (keyOf scan = .func → 1023 < s.queue.size + 4) := by
  constructor
  · intro h hkey
    by_contra hroom
    have heq := h (fun _ => 0) (fun _ => 4)
    obtain ⟨q, hq, -, -, hsame⟩ := func_spec s hkey 0
    obtain ⟨q', hq', -, hput, -⟩ := func_spec s hkey 4
    rw [func_scan hkey, func_scan hkey, hq, hq'] at heq
    have hcontents : q.contents = q'.contents := by
      simp only [Option.map_some, State.view, Option.some.injEq, Prod.mk.injEq] at heq
      exact heq.2.2.2.2.2
    have hsize := hput (by decide) (by omega)
    rw [(hsame (.inl (by decide))).2] at hcontents
    have hlength := congrArg List.length hcontents
    rw [s.queue.length_contents, q'.length_contents] at hlength
    omega
  · intro h r r'
    by_cases hkey : keyOf scan = .func
    · obtain ⟨q, hq, htail, -, hsame⟩ := func_spec s hkey (r 1)
      obtain ⟨q', hq', htail', -, hsame'⟩ := func_spec s hkey (r' 1)
      have hfull : 1024 ≤ s.queue.size + 4 := h hkey
      have hview := hsame (.inr hfull)
      have hview' := hsame' (.inr hfull)
      rw [func_scan hkey, func_scan hkey, hq, hq']
      simp only [Option.map_some, State.view, hview, hview', htail, htail']
    · -- no other handler reads a register of the interrupted program
      unfold keyboardInterrupt
      generalize keyOf scan = k at hkey
      cases k with
      | func => exact absurd rfl hkey
      | _ => rfl

/-- F1 in an empty queue, where `rcx` is 0 or 4 in the interrupted program. -/
theorem keyboardInterrupt_depends :
    let s : State := ⟨0, 2, 0, .empty (by decide) fun _ => 0⟩
    (keyboardInterrupt s (fun _ => 0) 0x3b).map (·.queue.contents) = some [] ∧
    (keyboardInterrupt s (fun _ => 4) 0x3b).map (·.queue.contents) =
      some [0x1b, 0x5b, 0x5b, 0x41] := by
  decide +kernel

end Linux001.Keyboard
