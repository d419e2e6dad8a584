import Linux001.ProofKit.Bytes
import Linux001.ProofKit.Runs
import Linux001.Sched.ForkFrame

/-! The context switch: `struct task_struct` as the System V ABI lays it out, `__switch_to` of
`kernel/switch.nasm`, and the stores of `copy_process`. A task is the address of its structure in a
memory of bytes. -/

namespace Linux001.Switch

open Function ProofKit ProofKit.Bytes Sched

inductive Field
  | state | counter | priority | signal | sigRestorer | sigFn | exitCode
  | endCode | endData | brk | startStack | pid | father | pgrp | session | leader
  | uid | euid | suid | gid | egid | sgid | alarm
  | utime | stime | cutime | cstime | startTime | usedMath | tty | umask
  | pwd | root | closeOnExec | filp | ldt | thread | i387 | kernelStack
  deriving DecidableEq

namespace Field

def all : List Field :=
  [state, counter, priority, signal, sigRestorer, sigFn, exitCode, endCode, endData, brk,
    startStack,
    pid, father, pgrp, session, leader, uid, euid, suid, gid, egid, sgid, alarm, utime, stime,
    cutime,
    cstime, startTime, usedMath, tty, umask, pwd, root, closeOnExec, filp, ldt, thread, i387,
    kernelStack]

def size : Field → Nat
  | sigFn => 32 * 8
  | exitCode | tty => 4
  | uid | euid | suid | gid | egid | sgid | usedMath | umask => 2
  | filp => 20 * 8
  | ldt => 3 * 8
  | thread => 10 * 8
  | i387 => 512
  | kernelStack => 1024 * 8
  | _ => 8

def align : Field → Nat
  | exitCode | tty | ldt => 4
  | uid | euid | suid | gid | egid | sgid | usedMath | umask => 2
  | i387 => 16
  | _ => 8

def offset (f : Field) : Nat := offsetOf size align f all 0

end Field

def taskSize : Nat := Field.kernelStack.offset + Field.kernelStack.size

theorem thread_offset : Field.thread.offset = 664 := by decide +kernel

theorem i387_offset : Field.i387.offset = 752 := by decide +kernel

theorem taskSize_eq : taskSize = 9456 := by decide +kernel

inductive Saved
  | rsp | rbx | rbp | r12 | r13 | r14 | r15
  deriving DecidableEq

/-- The offset of a register in `thread_struct`, in C and in the assembly. -/
def Saved.offset : Saved → Nat
  | rsp => 0
  | rbx => 16
  | rbp => 24
  | r12 => 32
  | r13 => 40
  | r14 => 48
  | r15 => 56

def taskThread : Nat := 784

/-- The memory, the tasks, the registers, the TSS and the FPU switch, the registers `out` last
switched out and the stack pointers `start` of new tasks. -/
structure Kernel where
  mem : Bytes
  live : List Nat
  current : Nat
  regs : Saved → Word
  rsp0 : Nat
  ts : Bool
  lastTaskUsedMath : Option Nat
  out : Nat → Option (Saved → Word)
  start : Nat → Word

/-- What `copy_process` gets besides the state. -/
structure Creation where
  page : Nat
  args : ForkArgs
  (lastPid jiffies retFromFork : Word)
  (codeDesc dataDesc : Word)
  fpu : Bytes

inductive SwitchEvent
  | switchTo (next : Nat)
  | copyProcess (c : Creation)
  | release (task : Nat)
  | run (regs : Saved → Word) (writes : List (Nat × BitVec 8))
  | deviceNotAvailable (fpu : Bytes)

def saveArea (task : Nat) (regs : Saved → Word) : List (Nat × Word) :=
  [Saved.rbx, .rbp, .r12, .r13, .r14, .r15, .rsp].map fun r =>
    (task + taskThread + r.offset, regs r)

def switchTo (s : Kernel) (next : Nat) : Kernel :=
  if s.current = next then s else
    let mem := s.mem.storeWords (saveArea s.current s.regs)
    { s with
      mem
      current := next
      rsp0 := next + 0x1000
      regs := fun r => mem.loadWord (next + taskThread + r.offset)
      -- a task that returns from its own `switch_to` goes on to the `clts` there
      ts := s.ts && !((s.out next).isSome && s.lastTaskUsedMath == some next)
      out := update s.out s.current (some s.regs) }

namespace Creation

def stackWords (c : Creation) : List (Nat × Word) :=
  (c.args.pushes c.retFromFork).zipIdx.map fun p => (0x1000 - 8 * (p.2 + 1), p.1)

def kstack (c : Creation) : Word :=
  BitVec.ofNat 64 (c.page + 0x1000 - 8 * (c.args.pushes c.retFromFork).length)

def header (c : Creation) (s : Kernel) : List (Nat × Word) :=
  [(Field.state.offset, 2), (Field.pid.offset, c.lastPid),
    (Field.father.offset, s.mem.loadWord (s.current + Field.pid.offset)),
    (Field.counter.offset, s.mem.loadWord (s.current + Field.priority.offset)),
    (Field.signal.offset, 0), (Field.alarm.offset, 0), (Field.leader.offset, 0),
    (Field.stime.offset, 0), (Field.utime.offset, 0), (Field.cstime.offset, 0),
    (Field.cutime.offset, 0), (Field.startTime.offset, c.jiffies)]

def threadWords (c : Creation) : List (Nat × Word) :=
  [(Field.thread.offset, c.kstack), (Field.thread.offset + 16, c.args.rbx),
    (Field.thread.offset + 24, c.args.rbp), (Field.thread.offset + 32, 0),
    (Field.thread.offset + 40, 0), (Field.thread.offset + 48, 0), (Field.thread.offset + 56, 0),
    (Field.thread.offset + 64, c.args.fs), (Field.thread.offset + 72, c.args.gs)]

def footer (c : Creation) : List (Nat × Word) :=
  [(Field.ldt.offset + 8, c.codeDesc), (Field.ldt.offset + 16, c.dataDesc), (Field.state.offset, 0)]

def place (c : Creation) (l : List (Nat × Word)) : List (Nat × Word) :=
  l.map fun p => (c.page + p.1, p.2)

/-- The stores of `copy_process`; `*p = *current` is longer than the page. -/
def memory (c : Creation) (s : Kernel) : Bytes :=
  let mem := s.mem.copy s.current c.page taskSize
  let mem := mem.storeWords (c.place (c.header s ++ c.stackWords ++ c.threadWords))
  let mem :=
    if s.lastTaskUsedMath = some s.current
    then mem.fill (c.page + Field.i387.offset) Field.i387.size c.fpu else mem
  mem.storeWords (c.place c.footer)

end Creation

/-- `device_not_available` with the `TS` flag set, and `math_state_restore`. -/
def mathStateRestore (s : Kernel) (fpu : Bytes) : Kernel :=
  if s.lastTaskUsedMath = some s.current then { s with ts := false } else
    let mem :=
      match s.lastTaskUsedMath with
      | none => s.mem
      | some t => s.mem.fill (t + Field.i387.offset) Field.i387.size fpu
    { s with
      mem :=
        if mem.load (s.current + Field.usedMath.offset) 2 = 0
        then mem.store (s.current + Field.usedMath.offset) 2 1 else mem
      ts := false
      lastTaskUsedMath := some s.current }

/-- No write is to the `thread` or the `i387` member of a task. -/
def SparesThreads (live : List Nat) (writes : List (Nat × BitVec 8)) : Prop :=
  ∀ w ∈ writes, ∀ t ∈ live,
    w.1 < t + Field.thread.offset ∨ t + Field.i387.offset + Field.i387.size ≤ w.1

instance (live : List Nat) (writes : List (Nat × BitVec 8)) :
    Decidable (SparesThreads live writes) :=
  inferInstanceAs (Decidable (∀ w ∈ writes, ∀ t ∈ live, _))

def writeBytes (m : Bytes) : List (Nat × BitVec 8) → Bytes
  | [] => m
  | (a, b) :: l => writeBytes (update m a b) l

def switchStep (s : Kernel) : SwitchEvent → Option Kernel
  | .switchTo next => if next ∈ s.live then some (switchTo s next) else none
  | .copyProcess c =>
    if c.page ∈ s.live then none
    else some { s with
      mem := c.memory s
      live := c.page :: s.live
      out := update s.out c.page none
      start := update s.start c.page c.kstack }
  | .release task =>
    if task = s.current then none else some { s with live := s.live.erase task }
  | .run regs writes =>
    if SparesThreads s.live writes then some { s with regs, mem := writeBytes s.mem writes }
    else none
  | .deviceNotAvailable fpu => if s.ts then some (mathStateRestore s fpu) else none

/-- The first task runs, never switched out, with `TS` clear. -/
def initialKernel (initTask : Nat) (mem : Bytes) (regs : Saved → Word) : Kernel where
  mem := mem
  live := [initTask]
  current := initTask
  regs := regs
  rsp0 := initTask + 0x1000
  ts := false
  lastTaskUsedMath := none
  out := fun _ => none
  start := fun _ => 0

structure RoundTrip (s : Kernel) (next : Nat) (s' : Kernel) : Prop where
  resumes : ∀ regs, s.out next = some regs → s'.regs = regs
  starts : s.out next = none → s'.regs .rsp = s.start next
  fields : ∀ t ∈ s.live, ∀ f ≠ Field.thread, ∀ i < f.size,
    s'.mem (t + f.offset + i) = s.mem (t + f.offset + i)

/-- The registers are where `__switch_to` saves them and loads a new stack pointer. -/
structure InPlace (s : Kernel) (next : Nat) : Prop where
  saved : ∀ r : Saved, s.mem.loadWord (s.current + taskThread + r.offset) = s.regs r
  started : s.out next = none → s.mem.loadWord (next + taskThread) = s.start next

/-- The copy of a structure does not reach saved registers of another task. -/
def CopiesClear (s : Kernel) : SwitchEvent → Prop
  | .copyProcess c =>
    ∀ t ∈ s.live, t + taskThread + 64 ≤ c.page ∨ c.page + taskSize ≤ t + taskThread
  | _ => True

theorem Saved.offset_le (r : Saved) : r.offset ≤ 56 := by
  cases r <;> decide

theorem mem_saveArea (t : Nat) (regs : Saved → Word) (r : Saved) :
    (t + taskThread + r.offset, regs r) ∈ saveArea t regs := by
  apply List.mem_map_of_mem (f := fun r : Saved => (t + taskThread + r.offset, regs r))
  cases r <;> decide

theorem exists_of_mem_saveArea {t : Nat} {regs : Saved → Word} {p : Nat × Word}
    (h : p ∈ saveArea t regs) : ∃ r : Saved, p = (t + taskThread + r.offset, regs r) := by
  obtain ⟨r, -, hr⟩ := List.mem_map.mp h
  exact ⟨r, hr.symm⟩

theorem saveArea_pairwise (t : Nat) (regs : Saved → Word) :
    (saveArea t regs).Pairwise fun p q => p.1 + 8 ≤ q.1 ∨ q.1 + 8 ≤ p.1 := by
  have h : [Saved.rbx, .rbp, .r12, .r13, .r14, .r15, .rsp].Pairwise fun r r' =>
      r.offset + 8 ≤ r'.offset ∨ r'.offset + 8 ≤ r.offset := by
    decide
  refine List.pairwise_map.mpr (h.imp ?_)
  intro r r' hr
  omega

theorem loadWord_saveArea (m : Bytes) (t : Nat) (regs : Saved → Word) (r : Saved) :
    (m.storeWords (saveArea t regs)).loadWord (t + taskThread + r.offset) = regs r :=
  loadWord_storeWords (saveArea_pairwise t regs) (mem_saveArea t regs r)

theorem loadWord_saveArea_of_apart {m : Bytes} {t u : Nat} {regs : Saved → Word} (r : Saved)
    (h : t + 64 ≤ u ∨ u + 64 ≤ t) :
    (m.storeWords (saveArea t regs)).loadWord (u + taskThread + r.offset) =
      m.loadWord (u + taskThread + r.offset) := by
  apply loadWord_storeWords_of_disjoint
  intro p hp
  obtain ⟨r', rfl⟩ := exists_of_mem_saveArea hp
  have hr := r.offset_le
  have hr' := r'.offset_le
  omega

namespace Creation

theorem stackWords_le {c : Creation} {p : Nat × Word} (h : p ∈ c.stackWords) :
    p.1 + 8 ≤ taskSize := by
  obtain ⟨⟨w, i⟩, hi, rfl⟩ := List.mem_map.mp h
  have hsize := taskSize_eq
  omega

theorem fields_le {c : Creation} {s : Kernel} {p : Nat × Word}
    (h : p ∈ c.header s ++ c.threadWords ++ c.footer) : p.1 + 8 ≤ taskSize := by
  have hoffset : ∀ o ∈ (c.header s ++ c.threadWords ++ c.footer).map Prod.fst,
      o + 8 ≤ taskSize := by
    change ∀ o ∈ [Field.state.offset, Field.pid.offset, Field.father.offset,
      Field.counter.offset, Field.signal.offset, Field.alarm.offset, Field.leader.offset,
      Field.stime.offset, Field.utime.offset, Field.cstime.offset, Field.cutime.offset,
      Field.startTime.offset, Field.thread.offset, Field.thread.offset + 16,
      Field.thread.offset + 24, Field.thread.offset + 32, Field.thread.offset + 40,
      Field.thread.offset + 48, Field.thread.offset + 56, Field.thread.offset + 64,
      Field.thread.offset + 72, Field.ldt.offset + 8, Field.ldt.offset + 16, Field.state.offset],
      o + 8 ≤ taskSize
    decide +kernel
  exact hoffset p.1 (List.mem_map_of_mem h)

theorem storeWords_place {c : Creation} {m : Bytes} {l : List (Nat × Word)} {x : Nat}
    (hl : ∀ p ∈ l, p.1 + 8 ≤ taskSize) (h : x < c.page ∨ c.page + taskSize ≤ x) :
    m.storeWords (c.place l) x = m x := by
  apply storeWords_of_outside
  intro p hp
  obtain ⟨q, hq, rfl⟩ := List.mem_map.mp hp
  have := hl q hq
  omega

theorem memory_of_outside {c : Creation} {s : Kernel} {x : Nat}
    (h : x < c.page ∨ c.page + taskSize ≤ x) : c.memory s x = s.mem x := by
  have hfill : ∀ m : Bytes,
      m.fill (c.page + Field.i387.offset) Field.i387.size c.fpu x = m x := by
    intro m
    apply fill_of_outside
    rw [taskSize_eq] at h
    rw [i387_offset, Field.size]
    omega
  have hbody : ∀ p ∈ c.header s ++ c.stackWords ++ c.threadWords, p.1 + 8 ≤ taskSize := by
    intro p hp
    rcases List.mem_append.mp hp with hp | hthread
    · rcases List.mem_append.mp hp with hheader | hstack
      · exact fields_le (List.mem_append_left _ (List.mem_append_left _ hheader))
      · exact stackWords_le hstack
    · exact fields_le (s := s) (List.mem_append_left _ (List.mem_append_right _ hthread))
  have hfooter : ∀ p ∈ c.footer, p.1 + 8 ≤ taskSize := fun p hp =>
    fields_le (s := s) (List.mem_append_right _ hp)
  rw [memory, storeWords_place hfooter h]
  split
  · rw [hfill, storeWords_place hbody h, copy, fill_of_outside h]
  · rw [storeWords_place hbody h, copy, fill_of_outside h]

end Creation

theorem writeBytes_of_outside {m : Bytes} {l : List (Nat × BitVec 8)} {x : Nat}
    (h : ∀ p ∈ l, p.1 ≠ x) : writeBytes m l x = m x := by
  induction l generalizing m with
  | nil => rfl
  | cons p l ih =>
    rw [writeBytes, ih fun q hq => h q (List.mem_cons_of_mem _ hq)]
    exact update_of_ne (h p List.mem_cons_self).symm _ _

/-- The FPU is never switched, and each task has its registers saved. -/
structure Kept (s : Kernel) : Prop where
  ts : s.ts = false
  math : s.lastTaskUsedMath = none
  current : s.current ∈ s.live
  apart : ∀ t ∈ s.live, ∀ u ∈ s.live, t ≠ u → t + 64 ≤ u ∨ u + 64 ≤ t
  saved : ∀ t ∈ s.live, t ≠ s.current → ∀ regs, s.out t = some regs →
    ∀ r : Saved, s.mem.loadWord (t + taskThread + r.offset) = regs r

theorem kept_initial (initTask : Nat) (mem : Bytes) (regs : Saved → Word) :
    Kept (initialKernel initTask mem regs) where
  ts := rfl
  math := rfl
  current := List.mem_singleton_self _
  apart := by
    intro t ht u hu hne
    rw [List.mem_singleton.mp ht, List.mem_singleton.mp hu] at hne
    exact absurd rfl hne
  saved := by
    intro t _ _ regs h
    cases h

theorem Kept.setMem {s : Kernel} (h : Kept s) {mem : Bytes}
    (hmem : ∀ t ∈ s.live, ∀ i < 64, mem (t + taskThread + i) = s.mem (t + taskThread + i))
    (regs : Saved → Word) : Kept { s with regs, mem } where
  ts := h.ts
  math := h.math
  current := h.current
  apart := h.apart
  saved := by
    intro t ht hne out hout r
    have hr := r.offset_le
    rw [← h.saved t ht hne out hout r]
    apply loadWord_congr
    intro i hi
    rw [Nat.add_assoc _ r.offset]
    exact hmem t ht (r.offset + i) (by omega)

theorem Kept.switched {s : Kernel} (h : Kept s) {next : Nat} (hnext : next ∈ s.live) :
    Kept (switchTo s next) := by
  unfold switchTo
  split
  · exact h
  rename_i hne
  refine ⟨by simp [h.ts], h.math, hnext, h.apart, ?_⟩
  intro t ht htne regs hout r
  dsimp only at hout ⊢
  by_cases htcur : t = s.current
  · subst htcur
    rw [update_self] at hout
    cases hout
    exact loadWord_saveArea s.mem s.current s.regs r
  · rw [update_of_ne htcur] at hout
    rw [loadWord_saveArea_of_apart r (h.apart s.current h.current t ht (Ne.symm htcur))]
    exact h.saved t ht htcur regs hout r

theorem Kept.copyProcess {s s' : Kernel} (h : Kept s) {c : Creation}
    (hclear : CopiesClear s (.copyProcess c)) (hstep : switchStep s (.copyProcess c) = some s') :
    Kept s' := by
  obtain ⟨hfresh, hs'⟩ := Option.ite_none_left_eq_some.mp hstep
  cases hs'
  have happart : ∀ t ∈ s.live, c.page + 64 ≤ t ∨ t + 64 ≤ c.page := by
    intro t ht
    have := hclear t ht
    rw [taskSize_eq, taskThread] at this
    omega
  refine ⟨h.ts, h.math, List.mem_cons_of_mem _ h.current, ?_, ?_⟩
  · intro t ht u hu hne
    rcases List.mem_cons.mp ht with rfl | ht <;> rcases List.mem_cons.mp hu with rfl | hu
    · exact absurd rfl hne
    · exact happart u hu
    · exact (happart t ht).symm
    · exact h.apart t ht u hu hne
  · intro t ht hne regs hout r
    dsimp only at hout hne ⊢
    by_cases htp : t = c.page
    · subst htp
      rw [update_self] at hout
      cases hout
    rw [update_of_ne htp] at hout
    have ht : t ∈ s.live := (List.mem_cons.mp ht).resolve_left htp
    have hr := r.offset_le
    have hout' := hclear t ht
    rw [← h.saved t ht hne regs hout r]
    apply loadWord_congr
    intro i hi
    apply Creation.memory_of_outside
    omega

theorem Kept.step {s s' : Kernel} {e : SwitchEvent} (h : Kept s) (hok : CopiesClear s e)
    (hstep : switchStep s e = some s') : Kept s' := by
  cases e with
  | switchTo next =>
    obtain ⟨hnext, hs'⟩ := Option.ite_none_right_eq_some.mp hstep
    cases hs'
    exact h.switched hnext
  | copyProcess c => exact h.copyProcess hok hstep
  | release task =>
    obtain ⟨hne, hs'⟩ := Option.ite_none_left_eq_some.mp hstep
    cases hs'
    have hsub : ∀ t ∈ s.live.erase task, t ∈ s.live := fun t ht => List.mem_of_mem_erase ht
    exact ⟨h.ts, h.math, (List.mem_erase_of_ne (Ne.symm hne)).mpr h.current,
      fun t ht u hu => h.apart t (hsub t ht) u (hsub u hu), fun t ht => h.saved t (hsub t ht)⟩
  | run regs writes =>
    obtain ⟨hspares, hs'⟩ := Option.ite_none_right_eq_some.mp hstep
    cases hs'
    refine h.setMem ?_ regs
    intro t ht i hi
    apply writeBytes_of_outside
    intro p hp heq
    have := hspares p hp t ht
    rw [thread_offset, i387_offset, Field.size] at this
    rw [taskThread] at heq
    omega
  | deviceNotAvailable fpu =>
    rw [switchStep, h.ts] at hstep
    cases hstep

theorem switchTo_mem {s : Kernel} {next : Nat} (hne : s.current ≠ next) :
    (switchTo s next).mem = s.mem.storeWords (saveArea s.current s.regs) := by
  rw [switchTo, if_neg hne]

/-- The registers come from the save area of `next`, which the stores spare. -/
theorem Kept.switchTo_regs {s : Kernel} (h : Kept s) {next : Nat} (hnext : next ∈ s.live)
    (hne : next ≠ s.current) (r : Saved) :
    (switchTo s next).regs r = s.mem.loadWord (next + taskThread + r.offset) := by
  rw [switchTo, if_neg hne.symm]
  exact loadWord_saveArea_of_apart r (h.apart s.current h.current next hnext hne.symm)

theorem Kept.resumes {s : Kernel} (h : Kept s) {next : Nat} (hnext : next ∈ s.live)
    (hne : next ≠ s.current) {regs : Saved → Word} (hout : s.out next = some regs) :
    (switchTo s next).regs = regs := by
  funext r
  rw [h.switchTo_regs hnext hne, h.saved next hnext hne regs hout r]

theorem saved_of_fields {s : Kernel} {next : Nat} (hcurrent : s.current ∈ s.live)
    (hne : s.current ≠ next) (h : RoundTrip s next (switchTo s next)) (r : Saved) :
    s.mem.loadWord (s.current + taskThread + r.offset) = s.regs r := by
  rw [← loadWord_saveArea s.mem s.current s.regs r, ← switchTo_mem hne]
  have hr := r.offset_le
  have hfield := h.fields s.current hcurrent .i387 (by decide)
  rw [i387_offset, Field.size] at hfield
  apply loadWord_congr
  intro i hi
  have := hfield (32 + r.offset + i) (by omega)
  rw [taskThread]
  rw [show s.current + 784 + r.offset + i = s.current + 752 + (32 + r.offset + i) by omega]
  exact this.symm

/-- Where no structure is copied over saved registers, a switch keeps the round trip exactly when
the registers are in place. -/
theorem roundTrip_iff {initTask : Nat} {mem : Bytes} {regs : Saved → Word} {s : Kernel}
    (hreach : Reaches switchStep CopiesClear (initialKernel initTask mem regs) s) {next : Nat}
    (hnext : next ∈ s.live) (hne : next ≠ s.current) :
    ∃ s', switchStep s (.switchTo next) = some s' ∧ (RoundTrip s next s' ↔ InPlace s next) := by
  have hkept : Kept s := hreach.invariant (P := Kept) (fun _ _ _ h hok => h.step hok)
    (kept_initial initTask mem regs)
  have hregs := hkept.switchTo_regs hnext hne
  refine ⟨switchTo s next, if_pos hnext, ?_, ?_⟩
  · intro h
    refine ⟨saved_of_fields hkept.current hne.symm h, fun hout => ?_⟩
    rw [← h.starts hout]
    exact (hregs .rsp).symm
  intro h
  refine ⟨fun out hout => ?_, fun hout => ?_, fun t _ f _ i _ => ?_⟩
  · exact hkept.resumes hnext hne hout
  · rw [← h.started hout]
    exact hregs .rsp
  · have hmem : s.mem.storeWords (saveArea s.current s.regs) = s.mem := by
      apply storeWords_eq_self
      intro p hp
      obtain ⟨r, rfl⟩ := exists_of_mem_saveArea hp
      exact h.saved r
    rw [switchTo_mem hne.symm, hmem]

/-- The creation of a task on the page at 1 MB, with registers of zero. -/
def firstChild : Creation where
  page := 0x100000
  args := (forkUser 0 0 0 0).forkArgs 1
  lastPid := 1
  jiffies := 0
  retFromFork := 0x2000
  codeDesc := 0
  dataDesc := 0
  fpu := fun _ => 0

/-- The first task, with its stack pointer also in its save area. -/
def firstTask (rsp saved : Word) : Kernel :=
  initialKernel 0x8000 (storeWord (fun _ => 0) (0x8000 + taskThread) saved)
    fun r => if r = .rsp then rsp else 0

def afterFork (rsp saved : Word) : Kernel :=
  { firstTask rsp saved with
    mem := firstChild.memory (firstTask rsp saved)
    live := [0x100000, 0x8000]
    out := fun _ => none
    start := update (fun _ => 0) 0x100000 firstChild.kstack }

theorem reaches_afterFork (rsp saved : Word) :
    Reaches switchStep CopiesClear (firstTask rsp saved) (afterFork rsp saved) := by
  refine .single ⟨.copyProcess firstChild, ?_, ?_⟩
  · intro t ht
    rw [List.mem_singleton.mp ht]
    exact .inl (by decide)
  · have hfresh : firstChild.page ∉ (firstTask rsp saved).live := fun h =>
      absurd (List.mem_singleton.mp h) (by decide)
    apply congrArg some
    simp [afterFork, firstTask, initialKernel, firstChild]

theorem roundTrip_first :
    (0x100000 : Nat) ∈ (afterFork firstChild.kstack firstChild.kstack).live ∧
      ∃ s', switchStep (afterFork firstChild.kstack firstChild.kstack) (.switchTo 0x100000) =
        some s' ∧ RoundTrip (afterFork firstChild.kstack firstChild.kstack) 0x100000 s' := by
  have hnext : (0x100000 : Nat) ∈ (afterFork firstChild.kstack firstChild.kstack).live := by decide
  obtain ⟨s', hstep, hiff⟩ :=
    roundTrip_iff (reaches_afterFork firstChild.kstack firstChild.kstack) hnext (by decide)
  refine ⟨hnext, s', hstep, hiff.mpr ⟨?_, ?_⟩⟩
  · intro r
    cases r <;> decide +kernel
  · intro _
    decide +kernel

/-- The first switch to the first child sets its stack pointer to zero. -/
theorem switch_loses_stack :
    Reaches switchStep CopiesClear (firstTask 0x9000 0) (afterFork 0x9000 0) ∧
      ∃ s', switchStep (afterFork 0x9000 0) (.switchTo 0x100000) = some s' ∧
      (afterFork 0x9000 0).start 0x100000 = 0x100F38 ∧ s'.regs .rsp = 0 ∧
      s'.mem (0x8000 + Field.i387.offset + 33) ≠
        (afterFork 0x9000 0).mem (0x8000 + Field.i387.offset + 33) ∧
      ¬ RoundTrip (afterFork 0x9000 0) 0x100000 s' := by
  have hstart : (afterFork 0x9000 0).start 0x100000 = 0x100F38 := by decide +kernel
  have hrsp : (switchTo (afterFork 0x9000 0) 0x100000).regs .rsp = 0 := by decide +kernel
  refine ⟨reaches_afterFork 0x9000 0, switchTo (afterFork 0x9000 0) 0x100000, ?_, hstart, hrsp,
    ?_, ?_⟩
  · rw [switchStep, if_pos (by decide)]
  · decide +kernel
  · intro h
    have := h.starts rfl
    rw [hstart, hrsp] at this
    exact absurd this (by decide)

end Linux001.Switch
