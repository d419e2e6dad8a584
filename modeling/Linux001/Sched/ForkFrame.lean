import Linux001.ProofKit.Sizes

/-! The registers of a process over `fork`, from `int 0x80` to the returns of parent and child to
user mode. The kernel stack is the list of its words, the top first, so that `[rsp + n]` is the word
`n / 8` of the list. -/

namespace Linux001.Sched

open Function

abbrev Word := BitVec 64

inductive Gpr
  | rax | rbx | rcx | rdx | rsi | rdi | rbp | r8 | r9 | r10 | r11 | r12 | r13 | r14 | r15
  deriving DecidableEq

inductive Seg
  | ds | es | fs | gs
  deriving DecidableEq

structure Cpu where
  gpr : Gpr → Word
  seg : Seg → BitVec 16
  stack : List Word

inductive Instr
  | push (r : Gpr)
  | pushAt (offset : Nat)
  | pop (r : Gpr)
  | load (r : Gpr) (offset : Nat)
  | store (offset : Nat) (r : Gpr)
  | mov (r r' : Gpr)
  | set (r : Gpr) (w : Word)
  | movAx (x : BitVec 16)
  | movAxSeg (s : Seg)
  | movSegAx (s : Seg)
  | addRsp (n : Nat)

namespace Cpu

def setGpr (c : Cpu) (r : Gpr) (w : Word) : Cpu := { c with gpr := update c.gpr r w }

def setAx (c : Cpu) (x : BitVec 16) : Cpu :=
  c.setGpr .rax ((c.gpr .rax &&& ~~~0xFFFF) ||| x.setWidth 64)

def exec (c : Cpu) : Instr → Option Cpu
  | .push r => some { c with stack := c.gpr r :: c.stack }
  | .pushAt offset => c.stack[offset / 8]?.map fun w => { c with stack := w :: c.stack }
  | .pop r =>
    match c.stack with
    | [] => none
    | w :: rest => some { c.setGpr r w with stack := rest }
  | .load r offset => c.stack[offset / 8]?.map (c.setGpr r)
  | .store offset r => some { c with stack := c.stack.set (offset / 8) (c.gpr r) }
  | .mov r r' => some (c.setGpr r (c.gpr r'))
  | .set r w => some (c.setGpr r w)
  | .movAx x => some (c.setAx x)
  | .movAxSeg s => some (c.setAx (c.seg s))
  | .movSegAx s => some { c with seg := update c.seg s ((c.gpr .rax).setWidth 16) }
  | .addRsp n => some { c with stack := c.stack.drop (n / 8) }

def execAll : List Instr → Cpu → Option Cpu
  | [], c => some c
  | i :: is, c => (c.exec i).bind (execAll is)

def call (c : Cpu) (address : Word) : Cpu := { c with stack := address :: c.stack }

def ret (c : Cpu) : Cpu := { c with stack := c.stack.tail }

/-- After a C function `rax` is the result, and scratch registers are arbitrary. -/
def returned (c : Cpu) (result : Word) (junk : Gpr → Word) : Cpu :=
  { c with gpr := fun r =>
      match r with
      | .rax => result
      | .rbx | .rbp | .r12 | .r13 | .r14 | .r15 => c.gpr r
      | r => junk r }

@[simp]
theorem returned_stack (c : Cpu) (result : Word) (junk : Gpr → Word) :
    (c.returned result junk).stack = c.stack := rfl

end Cpu

structure UserRegs where
  gpr : Gpr → Word
  seg : Seg → BitVec 16
  rip : Word
  cs : BitVec 16
  rflags : Word
  rsp : Word
  ss : BitVec 16

def UserRegs.interrupt (u : UserRegs) : Cpu where
  gpr := u.gpr
  seg := u.seg
  stack := [u.rip, u.cs.setWidth 64, u.rflags, u.rsp, u.ss.setWidth 64]

def Cpu.iretq (c : Cpu) : Option UserRegs :=
  match c.stack with
  | rip :: cs :: rflags :: rsp :: ss :: _ =>
    some ⟨c.gpr, c.seg, rip, cs.setWidth 16, rflags, rsp, ss.setWidth 16⟩
  | _ => none

def frameDs : Nat := 0
def frameEs : Nat := 8
def frameFs : Nat := 16
def frameGs : Nat := 24
def frameRax : Nat := 32
def frameRbx : Nat := 40
def frameRcx : Nat := 48
def frameRdx : Nat := 56
def frameRdi : Nat := 64
def frameRsi : Nat := 72
def frameRbp : Nat := 80
def frameRip : Nat := 152
def frameCs : Nat := 160
def frameRflags : Nat := 168
def frameRsp : Nat := 176
def frameSs : Nat := 184

def saveAll : List Instr :=
  [.push .r15, .push .r14, .push .r13, .push .r12, .push .r11, .push .r10, .push .r9, .push .r8,
    .push .rbp, .push .rsi, .push .rdi, .push .rdx, .push .rcx, .push .rbx, .push .rax,
    .set .rax 0, .movAxSeg .gs, .push .rax, .movAxSeg .fs, .push .rax, .movAxSeg .es, .push .rax,
    .movAxSeg .ds, .push .rax, .movAx 0x10, .movSegAx .ds, .movSegAx .es]

def restoreAll : List Instr :=
  [.pop .rax, .movSegAx .ds, .pop .rax, .movSegAx .es, .pop .rax, .movSegAx .fs,
    .pop .rax, .movSegAx .gs, .pop .rax, .pop .rbx, .pop .rcx, .pop .rdx, .pop .rdi, .pop .rsi,
    .pop .rbp, .pop .r8, .pop .r9, .pop .r10, .pop .r11, .pop .r12, .pop .r13, .pop .r14, .pop .r15]

def systemCallArgs : List Instr :=
  [.load .rdi frameRbx, .load .rsi frameRcx, .load .rdx frameRdx, .load .rcx frameRsi,
    .load .r8 frameRdi, .load .r9 frameRbp]

def copyProcessArgs : List Instr :=
  [.mov .rdi .rax, .load .rsi frameRbp, .load .rdx frameRdi, .load .rcx frameRsi,
    .load .r8 frameGs, .set .r9 0,
    .pushAt (frameSs + 8), .pushAt (frameRsp + 16), .pushAt (frameRflags + 24),
    .pushAt (frameCs + 32), .pushAt (frameRip + 40), .pushAt (frameDs + 48), .pushAt (frameEs + 56),
    .pushAt (frameFs + 64), .pushAt (frameRdx + 72), .pushAt (frameRcx + 80),
    .pushAt (frameRbx + 88)]

structure ForkArgs where
  (nr rbp userRdi userRsi gs none : Word)
  (rbx rcx rdx fs es ds rip cs rflags rsp ss : Word)

/-- Six parameters are in registers, the others on the stack. -/
def ForkArgs.receive (c : Cpu) : Option ForkArgs :=
  match c.stack with
  | _ :: rbx :: rcx :: rdx :: fs :: es :: ds :: rip :: cs :: rflags :: rsp :: ss :: _ =>
    some ⟨c.gpr .rdi, c.gpr .rsi, c.gpr .rdx, c.gpr .rcx, c.gpr .r8, c.gpr .r9,
      rbx, rcx, rdx, fs, es, ds, rip, cs, rflags, rsp, ss⟩
  | _ => Option.none

def ForkArgs.pushes (a : ForkArgs) (retFromFork : Word) : List Word :=
  [a.ss, a.rsp, a.rflags, a.cs, a.rip, 0, 0, 0, 0, 0, 0, 0, 0, a.rbp, a.userRsi, a.userRdi,
    a.rdx, a.rcx, a.rbx, 0, a.gs, a.fs, a.es, a.ds, retFromFork]

/-- The results of the C functions, the addresses and registers they leave. -/
structure ForkRun where
  nr : Word
  copied : Except Word Word
  retFromFork : Word
  address : Nat → Word
  junk : Nat → Gpr → Word
  before : Nat → Cpu

def restore (c : Cpu) (stack : List Word) : Option UserRegs :=
  (Cpu.execAll restoreAll { c with stack }).bind Cpu.iretq

/-- `copy_process`: the processor at its return, and the child's stack. -/
def copyProcess (e : ForkRun) (c : Cpu) : Option (Cpu × Option (List Word)) :=
  (ForkArgs.receive c).map fun args =>
    match e.copied with
    | .error w => (c.ret.returned w (e.junk 1), none)
    | .ok pid => (c.ret.returned pid (e.junk 1), some (args.pushes e.retFromFork).reverse)

def sysFork (e : ForkRun) (c : Cpu) : Option (Cpu × Option (List Word)) := do
  let c := c.returned e.nr (e.junk 0)
  if e.nr.msb then
    return (c.ret, none)
  else
    let c ← Cpu.execAll copyProcessArgs c
    let (c, child) ← copyProcess e (c.call (e.address 1))
    let c ← c.exec (.addRsp 88)
    return (c.ret, child)

def systemCallEntry (u : UserRegs) : Option Cpu :=
  ((Cpu.execAll saveAll u.interrupt).bind (Cpu.exec · (.load .rax frameRax))).bind
    (Cpu.execAll systemCallArgs)

/-- `system_call` for `sys_fork`: the registers of parent and child afterwards. -/
def forkSystemCall (u : UserRegs) (e : ForkRun) : Option (UserRegs × Option UserRegs) := do
  let c ← systemCallEntry u
  if c.gpr .rax ≠ 2 then none else do
    let (c, child) ← sysFork e (c.call (e.address 0))
    let c ← c.exec (.store frameRax .rax)
    let parent ← restore (e.before 0) c.stack
    match child with
    | none => return (parent, none)
    | some stack => return (parent, some (← restore (e.before 1) stack.tail))

def UserRegs.frame (u : UserRegs) (rax : Word) : List Word :=
  [(u.seg .ds).setWidth 64, (u.seg .es).setWidth 64, (u.seg .fs).setWidth 64,
    (u.seg .gs).setWidth 64, rax, u.gpr .rbx, u.gpr .rcx, u.gpr .rdx, u.gpr .rdi, u.gpr .rsi,
    u.gpr .rbp, u.gpr .r8, u.gpr .r9, u.gpr .r10, u.gpr .r11, u.gpr .r12, u.gpr .r13, u.gpr .r14,
    u.gpr .r15, u.rip, u.cs.setWidth 64, u.rflags, u.rsp, u.ss.setWidth 64]

def UserRegs.withRax (u : UserRegs) (w : Word) : UserRegs := { u with gpr := update u.gpr .rax w }

attribute [ext] UserRegs

@[simp]
theorem setWidth_and_high (x : BitVec 16) :
    x.setWidth 64 &&& 0xFFFFFFFFFFFF0000#64 = 0#64 := by
  apply BitVec.eq_of_getLsbD_eq
  intro i hi
  have hmask : (0xFFFFFFFFFFFF0000#64).getLsbD i = decide (16 ≤ i) := by
    revert i
    decide
  rw [BitVec.getLsbD_and, hmask, BitVec.getLsbD_setWidth]
  rcases Nat.lt_or_ge i 16 with hlow | hhigh
  · simp [hlow]
  · simp [BitVec.getLsbD_of_ge x i hhigh]

theorem setWidth_setWidth (x : BitVec 16) : (x.setWidth 64).setWidth 16 = x := by
  simp

theorem restore_frame (c : Cpu) (u : UserRegs) (w : Word) :
    restore c (u.frame w) = some (u.withRax w) := by
  apply congrArg some
  apply UserRegs.ext
  · funext r
    cases r <;> rfl
  · funext s
    cases s <;> exact setWidth_setWidth _
  · rfl
  · exact setWidth_setWidth u.cs
  · rfl
  · rfl
  · exact setWidth_setWidth u.ss

theorem systemCallEntry_eq (u : UserRegs) :
    ∃ c, systemCallEntry u = some c ∧ c.gpr .rax = u.gpr .rax ∧
      c.stack = u.frame (u.gpr .rax) := by
  refine ⟨_, rfl, rfl, ?_⟩
  simp [UserRegs.frame, Cpu.setGpr, Cpu.setAx, UserRegs.interrupt]

def UserRegs.forked (u : UserRegs) : UserRegs where
  gpr := fun r =>
    match r with
    | .rbx | .rcx | .rdx => u.gpr r
    | .rdi => u.gpr .rdx
    | .rsi => u.gpr .rdi
    | .rbp => u.gpr .rsi
    | _ => 0
  seg := fun s =>
    match s with
    | .gs => u.seg .fs
    | s => u.seg s
  rip := u.rip
  cs := u.cs
  rflags := u.rflags
  rsp := u.rsp
  ss := u.ss

/-- What `copy_process` gets: the loads miss a return address, and are one word off. -/
def UserRegs.forkArgs (u : UserRegs) (nr : Word) : ForkArgs where
  nr := nr
  rbp := u.gpr .rsi
  userRdi := u.gpr .rdx
  userRsi := u.gpr .rdi
  gs := (u.seg .fs).setWidth 64
  none := 0
  rbx := u.gpr .rbx
  rcx := u.gpr .rcx
  rdx := u.gpr .rdx
  fs := (u.seg .fs).setWidth 64
  es := (u.seg .es).setWidth 64
  ds := (u.seg .ds).setWidth 64
  rip := u.rip
  cs := u.cs.setWidth 64
  rflags := u.rflags
  rsp := u.rsp
  ss := u.ss.setWidth 64

theorem copyProcessArgs_eq {u : UserRegs} {c : Cpu} {address w : Word} (address' : Word)
    (hstack : c.stack = address :: u.frame w) :
    ∃ c', Cpu.execAll copyProcessArgs c = some c' ∧ c'.stack.drop 12 = u.frame w ∧
      ForkArgs.receive (c'.call address') = some (u.forkArgs (c.gpr .rax)) := by
  obtain ⟨gpr, seg, stack⟩ := c
  change stack = address :: u.frame w at hstack
  subst stack
  exact ⟨_, rfl, rfl, rfl⟩

theorem forkArgs_pushes (u : UserRegs) (nr address : Word) :
    ((u.forkArgs nr).pushes address).reverse = address :: u.forked.frame 0 := rfl

/-- A `fork` returns the pid with the frame, and a frame for the child. -/
theorem sysFork_eq {e : ForkRun} {u : UserRegs} {c : Cpu} {pid w : Word} (hnr : e.nr.msb = false)
    (hcopied : e.copied = .ok pid) (hstack : c.stack = u.frame w) :
    ∃ c', sysFork e (c.call (e.address 0)) =
        some (c', some (e.retFromFork :: u.forked.frame 0)) ∧
      c'.gpr .rax = pid ∧ c'.stack = u.frame w := by
  have hcall : ((c.call (e.address 0)).returned e.nr (e.junk 0)).stack =
      e.address 0 :: u.frame w := congrArg _ hstack
  obtain ⟨c1, hargs, hdrop, hreceive⟩ := copyProcessArgs_eq (e.address 1) hcall
  have hcopy : copyProcess e (c1.call (e.address 1)) =
      some (c1.returned pid (e.junk 1), some (e.retFromFork :: u.forked.frame 0)) := by
    rw [copyProcess, hreceive, hcopied, Option.map_some, forkArgs_pushes]
    rfl
  refine ⟨{ c1.returned pid (e.junk 1) with stack := u.frame w }, ?_, rfl, rfl⟩
  rw [sysFork, hnr]
  simp [hargs, hcopy, Cpu.exec, Cpu.ret, hdrop]

theorem forkSystemCall_eq {u : UserRegs} {e : ForkRun} {pid : Word} (hnumber : u.gpr .rax = 2)
    (hnr : e.nr.msb = false) (hcopied : e.copied = .ok pid) :
    forkSystemCall u e = some (u.withRax pid, some (u.forked.withRax 0)) := by
  obtain ⟨c, hentry, hrax, hstack⟩ := systemCallEntry_eq u
  obtain ⟨c', hfork, hpid, hstack'⟩ := sysFork_eq hnr hcopied hstack
  have hstore : c'.exec (.store frameRax .rax) = some { c' with stack := u.frame pid } := by
    rw [Cpu.exec, hpid, hstack']
    rfl
  simp [forkSystemCall, hentry, hrax, hnumber, hfork, hstore, restore_frame]

/-- The registers that the child gets wrong are the same as those it should get. -/
structure Undisturbed (u : UserRegs) : Prop where
  rdi : u.gpr .rdi = u.gpr .rdx
  rsi : u.gpr .rsi = u.gpr .rdi
  rbp : u.gpr .rbp = u.gpr .rsi
  gs : u.seg .gs = u.seg .fs
  high : ∀ r ∈ [Gpr.r8, .r9, .r10, .r11, .r12, .r13, .r14, .r15], u.gpr r = 0

theorem forked_withRax_iff (u : UserRegs) : u.forked.withRax 0 = u.withRax 0 ↔ Undisturbed u := by
  constructor
  · intro h
    have hgpr : ∀ r, (u.forked.withRax 0).gpr r = (u.withRax 0).gpr r := fun r => by rw [h]
    have hseg : ∀ s, (u.forked.withRax 0).seg s = (u.withRax 0).seg s := fun s => by rw [h]
    refine ⟨(hgpr .rdi).symm, (hgpr .rsi).symm, (hgpr .rbp).symm, (hseg .gs).symm, ?_⟩
    intro r hr
    simp only [List.mem_cons, List.not_mem_nil, or_false] at hr
    rcases hr with rfl | rfl | rfl | rfl | rfl | rfl | rfl | rfl
    exacts [(hgpr .r8).symm, (hgpr .r9).symm, (hgpr .r10).symm, (hgpr .r11).symm,
      (hgpr .r12).symm, (hgpr .r13).symm, (hgpr .r14).symm, (hgpr .r15).symm]
  · intro h
    apply UserRegs.ext
    · funext r
      cases r with
      | rdi => exact h.rdi.symm
      | rsi => exact h.rsi.symm
      | rbp => exact h.rbp.symm
      | rax | rbx | rcx | rdx => rfl
      | _ => exact (h.high _ (by decide)).symm
    · funext s
      cases s with
      | gs => exact h.gs.symm
      | _ => rfl
    all_goals rfl

/-- A `fork` gives the child the registers of its parent exactly when `rdx`, `rdi`, `rsi` and `rbp`
are equal, `fs` and `gs` are equal, and `r8` to `r15` are zero. -/
theorem forkSystemCall_duplicates_iff {u : UserRegs} {e : ForkRun} {pid : Word}
    (hnumber : u.gpr .rax = 2) (hnr : e.nr.msb = false) (hcopied : e.copied = .ok pid) :
    ∃ child, forkSystemCall u e = some (u.withRax pid, some child) ∧
      (child = u.withRax 0 ↔ Undisturbed u) :=
  ⟨u.forked.withRax 0, forkSystemCall_eq hnumber hnr hcopied, forked_withRax_iff u⟩

/-- The registers of a process with the argument registers as given. -/
def forkUser (rdx rdi rsi rbp : Word) : UserRegs where
  gpr := fun r =>
    match r with
    | .rax => 2
    | .rdx => rdx
    | .rdi => rdi
    | .rsi => rsi
    | .rbp => rbp
    | _ => 0
  seg := fun _ => 0x23
  rip := 0x1000
  cs := 0x1B
  rflags := 0x202
  rsp := 0x8000
  ss := 0x23

def forkRun : ForkRun where
  nr := 1
  copied := .ok 2
  retFromFork := 0
  address := fun _ => 0
  junk := fun _ _ => 0
  before := fun _ => ⟨fun _ => 0, fun _ => 0, []⟩

theorem forkSystemCall_duplicates_equal :
    (forkUser 5 5 5 5).gpr .rax = 2 ∧ forkRun.nr.msb = false ∧
      ∃ child, forkSystemCall (forkUser 5 5 5 5) forkRun =
        some ((forkUser 5 5 5 5).withRax 2, some child) ∧ child = (forkUser 5 5 5 5).withRax 0 := by
  obtain ⟨child, hcall, hiff⟩ :=
    forkSystemCall_duplicates_iff (u := forkUser 5 5 5 5) (e := forkRun) rfl (by decide) rfl
  refine ⟨rfl, by decide, child, hcall, hiff.mpr ⟨rfl, rfl, rfl, rfl, ?_⟩⟩
  decide

/-- With registers 1, 2, 3 and 4, the child gets 1 in `rdi`, 2 in `rsi`. -/
theorem fork_shifts_registers :
    ∃ parent child, forkSystemCall (forkUser 1 2 3 4) forkRun = some (parent, some child) ∧
      child.gpr .rdi = 1 ∧ child.gpr .rsi = 2 ∧ child.gpr .rbp = 3 ∧
      child ≠ (forkUser 1 2 3 4).withRax 0 := by
  refine ⟨_, _, forkSystemCall_eq rfl (by decide) rfl, rfl, rfl, rfl, ?_⟩
  intro h
  exact absurd ((forked_withRax_iff _).mp h).rdi (by decide)

end Linux001.Sched
