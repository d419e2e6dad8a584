import Linux001.Trap.Machine

/-! The entry stubs of `kernel/asm.nasm`, `kernel/system_call.nasm` and `mm/page.nasm` whose C
functions return: when they come to `iretq` with the registers and the stack of the interrupt.
Comparisons, jumps, `out` and the increment of `jiffies` change neither. -/

namespace Linux001.Trap

open Function ProofKit

/-- The kernel's words that the stubs read, and the C functions. -/
structure Globals where
  current : Word
  task0 : Word
  lastTaskUsedMath : Word
  doHd : Word
  unexpectedHdInterrupt : Word
  doInt3 : Word
  doDeviceNotAvailable : Word

def frameCs : Nat := 160

def saveAll : List Instr :=
  pushes [.r15, .r14, .r13, .r12, .r11, .r10, .r9, .r8, .rbp, .rsi, .rdi, .rdx, .rcx, .rbx, .rax] ++
    [.set .rax 0, .movLowSeg .rax .gs, .push .rax, .movLowSeg .rax .fs, .push .rax,
      .movLowSeg .rax .es, .push .rax, .movLowSeg .rax .ds, .push .rax,
      .movLow .rax 0x10, .segLow .ds .rax, .segLow .es .rax]

def restoreAll : List Instr :=
  [.pop .rax, .segLow .ds .rax, .pop .rax, .segLow .es .rax, .pop .rax, .segLow .fs .rax,
    .pop .rax, .segLow .gs .rax] ++
  pops [.rax, .rbx, .rcx, .rdx, .rdi, .rsi, .rbp, .r8, .r9, .r10, .r11, .r12, .r13, .r14, .r15]

/-- `ret_from_sys_call` with `n` calls of `schedule` that come back. -/
def retFromSysCall (e : Routines) (g : Globals) : Nat → Cpu → Cpu
  | n + 1, c => retFromSysCall e g n (Cpu.run e [.set .rax g.current, .call (n + 1)] c)
  | 0, c =>
    let c := Cpu.run e [.set .rax g.current, .set .rax g.current] c
    if g.current = g.task0 then c else Cpu.run e [.load .rbx frameCs] c

/-- `timer_interrupt`; function 0 is `do_timer`, the others `schedule`. -/
def timerInterrupt (e : Routines) (g : Globals) (n : Nat) (c : Cpu) : Cpu :=
  let c := Cpu.run e saveAll c
  let c := Cpu.run e [.movAl 0x20, .load .rdi frameCs, .and .rdi 3, .call 0] c
  Cpu.run e restoreAll (retFromSysCall e g n c)

/-- `hd_interrupt`; function 0 is `*do_hd`, 1 `unexpected_hd_interrupt`. -/
def hdInterrupt (e : Routines) (g : Globals) (c : Cpu) : Cpu :=
  let c := Cpu.run e saveAll c
  let c := Cpu.run e [.movAl 0x20, .set .rax g.doHd] c
  let c :=
    if c.reg .rax ≠ 0 then Cpu.run e [.call 0] c
    else Cpu.run e [.set .rax g.unexpectedHdInterrupt, .call 1] c
  Cpu.run e restoreAll c

def pageFaultEntry : List Instr :=
  pushes [.rax, .rbx, .rcx, .rdx, .rdi, .rsi, .rbp, .r8, .r9, .r10, .r11, .r12, .r13, .r14, .r15] ++
    [.movLow .rax 0x10, .segLow .ds .rax, .segLow .es .rax, .load .rsi (15 * 8), .movCr2 .rdi]

/-- `page_fault`; function 0 is `do_no_page`, and function 1 `do_wp_page`. -/
def pageFault (e : Routines) (c : Cpu) : Cpu :=
  let c := Cpu.run e pageFaultEntry c
  let c := if c.reg .rsi &&& 1 = 0 then Cpu.run e [.call 0] c else Cpu.run e [.call 1] c
  Cpu.run e (pops [.r15, .r14, .r13, .r12, .r11, .r10, .r9, .r8, .rbp, .rsi, .rdi, .rdx, .rcx, .rbx,
    .rax] ++ [.addRsp 8]) c

/-- `no_error_code_common` between its pushes and its pops of general registers. -/
def callHandler (e : Routines) (c : Cpu) : Cpu :=
  let c := Cpu.run e [.movSeg .rbx .ds, .push .rbx, .movSeg .rbx .es, .push .rbx,
    .movLow .rbx 0x10, .segLow .ds .rbx, .segLow .es .rbx, .mov .rdi .rsp, .load .rsi (18 * 8)] c
  let c := Cpu.run e [.and .rsp (~~~0xF)] c
  Cpu.run e [.call 0, .pop .rbx, .segLow .es .rbx, .pop .rbx, .segLow .ds .rbx] c

/-- `no_error_code_common`; function 0 is the handler. -/
def noErrorCodeCommon (e : Routines) (c : Cpu) : Cpu :=
  let c := Cpu.run e (pushes [.rbx, .rcx, .rdx, .rdi, .rsi, .rbp, .r8, .r9, .r10, .r11, .r12, .r13,
    .r14, .r15]) c
  let c := callHandler e c
  Cpu.run e (pops [.r15, .r14, .r13, .r12, .r11, .r10, .r9, .r8, .rbp, .rsi, .rdi, .rdx, .rcx,
    .rbx] ++ [.pop .rax, .addRsp 8]) c

/-- The stubs without an error code, for the C function `handler`. -/
def noErrorCode (e : Routines) (handler : Word) (c : Cpu) : Cpu :=
  noErrorCodeCommon e (Cpu.run e [.pushImm 0, .push .rax, .set .rax handler] c)

def int3 (e : Routines) (g : Globals) (c : Cpu) : Cpu := noErrorCode e g.doInt3 c

def debug (e : Routines) (g : Globals) (c : Cpu) : Cpu := noErrorCode e g.doInt3 c

/-- The call of `math_state_restore` in `device_not_available`; it is function 0. -/
def restoreMath (e : Routines) (c : Cpu) : Cpu :=
  Cpu.run e (pops [.rsi, .rdi]) (Cpu.run e [.call 0] (Cpu.run e (pushes [.rdi, .rsi]) c))

def deviceNotAvailable (e : Routines) (g : Globals) (c : Cpu) : Cpu :=
  let c := Cpu.run e [.pushImm 0, .push .rax, .movCr0 .rax] c
  if (c.reg .rax).getLsbD 2 then
    noErrorCodeCommon e (Cpu.run e [.set .rax g.doDeviceNotAvailable] c)
  else
    let c := Cpu.run e [.clts, .set .rax g.current] c
    let c := if c.reg .rax = g.lastTaskUsedMath then c else restoreMath e c
    Cpu.run e [.pop .rax, .addRsp 8] c

/-- The stub comes to `iretq` with its frame and all registers. -/
structure Transparent (frame : Word) (c c' : Cpu) : Prop where
  rsp : c'.rsp = frame
  same : Memory64.Same 40 frame c.mem c'.mem
  regs : ∀ r, r ≠ .rsp → c'.reg r = c.reg r

section Proofs

variable {e : Routines} {g : Globals} {c c' : Cpu} {m : Memory64} {base w : Word} {n : Nat}
  {r : Reg} {f : Cpu → Cpu}

theorem transparent_of_keeps (h : Keeps 40 c c') (hregs : ∀ r, r ≠ .rsp → c'.reg r = c.reg r) :
    Transparent c.rsp c c' :=
  ⟨h.rsp, h.same, hregs⟩

theorem transparent_addRsp (h : Keeps 48 c c') (hregs : ∀ r, r ≠ .rsp → c'.reg r = c.reg r) :
    Transparent (c.rsp + 8) c (c'.exec e (.addRsp 8)) := by
  refine ⟨?_, h.same.tail, fun r hr => ?_⟩
  · rw [← h.rsp]
    exact setReg_self c' .rsp _
  · rw [← hregs r hr]
    exact setReg_of_ne hr

theorem Transparent.of_pushWord (h : Transparent c.rsp (c.pushWord w) c') :
    Transparent c.rsp c c' := by
  refine ⟨h.rsp, ?_, fun r hr => (h.regs r hr).trans (pushWord_reg hr)⟩
  have habove := Memory64.same_store (n := 40) c.mem (c.rsp - 8) w (by decide)
  rw [BitVec.sub_add_cancel] at habove
  exact habove.trans h.same

def saved : List Reg :=
  [.r15, .r14, .r13, .r12, .r11, .r10, .r9, .r8, .rbp, .rsi, .rdi, .rdx, .rcx, .rbx, .rax]

theorem mem_saved (hr : r ≠ .rsp) : r ∈ saved := by
  cases r <;> first | decide | exact absurd rfl hr

section
variable (habi : ∀ k, Abi (e.routine k))
include habi

theorem saveAll_restoreAll (h : ∀ m base c, Below 160 m base 4 c → Below 160 m base 4 (f c)) :
    Transparent c.rsp c (Cpu.run e restoreAll (f (Cpu.run e saveAll c))) := by
  have hbody : ∀ c1, Keeps (40 + 8 * saved.length) c1
      (Cpu.run e (restoreAll.take 8) (f (Cpu.run e (saveAll.drop 15) c1))) := by
    intro c1
    have hsave := ((Keeps.refl 160 c1).below.run habi (l := saveAll.drop 15) (by decide)
      (Nat.zero_le 8) rfl).1
    exact ((h _ _ _ hsave).run habi (l := restoreAll.take 8) (by decide) (by decide) rfl).1.keeps
  obtain ⟨hkeeps, hregs, -⟩ := brackets (e := e) (c := c) (n := 40)
    (f := fun c1 => Cpu.run e (restoreAll.take 8) (f (Cpu.run e (saveAll.drop 15) c1)))
    (show .rsp ∉ saved by decide) (by decide) (hbody _)
  exact transparent_of_keeps hkeeps fun r hr => hregs r (mem_saved hr)

theorem below_retFromSysCall (h : Below 160 m base 4 c) :
    Below 160 m base 4 (retFromSysCall e g n c) := by
  induction n generalizing c with
  | zero =>
    have hset := (h.run habi (l := [.set .rax g.current, .set .rax g.current]) (by decide)
      (by decide) rfl).1
    unfold retFromSysCall
    split
    · exact hset
    · exact (hset.run habi (l := [.load .rbx frameCs]) (by decide) (by decide) rfl).1
  | succ n ih =>
    exact ih (h.run habi (l := [.set .rax g.current, .call (n + 1)]) (by decide) (by decide) rfl).1

theorem transparent_timerInterrupt :
    Transparent c.rsp c (timerInterrupt e g n c) :=
  saveAll_restoreAll (f := fun c => retFromSysCall e g n
    (Cpu.run e [.movAl 0x20, .load .rdi frameCs, .and .rdi 3, .call 0] c)) habi fun _ _ _ h =>
      below_retFromSysCall habi (h.run habi (by decide) (by decide) rfl).1

theorem transparent_hdInterrupt :
    Transparent c.rsp c (hdInterrupt e g c) := by
  refine saveAll_restoreAll (f := fun c =>
    let c := Cpu.run e [.movAl 0x20, .set .rax g.doHd] c
    if c.reg .rax ≠ 0 then Cpu.run e [.call 0] c
    else Cpu.run e [.set .rax g.unexpectedHdInterrupt, .call 1] c) habi fun m base c h => ?_
  have hset := (h.run habi (l := [.movAl 0x20, .set .rax g.doHd]) (by decide) (by decide) rfl).1
  dsimp only
  split
  · exact (hset.run habi (l := [.call 0]) (by decide) (by decide) rfl).1
  · exact (hset.run habi (l := [.set .rax g.unexpectedHdInterrupt, .call 1]) (by decide) (by decide)
      rfl).1

end

def faultSaved : List Reg :=
  [.rax, .rbx, .rcx, .rdx, .rdi, .rsi, .rbp, .r8, .r9, .r10, .r11, .r12, .r13, .r14, .r15]

theorem mem_faultSaved (hr : r ≠ .rsp) : r ∈ faultSaved := by
  cases r <;> first | decide | exact absurd rfl hr

/-- The functions of `page_fault` get CR2 first and the error code second. -/
theorem pageFaultEntry_args (e : Routines) (c : Cpu) :
    (Cpu.run e pageFaultEntry c).reg .rdi = c.cr2 ∧
      (Cpu.run e pageFaultEntry c).reg .rsi = c.mem.load c.rsp := by
  have hbelow : Below 8 c.mem c.rsp (0 + faultSaved.length) (Cpu.run e (pushes faultSaved) c) :=
    below_pushes (Keeps.refl 8 c).below (by decide)
  have hentry : pageFaultEntry = pushes faultSaved ++ pageFaultEntry.drop 15 := rfl
  have hcr2 : (Cpu.run e (pushes faultSaved) c).cr2 = c.cr2 := rfl
  rw [hentry, Cpu.run_append]
  generalize Cpu.run e (pushes faultSaved) c = c1 at hbelow hcr2 ⊢
  refine ⟨(setReg_self ..).trans hcr2, (setReg_of_ne (by decide)).trans ((setReg_self ..).trans ?_)⟩
  have hrsp : c1.rsp + 120 = c.rsp := by
    rw [hbelow.rsp]
    exact BitVec.sub_add_cancel c.rsp 120
  change c1.mem.load (c1.rsp + 120) = _
  rw [hrsp, hbelow.same.load_eq (Nat.le_refl 8)]

theorem transparent_pageFault (habi : ∀ k, Abi (e.routine k)) :
    Transparent (c.rsp + 8) c (pageFault e c) := by
  let f : Cpu → Cpu := fun c1 =>
    let c := Cpu.run e (pageFaultEntry.drop 15) c1
    if c.reg .rsi &&& 1 = 0 then Cpu.run e [.call 0] c else Cpu.run e [.call 1] c
  have hbody : ∀ c1, Keeps (48 + 8 * faultSaved.length) c1 (f c1) := by
    intro c1
    have hentry : Keeps 168 c1 (Cpu.run e (pageFaultEntry.drop 15) c1) :=
      keeps_run habi (by decide) rfl
    dsimp only [f]
    split
    · exact hentry.trans (keeps_run habi (by decide) rfl)
    · exact hentry.trans (keeps_run habi (by decide) rfl)
  obtain ⟨hkeeps, hregs, -⟩ := brackets (e := e) (c := c) (n := 48) (f := f)
    (show .rsp ∉ faultSaved by decide) (by decide) (hbody _)
  exact transparent_addRsp (e := e) hkeeps fun r hr => hregs r (mem_faultSaved hr)

theorem toNat_align (x : Word) : (x &&& ~~~0xF).toNat = x.toNat / 16 * 16 := by
  have hmask : (~~~0xF : Word).toNat = (2 ^ 60 - 1) <<< 4 := by decide
  have hshift : x.toNat / 16 * 16 = (x.toNat >>> 4) <<< 4 := by
    rw [Nat.shiftLeft_eq, Nat.shiftRight_eq_div_pow]
  rw [BitVec.toNat_and, hmask, hshift]
  apply Nat.eq_of_testBit_eq
  intro i
  simp only [Nat.testBit_and, Nat.testBit_shiftLeft, Nat.testBit_shiftRight,
    Nat.testBit_two_pow_sub_one]
  by_cases hi : i < 64
  · grind
  · have hx : x.toNat.testBit i = false :=
      Nat.testBit_lt_two_pow
        (Nat.lt_of_lt_of_le x.isLt (Nat.pow_le_pow_right (by decide) (by omega)))
    grind

/-- The pushes and pops in `no_error_code_common`, and the call. -/
theorem callHandler_rsp (habi : ∀ k, Abi (e.routine k)) :
    (callHandler e c).rsp = ((c.rsp - 16) &&& ~~~0xF) + 16 := by
  have hpush :=
    ((Keeps.refl 0 c).below.run habi (l := [.movSeg .rbx .ds, .push .rbx, .movSeg .rbx .es,
    .push .rbx, .movLow .rbx 0x10, .segLow .ds .rbx, .segLow .es .rbx, .mov .rdi .rsp,
    .load .rsi (18 * 8)]) (by decide) (Nat.zero_le 8) rfl).1.rsp
  unfold callHandler
  dsimp only
  generalize Cpu.run e _ c = c1 at hpush ⊢
  have halign : (Cpu.run e [.and .rsp (~~~0xF)] c1).rsp = c1.rsp &&& ~~~0xF := setReg_self ..
  generalize Cpu.run e _ c1 = c2 at halign ⊢
  have hbelow : Below 0 c2.mem (c2.rsp + 16) 2 c2 :=
    ⟨by simp, nofun⟩
  rw [(hbelow.run habi (l := [.call 0, .pop .rbx, .segLow .es .rbx, .pop .rbx, .segLow .ds .rbx])
    (by decide) (by decide) rfl).1.rsp, halign, hpush]
  simp

theorem callHandler_keeps (habi : ∀ k, Abi (e.routine k)) (h : c.rsp.toNat % 16 = 0) :
    Keeps 168 c (callHandler e c) := by
  have hpush := ((Keeps.refl 168 c).below.run habi (l := [.movSeg .rbx .ds, .push .rbx,
    .movSeg .rbx .es, .push .rbx, .movLow .rbx 0x10, .segLow .ds .rbx, .segLow .es .rbx,
    .mov .rdi .rsp, .load .rsi (18 * 8)]) (by decide) (Nat.zero_le 8) rfl).1
  unfold callHandler
  dsimp only
  generalize Cpu.run e _ c = c1 at hpush ⊢
  have halign : c1.rsp &&& ~~~0xF = c1.rsp := by
    apply BitVec.eq_of_toNat_eq
    rw [toNat_align, hpush.rsp]
    bv_omega
  have hsame : Cpu.run e [.and .rsp (~~~0xF)] c1 = c1 := by
    change c1.setReg .rsp (c1.rsp &&& ~~~0xF) = c1
    rw [halign, Cpu.setReg, Cpu.rsp, update_eq_self]
  rw [hsame]
  exact (hpush.run habi (by decide) (by decide) rfl).1.keeps

def commonSaved : List Reg :=
  [.rbx, .rcx, .rdx, .rdi, .rsi, .rbp, .r8, .r9, .r10, .r11, .r12, .r13, .r14, .r15]

theorem mem_commonSaved (hr : r ≠ .rsp) (hrax : r ≠ .rax) : r ∈ commonSaved := by
  cases r <;> first | decide | exact absurd rfl hr | exact absurd rfl hrax

theorem noErrorCode_rsp (habi : ∀ k, Abi (e.routine k)) :
    (noErrorCode e w c).rsp = ((c.rsp - 144) &&& ~~~0xF) + 144 := by
  have hstart : (Cpu.run e [.pushImm 0, .push .rax, .set .rax w] c).rsp = c.rsp - 8 - 8 := rfl
  unfold noErrorCode
  generalize Cpu.run e _ c = c1 at hstart ⊢
  have hpush : (Cpu.run e (pushes commonSaved) c1).rsp = c1.rsp - 112 := pushes_rsp (by decide)
  have hcall := callHandler_rsp habi (c := Cpu.run e (pushes commonSaved) c1)
  have hpop : (Cpu.run e (pops commonSaved.reverse)
      (callHandler e (Cpu.run e (pushes commonSaved) c1))).rsp = _ + 112 := pops_rsp (by decide)
  rw [hcall, hpush, hstart] at hpop
  have hlast : (noErrorCodeCommon e c1).rsp = (Cpu.run e (pops commonSaved.reverse)
      (callHandler e (Cpu.run e (pushes commonSaved) c1))).rsp + 8 + 8 := rfl
  have hsub : c.rsp - 8 - 8 - 112 - 16 = c.rsp - 144 := by bv_omega
  rw [hlast, hpop, hsub]
  bv_omega

/-- With an aligned stack, `no_error_code_common` restores all registers but `rax`. -/
theorem commonSaved_keeps (habi : ∀ k, Abi (e.routine k)) (h : c.rsp.toNat % 16 = 0) :
    Keeps 56 c (Cpu.run e (pops commonSaved.reverse)
      (callHandler e (Cpu.run e (pushes commonSaved) c))) ∧
      ∀ r ∈ commonSaved, (Cpu.run e (pops commonSaved.reverse)
        (callHandler e (Cpu.run e (pushes commonSaved) c))).reg r = c.reg r := by
  have hpush : (Cpu.run e (pushes commonSaved) c).rsp = c.rsp - 112 := pushes_rsp (by decide)
  have hkeeps := callHandler_keeps habi (c := Cpu.run e (pushes commonSaved) c)
    (by rw [hpush]; bv_omega)
  obtain ⟨hkeeps, hregs, -⟩ := brackets (n := 56) (f := callHandler e)
    (show .rsp ∉ commonSaved by decide) (by decide) hkeeps
  exact ⟨hkeeps, hregs⟩

theorem transparent_noErrorCode_iff (habi : ∀ k, Abi (e.routine k)) :
    Transparent c.rsp c (noErrorCode e w c) ↔ c.rsp.toNat % 16 = 0 := by
  constructor
  · intro h
    have hrsp := congrArg BitVec.toNat ((noErrorCode_rsp habi).symm.trans h.rsp)
    rw [BitVec.toNat_add, toNat_align] at hrsp
    bv_omega
  intro h
  let f : Cpu → Cpu := fun c1 => Cpu.run e (pops commonSaved.reverse)
    (callHandler e (Cpu.run e (pushes commonSaved) (c1.setReg .rax w)))
  let c1 := Cpu.run e (pushes [.rax]) (c.pushWord 0)
  have halign : (c1.setReg .rax w).rsp.toNat % 16 = 0 := by
    have hrsp : (c1.setReg .rax w).rsp = c.rsp - 8 - 8 := rfl
    bv_omega
  obtain ⟨hcommon, hregs⟩ := commonSaved_keeps habi halign
  have hbody : Keeps (48 + 8 * [Reg.rax].length) c1 (f c1) :=
    ⟨hcommon.rsp.trans (setReg_rsp (by decide)), hcommon.same⟩
  obtain ⟨hkeeps, hrax, hother⟩ := brackets (f := f) (by decide) (by decide) hbody
  have htrans := transparent_addRsp (e := e) hkeeps fun r hr => by
    by_cases hr' : r = .rax
    · exact hrax r (List.mem_singleton.mpr hr')
    · rw [hother r (fun hmem => hr' (List.mem_singleton.mp hmem)) hr]
      refine (hregs r (mem_commonSaved hr hr')).trans ?_
      rw [setReg_of_ne hr']
      exact pushes_reg hr
  rw [pushWord_rsp, BitVec.sub_add_cancel] at htrans
  exact htrans.of_pushWord

/-- The registers that a C function need not keep, but for three. -/
def scratch : List Reg := [.rcx, .rdx, .r8, .r9, .r10, .r11]

def mathEntry (e : Routines) (g : Globals) (c : Cpu) : Cpu :=
  (Cpu.run e (pushes [.rdi, .rsi]) (Cpu.run e [.pushImm 0, .push .rax, .movCr0 .rax, .clts,
    .set .rax g.current] c)).pushWord (e.address 0)

theorem transparent_math_iff (habi : ∀ k, Abi (e.routine k)) (h : ∀ c, Keeps 56 c (f c)) :
    Transparent c.rsp c (Cpu.run e [.pop .rax, .addRsp 8]
      (f (Cpu.run e [.pushImm 0, .push .rax, .movCr0 .rax, .clts, .set .rax g.current] c))) ↔
    ∀ r, r ≠ .rsp → r ≠ .rax →
      (f (Cpu.run e [.pushImm 0, .push .rax, .movCr0 .rax, .clts, .set .rax g.current] c)).reg r =
        c.reg r := by
  let f' : Cpu → Cpu := fun c1 => f (Cpu.run e [.movCr0 .rax, .clts, .set .rax g.current] c1)
  let c1 := Cpu.run e (pushes [.rax]) (c.pushWord 0)
  have hbody : Keeps (48 + 8 * [Reg.rax].length) c1 (f' c1) :=
    (keeps_run (n := 56) habi (by decide) rfl).trans (h _)
  obtain ⟨hkeeps, hrax, hother⟩ := brackets (f := f') (by decide) (by decide) hbody
  have hne : ∀ {r}, r ≠ Reg.rax → r ∉ [Reg.rax] := fun hr hmem => hr (List.mem_singleton.mp hmem)
  constructor
  · intro htrans r hr hr'
    exact (hother r (hne hr') hr).symm.trans ((setReg_of_ne hr).symm.trans (htrans.regs r hr))
  intro hregs
  have htrans := transparent_addRsp (e := e) hkeeps fun r hr => by
    by_cases hr' : r = .rax
    · exact hrax r (List.mem_singleton.mpr hr')
    · rw [hother r (hne hr') hr, pushWord_reg hr]
      exact hregs r hr hr'
  rw [pushWord_rsp, BitVec.sub_add_cancel] at htrans
  exact htrans.of_pushWord

theorem restoreMath_spec (habi : ∀ k, Abi (e.routine k)) (c : Cpu) :
    Keeps 56 c (restoreMath e c) ∧
      (∀ r ∈ [Reg.rdi, Reg.rsi], (restoreMath e c).reg r = c.reg r) ∧
      ∀ r ∉ [Reg.rdi, Reg.rsi], r ≠ .rsp → (restoreMath e c).reg r =
        (e.routine 0 ((Cpu.run e (pushes [.rdi, .rsi]) c).pushWord (e.address 0))).reg r := by
  have hcall : Keeps (56 + 8 * [Reg.rdi, Reg.rsi].length) (Cpu.run e (pushes [.rdi, .rsi]) c)
      (Cpu.run e [.call 0] (Cpu.run e (pushes [.rdi, .rsi]) c)) := keeps_run habi (by decide) rfl
  obtain ⟨hkeeps, hregs, hother⟩ :=
    brackets (f := Cpu.run e [.call 0]) (by decide) (by decide) hcall
  refine ⟨hkeeps, hregs, fun r hr hrsp => (hother r hr hrsp).trans ?_⟩
  exact setReg_of_ne hrsp

theorem transparent_restoreMath_iff (habi : ∀ k, Abi (e.routine k)) :
    (∀ r, r ≠ .rsp → r ≠ .rax → (restoreMath e (Cpu.run e [.pushImm 0, .push .rax, .movCr0 .rax,
      .clts, .set .rax g.current] c)).reg r = c.reg r) ↔
    ∀ r ∈ scratch, (e.routine 0 (mathEntry e g c)).reg r = c.reg r := by
  have hstart : ∀ r, r ≠ .rsp → r ≠ .rax → (Cpu.run e [.pushImm 0, .push .rax, .movCr0 .rax,
      .clts, .set .rax g.current] c).reg r = c.reg r := by
    intro r hr hr'
    exact (setReg_of_ne hr').trans ((setReg_of_ne hr').trans ((pushWord_reg hr).trans
      (pushWord_reg hr)))
  obtain ⟨-, hsaved, hother⟩ := restoreMath_spec habi (Cpu.run e [.pushImm 0, .push .rax,
    .movCr0 .rax, .clts, .set .rax g.current] c)
  have hscratch : ∀ r ∈ scratch, r ≠ .rsp ∧ r ≠ .rax ∧ r ∉ [Reg.rdi, Reg.rsi] := by decide
  constructor
  · intro h r hr
    obtain ⟨hrsp, hrax, hnot⟩ := hscratch r hr
    exact (hother r hnot hrsp).symm.trans (h r hrsp hrax)
  intro h r hr hr'
  by_cases hmem : r ∈ [Reg.rdi, Reg.rsi]
  · exact (hsaved r hmem).trans (hstart r hr hr')
  rw [hother r hmem hr]
  by_cases hs : r ∈ scratch
  · exact h r hs
  · have hkept : r ∈ calleeSaved := by
      cases r <;> first | decide | exact absurd rfl hr' | exact absurd (by decide) hs |
        exact absurd (by decide) hmem
    rw [(habi 0).kept _ r hkept, pushWord_reg hr, pushes_reg hr]
    exact hstart r hr hr'

end Proofs

/-- The stubs; the timer comes with its calls of `schedule`. -/
inductive Stub
  | timerInterrupt (reschedules : Nat)
  | hdInterrupt
  | pageFault
  | int3
  | debug
  | deviceNotAvailable

namespace Stub

def enter (e : Routines) (g : Globals) : Stub → Cpu → Cpu
  | timerInterrupt n => Trap.timerInterrupt e g n
  | hdInterrupt => Trap.hdInterrupt e g
  | pageFault => Trap.pageFault e
  | int3 => Trap.int3 e g
  | debug => Trap.debug e g
  | deviceNotAvailable => Trap.deviceNotAvailable e g

/-- The address of the frame, above the error code of a page fault. -/
def frame (c : Cpu) : Stub → Word
  | pageFault => c.rsp + 8
  | _ => c.rsp

/-- The stack is aligned where it has to be, and registers not saved are kept. -/
def Clean (e : Routines) (g : Globals) (c : Cpu) : Stub → Prop
  | timerInterrupt _ | hdInterrupt | pageFault => True
  | int3 | debug => c.rsp.toNat % 16 = 0
  | deviceNotAvailable =>
    if c.cr0.getLsbD 2 then c.rsp.toNat % 16 = 0
    else g.current = g.lastTaskUsedMath ∨
      ∀ r ∈ scratch, (e.routine 0 (mathEntry e g c)).reg r = c.reg r

end Stub

theorem transparent_deviceNotAvailable_iff {e : Routines} {g : Globals} {c : Cpu}
    (habi : ∀ k, Abi (e.routine k)) :
    Transparent c.rsp c (deviceNotAvailable e g c) ↔ Stub.deviceNotAvailable.Clean e g c := by
  have hcr0 : (Cpu.run e [.pushImm 0, .push .rax, .movCr0 .rax] c).reg .rax = c.cr0 :=
    setReg_self ..
  simp only [deviceNotAvailable, Stub.Clean]
  rw [hcr0]
  split
  · have hset : Cpu.run e [.set .rax g.doDeviceNotAvailable]
        (Cpu.run e [.pushImm 0, .push .rax, .movCr0 .rax] c) =
        Cpu.run e [.pushImm 0, .push .rax, .set .rax g.doDeviceNotAvailable] c := by
      simp [Cpu.run, Cpu.exec, Cpu.setReg]
    rw [hset]
    exact transparent_noErrorCode_iff habi
  · have hcurrent : (Cpu.run e [.clts, .set .rax g.current]
        (Cpu.run e [.pushImm 0, .push .rax, .movCr0 .rax] c)).reg .rax = g.current := setReg_self ..
    rw [hcurrent]
    split
    · rename_i hlast
      refine (transparent_math_iff (f := id) habi fun c => .refl 56 c).trans
        (iff_of_true ?_ (.inl hlast))
      intro r hr hr'
      exact (setReg_of_ne hr').trans ((setReg_of_ne hr').trans ((pushWord_reg hr).trans
        (pushWord_reg hr)))
    · rename_i hlast
      rw [or_iff_right hlast]
      exact (transparent_math_iff (f := restoreMath e) habi fun c =>
        (restoreMath_spec habi c).1).trans
        (transparent_restoreMath_iff habi)

/-- Each stub comes to `iretq` unchanged exactly where the stack is aligned and no register is lost.
-/
theorem transparent_iff {e : Routines} (habi : ∀ k, Abi (e.routine k)) (g : Globals) (c : Cpu)
    (stub : Stub) : Transparent (stub.frame c) c (stub.enter e g c) ↔ stub.Clean e g c := by
  cases stub with
  | timerInterrupt n => exact iff_of_true (transparent_timerInterrupt habi) trivial
  | hdInterrupt => exact iff_of_true (transparent_hdInterrupt habi) trivial
  | pageFault => exact iff_of_true (transparent_pageFault habi) trivial
  | int3 => exact transparent_noErrorCode_iff habi
  | debug => exact transparent_noErrorCode_iff habi
  | deviceNotAvailable => exact transparent_deviceNotAvailable_iff habi

def returning : Routines := ⟨fun _ c => c, fun _ => 0x4000⟩

theorem returning_abi (k : Nat) : Abi (returning.routine k) :=
  ⟨fun _ _ _ => rfl, fun c => .refl _ _ c.mem⟩

def globals : Globals := ⟨0x10000, 0x10000, 0, 0, 0x5000, 0x6000, 0x7000⟩

def stackAt (rsp : Word) : Cpu where
  reg r := if r = .rsp then rsp else 7
  seg _ := 0x17
  cr0 := 0
  cr2 := 0
  mem _ := 0

theorem transparent_iff_int3 :
    Transparent 0x8000 (stackAt 0x8000) (Stub.int3.enter returning globals (stackAt 0x8000)) :=
  (transparent_iff returning_abi globals (stackAt 0x8000) .int3).mpr
    (show (stackAt 0x8000).rsp.toNat % 16 = 0 by decide)

/-- From an aligned stack, `int3` loses the frame. -/
theorem int3_loses_frame : (∀ k, Abi (returning.routine k)) ∧
    ¬Transparent 0x7FD8 (stackAt 0x7FD8) (Stub.int3.enter returning globals (stackAt 0x7FD8)) := by
  refine ⟨returning_abi, fun h => ?_⟩
  have hrsp : (noErrorCode returning globals.doInt3 (stackAt 0x7FD8)).rsp = 0x7FD0 :=
    (noErrorCode_rsp returning_abi).trans (by decide)
  exact absurd (hrsp.symm.trans h.rsp) (by decide)

end Linux001.Trap
