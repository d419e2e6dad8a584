import Linux001.ProofKit.Stack

/-! The processor as the entry stubs of interrupts use it. A C function is any change that keeps to
the calling convention; pushes and pops around code that leaves the stack above it alone restore the
registers that they save. -/

namespace Linux001.Trap

open Function ProofKit

abbrev Word := BitVec 64

inductive Reg
  | rax | rbx | rcx | rdx | rsi | rdi | rbp | rsp | r8 | r9 | r10 | r11 | r12 | r13 | r14 | r15
  deriving DecidableEq

inductive Seg
  | ds | es | fs | gs
  deriving DecidableEq

structure Cpu where
  reg : Reg → Word
  seg : Seg → BitVec 16
  cr0 : Word
  cr2 : Word
  mem : Memory64

/-- The instructions of the stubs; `call k` calls the C function with number `k`. -/
inductive Instr
  | push (r : Reg)
  | pushImm (w : Word)
  | pop (r : Reg)
  | mov (r r' : Reg)
  | set (r : Reg) (w : Word)
  | load (r : Reg) (offset : Nat)
  | and (r : Reg) (w : Word)
  | addRsp (n : Nat)
  | movSeg (r : Reg) (s : Seg)
  | movLow (r : Reg) (x : BitVec 16)
  | movLowSeg (r : Reg) (s : Seg)
  | segLow (s : Seg) (r : Reg)
  | movAl (x : BitVec 8)
  | movCr0 (r : Reg)
  | movCr2 (r : Reg)
  | clts
  | call (k : Nat)
  deriving DecidableEq

/-- The C functions that a stub calls, and the return addresses of the calls. -/
structure Routines where
  routine : Nat → Cpu → Cpu
  address : Nat → Word

namespace Cpu

def setReg (c : Cpu) (r : Reg) (w : Word) : Cpu := { c with reg := update c.reg r w }

def rsp (c : Cpu) : Word := c.reg .rsp

def pushWord (c : Cpu) (w : Word) : Cpu :=
  { c.setReg .rsp (c.rsp - 8) with mem := c.mem.store (c.rsp - 8) w }

def popWord (c : Cpu) (r : Reg) : Cpu := (c.setReg .rsp (c.rsp + 8)).setReg r (c.mem.load c.rsp)

def setLow (c : Cpu) (r : Reg) (x : BitVec 16) : Cpu :=
  c.setReg r ((c.reg r &&& ~~~0xFFFF) ||| x.setWidth 64)

def call (e : Routines) (k : Nat) (c : Cpu) : Cpu :=
  let c := e.routine k (c.pushWord (e.address k))
  c.setReg .rsp (c.rsp + 8)

/-- One instruction.  `[rsp + n]` is the only address that the stubs use. -/
def exec (e : Routines) (c : Cpu) : Instr → Cpu
  | .push r => c.pushWord (c.reg r)
  | .pushImm w => c.pushWord w
  | .pop r => c.popWord r
  | .mov r r' => c.setReg r (c.reg r')
  | .set r w => c.setReg r w
  | .load r offset => c.setReg r (c.mem.load (c.rsp + BitVec.ofNat 64 offset))
  | .and r w => c.setReg r (c.reg r &&& w)
  | .addRsp n => c.setReg .rsp (c.rsp + BitVec.ofNat 64 n)
  | .movSeg r s => c.setReg r ((c.seg s).setWidth 64)
  | .movLow r x => c.setLow r x
  | .movLowSeg r s => c.setLow r (c.seg s)
  | .segLow s r => { c with seg := update c.seg s ((c.reg r).setWidth 16) }
  | .movAl x => c.setReg .rax ((c.reg .rax &&& ~~~0xFF) ||| x.setWidth 64)
  | .movCr0 r => c.setReg r c.cr0
  | .movCr2 r => c.setReg r c.cr2
  | .clts => { c with cr0 := c.cr0 &&& ~~~8 }
  | .call k => c.call e k

def run (e : Routines) : List Instr → Cpu → Cpu
  | [], c => c
  | i :: is, c => run e is (c.exec e i)

theorem run_append (e : Routines) (is js : List Instr) (c : Cpu) :
    run e (is ++ js) c = run e js (run e is c) := by
  induction is generalizing c with
  | nil => rfl
  | cons i is ih => exact ih _

end Cpu

def calleeSaved : List Reg := [.rbx, .rbp, .rsp, .r12, .r13, .r14, .r15]

/-- The bytes above its return address that a C function leaves alone. -/
def callerBytes : Nat := 256

/-- What the calling convention says of a C function that returns. -/
structure Abi (f : Cpu → Cpu) : Prop where
  kept : ∀ c, ∀ r ∈ calleeSaved, (f c).reg r = c.reg r
  frame : ∀ c, Memory64.Same callerBytes (c.rsp + 8) c.mem (f c).mem

section Registers

variable {c : Cpu} {r r' : Reg} {w : Word}

@[simp] theorem setReg_self (c : Cpu) (r : Reg) (w : Word) : (c.setReg r w).reg r = w :=
  update_self ..

theorem setReg_of_ne (h : r' ≠ r) : (c.setReg r w).reg r' = c.reg r' := update_of_ne h ..

@[simp] theorem setReg_rsp (h : r ≠ .rsp) : (c.setReg r w).rsp = c.rsp := setReg_of_ne h.symm

@[simp] theorem pushWord_rsp (c : Cpu) (w : Word) : (c.pushWord w).rsp = c.rsp - 8 :=
  setReg_self c .rsp (c.rsp - 8)

theorem pushWord_reg (h : r ≠ .rsp) : (c.pushWord w).reg r = c.reg r := setReg_of_ne h

@[simp] theorem popWord_rsp (h : r ≠ .rsp) : (c.popWord r).rsp = c.rsp + 8 :=
  (setReg_of_ne h.symm).trans (setReg_self ..)

@[simp] theorem popWord_self (c : Cpu) (r : Reg) : (c.popWord r).reg r = c.mem.load c.rsp :=
  setReg_self ..

theorem popWord_of_ne (h : r' ≠ r) (hr : r' ≠ .rsp) : (c.popWord r).reg r' = c.reg r' :=
  (setReg_of_ne h).trans (setReg_of_ne hr)

end Registers

/-- `d` words are on the stack below `base`; the `n` bytes above are those of `m`. -/
structure Below (n : Nat) (m : Memory64) (base : Word) (d : Nat) (c : Cpu) : Prop where
  rsp : c.rsp = base - BitVec.ofNat 64 (8 * d)
  same : Memory64.Same n base m c.mem

/-- The words on the stack after a push or pop, at most eight. -/
def Instr.depth (d : Nat) : Instr → Option Nat
  | .push _ | .pushImm _ => if d < 8 then some (d + 1) else none
  | .pop r => if r ≠ .rsp ∧ 0 < d then some (d - 1) else none
  | .mov r _ | .set r _ | .load r _ | .and r _ | .movSeg r _ | .movLow r _ | .movLowSeg r _
  | .movCr0 r | .movCr2 r => if r ≠ .rsp then some d else none
  | .segLow .. | .movAl _ | .clts | .call _ => some d
  | .addRsp _ => none

def depth : Nat → List Instr → Option Nat
  | d, [] => some d
  | d, i :: is => (i.depth d).bind fun d => depth d is

section Stack

variable {n d d' : Nat} {m : Memory64} {base w : Word} {c c1 : Cpu} {r : Reg} {e : Routines}
  {rs : List Reg}

theorem Below.setReg (h : Below n m base d c) (hr : r ≠ .rsp) : Below n m base d (c.setReg r w) :=
  ⟨(setReg_rsp hr).trans h.rsp, h.same⟩

theorem word_below (base : Word) (d : Nat) :
    base - BitVec.ofNat 64 (8 * d) - 8 = base - BitVec.ofNat 64 (8 * (d + 1)) := by
  rw [Nat.mul_succ, BitVec.ofNat_add, BitVec.sub_sub]
  rfl

theorem Below.push (h : Below n m base d c) (hn : n + 8 * (d + 1) ≤ 2 ^ 64) (w : Word) :
    Below n m base (d + 1) (c.pushWord w) := by
  refine ⟨by rw [pushWord_rsp, h.rsp, word_below], h.same.trans fun i hi => ?_⟩
  have haddr : base + BitVec.ofNat 64 i - (c.rsp - 8) = BitVec.ofNat 64 (8 * (d + 1) + i) := by
    rw [h.rsp, word_below, BitVec.ofNat_add]
    bv_omega
  have hfar : ¬(base + BitVec.ofNat 64 i - (c.rsp - 8)).toNat < 8 := by
    rw [haddr, BitVec.toNat_ofNat, Nat.mod_eq_of_lt (by omega)]
    omega
  simp only [Memory64.above, Cpu.pushWord, Memory64.store]
  rw [if_neg hfar]

theorem Below.pop (h : Below n m base (d + 1) c) (hr : r ≠ .rsp) :
    Below n m base d (c.popWord r) := by
  refine ⟨?_, h.same⟩
  rw [popWord_rsp hr, h.rsp, ← word_below, BitVec.sub_add_cancel]

theorem Below.call (h : Below n m base d c) {k : Nat} (habi : Abi (e.routine k))
    (hn : n + 8 * d ≤ callerBytes) : Below n m base d (c.call e k) := by
  have hrsp : (c.call e k).rsp = c.rsp := by
    have hkept := habi.kept (c.pushWord (e.address k)) .rsp (by decide)
    change _ = (c.pushWord (e.address k)).rsp at hkept
    rw [pushWord_rsp] at hkept
    simp only [Cpu.call, Cpu.rsp, setReg_self]
    change _ = c.rsp
    rw [hkept, BitVec.sub_add_cancel]
  refine ⟨hrsp.trans h.rsp, ?_⟩
  have hbound : n + 8 * (d + 1) ≤ 2 ^ 64 := by
    unfold callerBytes at hn
    omega
  refine (h.push hbound (e.address k)).same.trans fun i hi => ?_
  have hframe := habi.frame (c.pushWord (e.address k)) (8 * d + i) (by omega)
  have haddr : c.rsp - 8 + 8 + BitVec.ofNat 64 (8 * d + i) = base + BitVec.ofNat 64 i := by
    rw [h.rsp, BitVec.ofNat_add]
    bv_omega
  simp only [Memory64.above, pushWord_rsp, haddr] at hframe
  exact hframe

theorem Below.exec (h : Below n m base d c) (habi : ∀ k, Abi (e.routine k))
    (hn : n + 64 ≤ callerBytes) (hle : d ≤ 8) {i : Instr} (hi : i.depth d = some d') :
    Below n m base d' (c.exec e i) ∧ d' ≤ 8 := by
  have hpush : ∀ w, (if d < 8 then some (d + 1) else none) = some d' →
      Below n m base d' (c.pushWord w) ∧ d' ≤ 8 := by
    intro w hd
    obtain ⟨hlt, hd⟩ := Option.ite_none_right_eq_some.mp hd
    cases hd
    refine ⟨h.push ?_ w, hlt⟩
    unfold callerBytes at hn
    omega
  have hset : ∀ r w, (if r ≠ Reg.rsp then some d else none) = some d' →
      Below n m base d' (c.setReg r w) ∧ d' ≤ 8 := by
    intro r w hd
    obtain ⟨hr, hd⟩ := Option.ite_none_right_eq_some.mp hd
    cases hd
    exact ⟨h.setReg hr, hle⟩
  cases i with
  | push r => exact hpush _ hi
  | pushImm w => exact hpush _ hi
  | pop r =>
    obtain ⟨⟨hr, hpos⟩, hd⟩ := Option.ite_none_right_eq_some.mp hi
    cases hd
    obtain ⟨d, rfl⟩ : ∃ k, d = k + 1 := ⟨d - 1, by omega⟩
    exact ⟨h.pop hr, by omega⟩
  | mov r r' => exact hset _ _ hi
  | set r w => exact hset _ _ hi
  | load r offset => exact hset _ _ hi
  | and r w => exact hset _ _ hi
  | addRsp n => cases hi
  | movSeg r s => exact hset _ _ hi
  | movLow r x => exact hset _ _ hi
  | movLowSeg r s => exact hset _ _ hi
  | movCr0 r => exact hset _ _ hi
  | movCr2 r => exact hset _ _ hi
  | segLow s r =>
    cases hi
    exact ⟨⟨h.rsp, h.same⟩, hle⟩
  | movAl x =>
    cases hi
    exact ⟨h.setReg (by decide), hle⟩
  | clts =>
    cases hi
    exact ⟨⟨h.rsp, h.same⟩, hle⟩
  | call k =>
    cases hi
    exact ⟨h.call (habi k) (by omega), hle⟩

theorem Below.run {l : List Instr} (h : Below n m base d c) (habi : ∀ k, Abi (e.routine k))
    (hn : n + 64 ≤ callerBytes) (hle : d ≤ 8) (hd : depth d l = some d') :
    Below n m base d' (Cpu.run e l c) ∧ d' ≤ 8 := by
  induction l generalizing c d with
  | nil =>
    cases hd
    exact ⟨h, hle⟩
  | cons i l ih =>
    obtain ⟨k, hk, hd⟩ := Option.bind_eq_some_iff.mp hd
    obtain ⟨hbelow, hle'⟩ := h.exec habi hn hle hk
    exact ih hbelow hle' hd

structure Keeps (n : Nat) (c c' : Cpu) : Prop where
  rsp : c'.rsp = c.rsp
  same : Memory64.Same n c.rsp c.mem c'.mem

theorem Keeps.below (h : Keeps n c c1) : Below n c.mem c.rsp 0 c1 :=
  ⟨h.rsp.trans (by simp), h.same⟩

theorem Below.keeps (h : Below n c.mem c.rsp 0 c1) : Keeps n c c1 := ⟨h.rsp.trans (by simp), h.same⟩

theorem Keeps.refl (n : Nat) (c : Cpu) : Keeps n c c := ⟨rfl, .refl n c.rsp c.mem⟩

theorem Keeps.trans {c2 : Cpu} (h : Keeps n c c1) (h' : Keeps n c1 c2) : Keeps n c c2 :=
  ⟨h'.rsp.trans h.rsp, h.same.trans (h.rsp ▸ h'.same)⟩

theorem keeps_run {is : List Instr} (habi : ∀ k, Abi (e.routine k)) (hn : n + 64 ≤ callerBytes)
    (hd : depth 0 is = some 0) : Keeps n c (Cpu.run e is c) :=
  ((Keeps.refl n c).below.run habi hn (Nat.zero_le 8) hd).1.keeps

theorem Keeps.bracket (hn : n + 8 ≤ 2 ^ 64) (hr : r ≠ .rsp) (h : Keeps (n + 8) (c.pushWord w) c1) :
    Keeps n c (c1.popWord r) ∧ (c1.popWord r).reg r = w := by
  have hrsp := h.rsp
  have hsame := h.same
  rw [pushWord_rsp] at hrsp hsame
  have hword : c.mem.store (c.rsp - 8) w = (c.pushWord w).mem := rfl
  refine ⟨⟨?_, ?_⟩, ?_⟩
  · rw [popWord_rsp hr, hrsp, BitVec.sub_add_cancel]
  · have habove := Memory64.same_store (n := n) c.mem (c.rsp - 8) w hn
    have htail := hsame.tail
    rw [BitVec.sub_add_cancel] at habove htail
    exact habove.trans htail
  · rw [popWord_self, hrsp, hsame.load_eq (by omega), ← hword, Memory64.load_store]

def pushes (rs : List Reg) : List Instr := rs.map .push

def pops (rs : List Reg) : List Instr := rs.map .pop

theorem pushes_reg (hr : r ≠ .rsp) :
    (Cpu.run e (pushes rs) c).reg r = c.reg r := by
  induction rs generalizing c with
  | nil => rfl
  | cons s rs ih => exact ih.trans (pushWord_reg hr)

theorem below_pushes (h : Below n m base d c) (hn : n + 8 * (d + rs.length) ≤ 2 ^ 64) :
    Below n m base (d + rs.length) (Cpu.run e (pushes rs) c) := by
  induction rs generalizing c d with
  | nil => exact h
  | cons s rs ih =>
    have hlen : d + (s :: rs).length = d + 1 + rs.length := by
      rw [List.length_cons]
      omega
    rw [hlen]
    exact ih (h.push (by omega) _) (by omega)

theorem pushes_rsp (hrs : 8 * rs.length ≤ 2 ^ 64) :
    (Cpu.run e (pushes rs) c).rsp = c.rsp - BitVec.ofNat 64 (8 * rs.length) := by
  have hbelow := below_pushes (e := e) (Keeps.refl 0 c).below (by simpa using hrs)
  rw [hbelow.rsp, Nat.zero_add]

theorem pops_rsp (hrs : .rsp ∉ rs) :
    (Cpu.run e (pops rs) c).rsp = c.rsp + BitVec.ofNat 64 (8 * rs.length) := by
  induction rs generalizing c with
  | nil => exact (BitVec.add_zero _).symm
  | cons s rs ih =>
    obtain ⟨hs, hrs⟩ := List.ne_and_not_mem_of_not_mem_cons hrs
    refine (ih hrs).trans ?_
    rw [Cpu.exec, popWord_rsp hs.symm, List.length_cons, Nat.mul_succ, BitVec.ofNat_add]
    bv_omega

theorem brackets {f : Cpu → Cpu} (hrs : .rsp ∉ rs) (hn : n + 8 * rs.length ≤ 2 ^ 64)
    (h : Keeps (n + 8 * rs.length) (Cpu.run e (pushes rs) c) (f (Cpu.run e (pushes rs) c))) :
    Keeps n c (Cpu.run e (pops rs.reverse) (f (Cpu.run e (pushes rs) c))) ∧
      (∀ r ∈ rs, (Cpu.run e (pops rs.reverse) (f (Cpu.run e (pushes rs) c))).reg r = c.reg r) ∧
      ∀ r ∉ rs, r ≠ .rsp →
        (Cpu.run e (pops rs.reverse) (f (Cpu.run e (pushes rs) c))).reg r =
          (f (Cpu.run e (pushes rs) c)).reg r := by
  induction rs generalizing c n with
  | nil => exact ⟨h, nofun, fun _ _ _ => rfl⟩
  | cons s rs ih =>
    obtain ⟨hs, hrs⟩ := List.ne_and_not_mem_of_not_mem_cons hrs
    have hlen : n + 8 * (s :: rs).length = n + 8 + 8 * rs.length := by
      rw [List.length_cons]
      omega
    rw [hlen] at hn h
    obtain ⟨hkeeps, hsaved, hother⟩ := ih (c := c.pushWord (c.reg s)) hrs hn h
    have hpops : ∀ c', Cpu.run e (pops (s :: rs).reverse) c' =
        (Cpu.run e (pops rs.reverse) c').popWord s := by
      intro c'
      rw [List.reverse_cons, pops, List.map_append, Cpu.run_append]
      rfl
    obtain ⟨hkeeps', hself⟩ := hkeeps.bracket (by omega) (Ne.symm hs)
    rw [hpops]
    refine ⟨hkeeps', fun r hr => ?_, fun r hr hrsp => ?_⟩
    · by_cases hrs' : r = s
      · rw [hrs']
        exact hself
      · have hmem : r ∈ rs := (List.mem_cons.mp hr).resolve_left hrs'
        have hne : r ≠ .rsp := by
          rintro rfl
          exact hrs hmem
        rw [popWord_of_ne hrs' hne]
        exact (hsaved r hmem).trans (pushWord_reg hne)
    · obtain ⟨hne, hnot⟩ := List.ne_and_not_mem_of_not_mem_cons hr
      rw [popWord_of_ne hne hrsp]
      exact hother r hnot hrsp

end Stack

end Linux001.Trap
