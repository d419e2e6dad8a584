import Linux001.Proc.Table
import Linux001.Sched.ForkFrame

/-! Results of C functions in `kernel/system_call.nasm` and in the wrappers of `include/unistd.h`.
An `int` is left zero-extended in `rax`, of which all 64 bits are tested, so that a negative result
passes for a positive one. -/

namespace Linux001.Proc

open Function Sched Table

def intResult (r : BitVec 32) : Word := r.setWidth 64

theorem toNat_intResult (r : BitVec 32) : (intResult r).toNat = r.toNat := by
  rw [intResult, BitVec.toNat_setWidth, Nat.mod_eq_of_lt (by omega)]

theorem toInt_intResult (r : BitVec 32) : (intResult r).toInt = r.toNat := by
  rw [BitVec.toInt_eq_toNat_of_lt (by rw [toNat_intResult]; omega), toNat_intResult]

theorem msb_intResult (r : BitVec 32) : (intResult r).msb = false := by
  rw [BitVec.msb_eq_toInt, toInt_intResult]
  exact decide_eq_false (by omega)

/-- How `sys_fork` gets to `.done`, with `rax` there. -/
inductive ForkEnd
  | jumped (rax : Word)
  | called (nr : BitVec 32) (rax : Word)
  deriving DecidableEq

/-- `sys_fork` of `kernel/system_call.nasm`. -/
def sysFork (s : Table) (i : TaskNr) (t : Task) (copy : Option Copy) : Option (ForkEnd × Table) :=
  (findEmptyProcess s).map fun (nr, s) =>
    let rax := intResult nr
    if rax.msb then (.jumped rax, s)
    else
      let (pid, s) := copyProcess s i t copy (rax.setWidth 32)
      (.called (rax.setWidth 32) (intResult pid), s)

/-- `sys_fork` takes its error exit, with the task table as it was. -/
def ErrorExit (s : Table) (i : TaskNr) (t : Task) (copy : Option Copy) : Prop :=
  ∃ rax s', sysFork s i t copy = some (.jumped rax, s') ∧ s'.task = s.task

/-- `find_empty_process` returns an error. -/
def NoSlot (s : Table) : Prop := ∃ r s', findEmptyProcess s = some (r, s') ∧ r.toInt < 0

theorem not_errorExit (s : Table) (i : TaskNr) (t : Task) (copy : Option Copy) :
    ¬ ErrorExit s i t copy := by
  rintro ⟨rax, s', h, -⟩
  obtain ⟨⟨nr, s1⟩, -, h⟩ := Option.map_eq_some_iff.mp h
  simp [msb_intResult] at h

theorem emptySlot_eq_none_iff (task : TaskNr → Option Task) :
    Table.emptySlot task = none ↔ ∀ i, i ≠ 0 → task i ≠ none := by
  simp [Table.emptySlot, List.find?_eq_none]

theorem toInt_ofNat_slot (i : TaskNr) : (BitVec.ofNat 32 i).toInt = i := by
  rw [BitVec.toInt_eq_toNat_of_lt (by simp; omega), BitVec.toNat_ofNat, Nat.mod_eq_of_lt (by omega)]

theorem noSlot_iff (s : Table) : NoSlot s ↔ ∀ i, i ≠ 0 → s.task i ≠ none := by
  obtain ⟨pid, hpid⟩ := Table.searchPid_isSome s.task s.lastPid
  rw [← emptySlot_eq_none_iff]
  constructor
  · rintro ⟨r, s', h, hneg⟩
    cases hslot : Table.emptySlot s.task with
    | none => rfl
    | some i =>
      simp only [findEmptyProcess, hpid, hslot, Option.map_some, Option.some.injEq,
        Prod.mk.injEq] at h
      rw [← h.1, toInt_ofNat_slot] at hneg
      omega
  · intro hslot
    refine ⟨-eagain, { s with lastPid := pid }, ?_, by decide⟩
    rw [findEmptyProcess, hpid, Option.map_some, hslot]

inductive ReturnType
  | int
  | long

def ReturnType.width : ReturnType → Nat
  | .int => 32
  | .long => 64

structure Wrapped (type : ReturnType) where
  value : BitVec type.width
  errno : Option (BitVec 32)

/-- The last lines of `_syscall0`, `_syscall1` and `_syscall2`. -/
def returnOrErrno (type : ReturnType) (res : Word) : Wrapped type :=
  if 0 ≤ res.toInt then ⟨res.setWidth _, none⟩ else ⟨-1, some ((-res).setWidth 32)⟩

/-- The last lines of `_syscall3`. -/
def errnoThenReturn (type : ReturnType) (res : Word) : Wrapped type :=
  let (errno, res) :=
    if res.toInt < 0 then (some ((-res).setWidth 32), -1) else (none, res)
  ⟨res.setWidth _, errno⟩

inductive Wrapper
  | syscall0
  | syscall1
  | syscall2
  | syscall3

def Wrapper.finish : Wrapper → (type : ReturnType) → Word → Wrapped type
  | .syscall0 | .syscall1 | .syscall2 => returnOrErrno
  | .syscall3 => errnoThenReturn

/-- The return address and the registers that the handler leaves. -/
structure CallRun where
  address : Word
  junk : Gpr → Word
  before : Cpu

/-- `int 0x80` with a handler that returns `r`: the registers afterwards. -/
def systemCall (u : UserRegs) (e : CallRun) (r : BitVec 32) : Option UserRegs := do
  let c ← systemCallEntry u
  let c := ((c.call e.address).returned (intResult r) e.junk).ret
  let c ← c.exec (.store frameRax .rax)
  restore e.before c.stack

def Wrapper.call (wrapper : Wrapper) (type : ReturnType) (u : UserRegs) (e : CallRun)
    (r : BitVec 32) : Option (Wrapped type) :=
  (systemCall u e r).map fun u => wrapper.finish type (u.gpr .rax)

theorem systemCall_eq (u : UserRegs) (e : CallRun) (r : BitVec 32) :
    systemCall u e r = some (u.withRax (intResult r)) := by
  obtain ⟨c, hentry, -, hstack⟩ := systemCallEntry_eq u
  have hrax : ((c.call e.address).returned (intResult r) e.junk).ret.gpr .rax = intResult r := rfl
  have hreturned : ((c.call e.address).returned (intResult r) e.junk).ret.stack =
      u.frame (u.gpr .rax) := hstack
  rw [systemCall, hentry, Option.bind_eq_bind, Option.bind_some]
  generalize ((c.call e.address).returned (intResult r) e.junk).ret = c' at hrax hreturned ⊢
  have hstore : c'.exec (.store frameRax .rax) =
      some { c' with stack := u.frame (intResult r) } := by
    rw [Cpu.exec, hrax, hreturned]
    rfl
  simp only [hstore, Option.bind_some, restore_frame]

theorem finish_intResult (wrapper : Wrapper) (type : ReturnType) (r : BitVec 32) :
    wrapper.finish type (intResult r) = ⟨(intResult r).setWidth _, none⟩ := by
  have hnonneg : 0 ≤ (intResult r).toInt := by
    rw [toInt_intResult]
    omega
  cases wrapper with
  | syscall0 | syscall1 | syscall2 => exact if_pos hnonneg
  | syscall3 => simp only [Wrapper.finish, errnoThenReturn, if_neg (Int.not_lt.mpr hnonneg)]

theorem call_eq (wrapper : Wrapper) (type : ReturnType) (u : UserRegs) (e : CallRun)
    (r : BitVec 32) : wrapper.call type u e r = some ⟨(intResult r).setWidth _, none⟩ := by
  have hrax : (u.withRax (intResult r)).gpr .rax = intResult r := rfl
  rw [Wrapper.call, systemCall_eq, Option.map_some, hrax, finish_intResult]

theorem setWidth_intResult (type : ReturnType) {r : BitVec 32} (h : 0 ≤ r.toInt) :
    (intResult r).setWidth type.width = r.signExtend type.width := by
  have hmsb : r.msb = false := by
    rw [BitVec.msb_eq_toInt]
    exact decide_eq_false (Int.not_lt.mpr h)
  rw [BitVec.signExtend_eq_setWidth_of_msb_false hmsb, intResult]
  cases type with
  | int => exact BitVec.setWidth_setWidth_of_le r (by decide)
  | long => exact BitVec.setWidth_setWidth_of_le r (by decide)

/-- What the assembly and a wrapper should make of the results. -/
structure Survives (s : Table) (i : TaskNr) (t : Task) (copy : Option Copy) (wrapper : Wrapper)
    (type : ReturnType) (u : UserRegs) (e : CallRun) (r : BitVec 32) : Prop where
  fork : ErrorExit s i t copy ↔ NoSlot s
  negative : r.toInt < 0 → wrapper.call type u e r = some ⟨-1, some (-r)⟩
  nonneg : 0 ≤ r.toInt → ∃ errno, wrapper.call type u e r = some ⟨r.signExtend _, errno⟩

/-- Results survive exactly when a slot is empty and none is negative. -/
theorem survives_iff (s : Table) (i : TaskNr) (t : Task) (copy : Option Copy) (wrapper : Wrapper)
    (type : ReturnType) (u : UserRegs) (e : CallRun) (r : BitVec 32) :
    Survives s i t copy wrapper type u e r ↔ (∃ i, i ≠ 0 ∧ s.task i = none) ∧ 0 ≤ r.toInt := by
  have hslot : (ErrorExit s i t copy ↔ NoSlot s) ↔ ∃ i, i ≠ 0 ∧ s.task i = none := by
    rw [iff_false_left (not_errorExit s i t copy), noSlot_iff]
    push Not
    rfl
  constructor
  · intro h
    refine ⟨hslot.mp h.fork, ?_⟩
    by_contra hneg
    have hcall := h.negative (Int.not_le.mp hneg)
    rw [call_eq] at hcall
    exact nomatch congrArg Wrapped.errno (Option.some.inj hcall)
  · rintro ⟨hempty, hr⟩
    refine ⟨hslot.mpr hempty, fun hneg => absurd hr (Int.not_le.mpr hneg), fun _ => ⟨none, ?_⟩⟩
    rw [call_eq, setWidth_intResult type hr]

/-- A task with this identifier. -/
def taskOf (pid : BitVec 64) : Task := { zeroTask with pid }

/-- A table without an empty slot. -/
def fullTable : Table where
  task := fun i => some (taskOf (BitVec.ofNat 64 i))
  lastPid := 63

/-- `copy_process` gets `-EAGAIN`, and a wrapper returns `-ENOENT` without `errno`. -/
theorem errors_pass_as_results :
    (findEmptyProcess fullTable).map Prod.fst = some (-11) ∧
      (sysFork fullTable 1 (taskOf 1) (some ⟨9, zeroTask, zeroTask, true⟩)).map Prod.fst =
        some (.called (-11) 64) ∧
      NoSlot fullTable ∧ ¬ ErrorExit fullTable 1 (taskOf 1) (some ⟨9, zeroTask, zeroTask, true⟩) ∧
      Wrapper.syscall1.call .int (forkUser 1 2 3 4) ⟨0, fun _ => 0, forkRun.before 0⟩ (-2) =
        some ⟨-2, none⟩ := by
  refine ⟨by decide +kernel, by decide +kernel, ?_, not_errorExit _ _ _ _, ?_⟩
  · rw [noSlot_iff]
    intro i _
    exact Option.some_ne_none _
  · rfl

end Linux001.Proc
