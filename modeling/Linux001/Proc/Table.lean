import Linux001.ProofKit.Runs

/-! The task table of `kernel/fork.c`, `kernel/exit.c` and `kernel/sys.c`, over every sequence of
calls. `copy_process` copies 9456 bytes into a page of 4096, over the tasks on the next two pages;
as long as there are none, identifiers stay unique. -/

namespace Linux001.Proc

open Function ProofKit

/-- A slot of `task[NR_TASKS]`. -/
abbrev TaskNr := Fin 64

/-- The fields of `struct task_struct` used here; `exiting` is a task that sleeps in `do_exit`,
`page` the page of the structure. -/
structure Task where
  (pid father pgrp : BitVec 64)
  (uid euid suid gid egid sgid : BitVec 16)
  (zombie exiting : Bool)
  page : Nat
  deriving DecidableEq

/-- `task` and `last_pid`. -/
structure Table where
  task : TaskNr → Option Task
  lastPid : BitVec 64

/-- The page of `get_free_page`, the bytes of `*current` from 4096 and 8192 on as tasks, and whether
`copy_mem` succeeds. -/
structure Copy where
  page : Nat
  (next second : Task)
  memory : Bool
  deriving DecidableEq

/-- The task is neither dead nor in `do_exit`. -/
def Task.running (t : Task) : Bool := !t.zombie && !t.exiting

namespace Table

/-- `task[i] = t`. -/
def setTask (s : Table) (i : TaskNr) (t : Option Task) : Table :=
  { s with task := update s.task i t }

/-- `if ((++last_pid)<0) last_pid=1;` -/
def nextPid (last : BitVec 64) : BitVec 64 := if (last + 1).msb then 1 else last + 1

/-- Some task has the identifier. -/
def used (task : TaskNr → Option Task) (pid : BitVec 64) : Bool :=
  (List.finRange 64).any fun i => (task i).any fun t => t.pid == pid

/-- The rounds of `repeat` in `find_empty_process`, at most `n`. -/
def searchPid (task : TaskNr → Option Task) : (n : Nat) → (last : BitVec 64) → Option (BitVec 64)
  | 0, _ => none
  | n + 1, last =>
    if used task (nextPid last) then searchPid task n (nextPid last) else some (nextPid last)

/-- The second loop of `find_empty_process`. -/
def emptySlot (task : TaskNr → Option Task) : Option TaskNr :=
  (List.finRange 64).find? fun i => i ≠ 0 ∧ task i = none

/-- `EAGAIN`. -/
def eagain : BitVec 32 := 11

/-- `find_empty_process`: its result, and the table with the new `last_pid`. -/
def findEmptyProcess (s : Table) : Option (BitVec 32 × Table) :=
  (searchPid s.task 65 s.lastPid).map fun pid =>
    (match emptySlot s.task with
      | some i => BitVec.ofNat 32 i
      | none => -eagain,
      { s with lastPid := pid })

/-- `*p = *current`: the 9456 bytes go over those on the next two pages. -/
def overrun (s : Table) (c : Copy) : Table :=
  { s with
    task := fun i => (s.task i).map fun t =>
      if t.page = c.page + 1 then { c.next with exiting := t.exiting, page := t.page }
      else if t.page = c.page + 2 then { c.second with exiting := t.exiting, page := t.page }
      else t }

/-- The child of `t` in `copy_process`. -/
def child (t : Task) (page : Nat) (pid father : BitVec 64) : Task :=
  { t with pid, father, zombie := false, exiting := false, page }

/-- `copy_process` by the task `t` in slot `i`: `last_pid` or `-EAGAIN`. A store outside the table
is elsewhere. -/
def copyProcess (s : Table) (i : TaskNr) (t : Task) (copy : Option Copy) (nr : BitVec 32) :
    BitVec 32 × Table :=
  match copy with
  | none => (-eagain, s)
  | some c =>
    let s := s.overrun c
    if c.memory then
      -- `current->pid` is read after the copy
      let p := child t c.page s.lastPid ((s.task i).elim t.pid Task.pid)
      (s.lastPid.setWidth 32,
        if h : nr.toNat < 64 then s.setTask ⟨nr.toNat, h⟩ (some p) else s)
    else (-eagain, s)

/-- `sys_fork`, which calls `copy_process` for a negative result too. -/
def fork (s : Table) (i : TaskNr) (t : Task) (copy : Option Copy) : Option Table :=
  s.findEmptyProcess.map fun (nr, s) => (s.copyProcess i t copy nr).2

/-- `release`: `task[0]` is not looked at. -/
def release (s : Table) (i : TaskNr) : Option Table :=
  if i = 0 then none else some (s.setTask i none)

/-- The loop of `do_exit` over the children. -/
def orphan (s : Table) (pid : BitVec 64) : Table :=
  { s with
    task := fun i => (s.task i).map fun t =>
      if t.father = pid then { t with father := 0 } else t }

/-- `do_exit` up to where it may sleep. -/
def startExit (s : Table) (i : TaskNr) (t : Task) : Table :=
  let s := s.orphan t.pid
  s.setTask i ((s.task i).map fun t => { t with exiting := true })

/-- The end of `do_exit`. -/
def endExit (s : Table) (i : TaskNr) (t : Task) : Option Table :=
  if t.father ≠ 0 then some (s.setTask i (some { t with zombie := true, exiting := false }))
  else s.release i

/-- The child `c` is one that `waitpid(pid)` of `t` looks for. -/
def waitsFor (t : Task) (pid : BitVec 32) (c : Task) : Bool :=
  (pid == -1 || c.pid == pid.signExtend 64 || pid == 0 && c.pgrp == t.pgrp ||
    pid.slt 0 && c.pgrp == (-pid).signExtend 64) && c.father == t.pid

/-- The loop of `sys_waitpid`. -/
def findZombie (s : Table) (i : TaskNr) (t : Task) (pid : BitVec 32) : Option TaskNr :=
  (List.finRange 64).reverse.find? fun j =>
    j ≠ 0 ∧ j ≠ i ∧ (s.task j).any fun c => waitsFor t pid c && c.zombie

/-- A round of `sys_waitpid`. -/
def waitpid (s : Table) (i : TaskNr) (t : Task) (pid : BitVec 32) : Option Table :=
  match s.findZombie i t pid with
  | none => some s
  | some j => s.release j

end Table

/-- `sys_setuid`.  The argument is an `int`, and an identifier has 16 bits. -/
def sysSetuid (t : Task) (uid : BitVec 32) : Task :=
  if t.euid ≠ 0 ∧ t.uid ≠ 0 then
    if uid = t.uid.setWidth 32 ∨ t.suid = t.uid then { t with euid := uid.setWidth 16 } else t
  else { t with euid := uid.setWidth 16, uid := uid.setWidth 16 }

/-- `sys_setgid`. -/
def sysSetgid (t : Task) (gid : BitVec 32) : Task :=
  if t.euid ≠ 0 ∧ t.uid ≠ 0 then
    if t.gid.setWidth 32 = gid ∨ t.sgid.setWidth 32 = gid then { t with egid := gid.setWidth 16 }
    else t
  else { t with gid := gid.setWidth 16, egid := gid.setWidth 16 }

/-- A call of a task. `do_execve` changes none of the fields here. -/
inductive ProcCall
  | fork (copy : Option Copy)
  | startExit
  | endExit
  | waitpid (pid : BitVec 32)
  | setuid (uid : BitVec 32)
  | setgid (gid : BitVec 32)
  | execve
  deriving DecidableEq

/-- The call of the task `t` in the slot `i`. -/
def Table.call (s : Table) (i : TaskNr) (t : Task) : ProcCall → Option Table
  | .fork copy => s.fork i t copy
  | .startExit => some (s.startExit i t)
  | .endExit => s.endExit i t
  | .waitpid pid => s.waitpid i t pid
  | .setuid uid => some (s.setTask i (some (sysSetuid t uid)))
  | .setgid gid => some (s.setTask i (some (sysSetgid t gid)))
  | .execve => some s

/-- Only `do_exit` goes on in a task that has called it. -/
def Task.canCall (t : Task) : ProcCall → Bool
  | .endExit => t.exiting
  | _ => t.running

/-- A step of the system: some task makes a call. -/
def procStep (s : Table) (e : TaskNr × ProcCall) : Option Table :=
  (s.task e.1).bind fun t => if t.canCall e.2 then s.call e.1 t e.2 else none

/-- The copies that a call makes. -/
def ProcCall.copy : ProcCall → Option Copy
  | .fork copy => copy
  | _ => none

/-- The copy of `copy_process` reaches no task of the table. -/
def CopiesClear (s : Table) (e : TaskNr × ProcCall) : Prop :=
  ∀ c ∈ e.2.copy, ∀ i, ∀ t ∈ s.task i, t.page ≠ c.page + 1 ∧ t.page ≠ c.page + 2

instance (s : Table) (e : TaskNr × ProcCall) : Decidable (CopiesClear s e) :=
  inferInstanceAs (Decidable (∀ c ∈ e.2.copy, ∀ i, ∀ t ∈ s.task i, _))

/-- A task structure in memory that is zero. -/
def zeroTask : Task where
  pid := 0
  father := 0
  pgrp := 0
  uid := 0
  euid := 0
  suid := 0
  gid := 0
  egid := 0
  sgid := 0
  zombie := false
  exiting := false
  page := 0

/-- `INIT_TASK`, which is not in a page of `get_free_page`. -/
def initTask : Task := { zeroTask with father := -1 }

/-- Only `init_task` is there. -/
def boot (last : BitVec 64) : Table where
  task i := if i = 0 then some initTask else none
  lastPid := last

namespace Table

variable {task : TaskNr → Option Task} {s s' : Table} {i j : TaskNr} {t c : Task}
  {pid last : BitVec 64} {n : Nat}

theorem used_iff :
    used task pid = true ↔ ∃ i t, task i = some t ∧ t.pid = pid := by
  rw [used, List.any_eq_true]
  constructor
  · rintro ⟨i, -, h⟩
    obtain ⟨t, ht, hpid⟩ := (Option.any_eq_true _ _).mp h
    exact ⟨i, t, ht, by simpa using hpid⟩
  · rintro ⟨i, t, ht, hpid⟩
    refine ⟨i, List.mem_finRange i, ?_⟩
    simp [ht, hpid]

theorem used_of_searchPid_none (h : searchPid task n last = none) :
    ∀ k < n, used task (nextPid^[k + 1] last) = true := by
  induction n generalizing last with
  | zero =>
    intro k hk
    omega
  | succ n ih =>
    rw [searchPid] at h
    split at h
    · next hused =>
      intro k hk
      cases k with
      | zero => exact hused
      | succ k =>
        exact ih h k (by omega)
    · cases h

theorem not_used_of_searchPid (h : searchPid task n last = some pid) : used task pid = false := by
  induction n generalizing last with
  | zero => cases h
  | succ n ih =>
    rw [searchPid] at h
    split at h
    · exact ih h
    · next hfree =>
      cases h
      exact Bool.eq_false_iff.mpr hfree

theorem toNat_nextPid (p : BitVec 64) :
    (nextPid p).toNat =
      if p.toNat + 1 < 2 ^ 63 then p.toNat + 1 else if p.toNat + 1 = 2 ^ 64 then 0 else 1 := by
  have hone : (1 : BitVec 64).toNat = 1 := rfl
  rw [nextPid, BitVec.msb_eq_decide]
  simp only [decide_eq_true_eq, BitVec.toNat_add, hone]
  split
  · rw [hone, if_neg (by omega), if_neg (by omega)]
  · rw [BitVec.toNat_add, hone]
    split
    · omega
    · rw [if_pos (by omega)]
      omega

theorem toNat_iterate_nextPid {p : BitVec 64} (hp : p.toNat < 2 ^ 63) {k : Nat} (hk : k ≤ 64) :
    (nextPid^[k] p).toNat =
      if p.toNat + k < 2 ^ 63 then p.toNat + k else p.toNat + k - 2 ^ 63 + 1 := by
  induction k with
  | zero =>
    rw [if_pos (by omega)]
    rfl
  | succ k ih =>
    rw [iterate_succ_apply', toNat_nextPid, ih (by omega)]
    split
    · split
      · rw [if_pos (by omega)]
        omega
      · rw [if_neg (by omega), if_neg (by omega)]
        omega
    · rw [if_pos (by omega), if_neg (by omega)]
      omega

theorem nextPid_lt (p : BitVec 64) : (nextPid p).toNat < 2 ^ 63 := by
  rw [toNat_nextPid]
  split
  · assumption
  · split
    · decide
    · decide

theorem iterate_nextPid_injective (last : BitVec 64) :
    Injective fun k : Fin 65 => nextPid^[k + 1] last := by
  intro a b hab
  have ha := toNat_iterate_nextPid (nextPid_lt last) (k := a) (by omega)
  have hb := toNat_iterate_nextPid (nextPid_lt last) (k := b) (by omega)
  have heq : (nextPid^[a] (nextPid last)).toNat = (nextPid^[b] (nextPid last)).toNat :=
    congrArg BitVec.toNat hab
  rw [ha, hb] at heq
  apply Fin.ext
  split at heq
  · split at heq
    · omega
    · omega
  · split at heq
    · omega
    · omega

theorem searchPid_isSome (task : TaskNr → Option Task) (last : BitVec 64) :
    ∃ pid, searchPid task 65 last = some pid := by
  cases h : searchPid task 65 last with
  | some pid => exact ⟨pid, rfl⟩
  | none =>
    have hused := used_of_searchPid_none h
    have howner : ∀ k : Fin 65, ∃ i : TaskNr,
        (task i).map Task.pid = some (nextPid^[k + 1] last) := by
      intro k
      obtain ⟨i, t, ht, hpid⟩ := used_iff.mp (hused k k.isLt)
      exact ⟨i, by rw [ht, Option.map_some, hpid]⟩
    choose owner hpid using howner
    -- two of the 65 candidates would belong to one task
    obtain ⟨a, b, hab, heq⟩ := Fintype.exists_ne_map_eq_of_card_lt owner (by simp)
    refine absurd (iterate_nextPid_injective last ?_) hab
    have hsame := (hpid a).symm.trans (heq ▸ hpid b)
    exact Option.some.inj hsame

theorem emptySlot_spec {nr : TaskNr} (h : emptySlot task = some nr) : nr ≠ 0 ∧ task nr = none := by
  simpa using List.find?_some h

theorem overrun_eq {c : Copy} (h : ∀ i, ∀ t ∈ s.task i, t.page ≠ c.page + 1 ∧ t.page ≠ c.page + 2) :
    s.overrun c = s := by
  have htask : (s.overrun c).task = s.task := by
    funext i
    cases hi : s.task i with
    | none => simp [overrun, hi]
    | some t =>
      obtain ⟨hnext, hsecond⟩ := h i t hi
      simp [overrun, hi, hnext, hsecond]
  exact congrArg (Table.mk · s.lastPid) htask

theorem setTask_task {o : Option Task} (h : (s.setTask i o).task j = some c) :
    j = i ∧ o = some c ∨ s.task j = some c := by
  by_cases hj : j = i
  · exact .inl ⟨hj, by simpa [setTask, hj] using h⟩
  · exact .inr (by simpa [setTask, hj] using h)

/-- What a call of the task `t` in slot `i` can do, if its copy reaches no task. -/
inductive Stepped (s : Table) (i : TaskNr) (t : Task) (call : ProcCall) : Table → Prop
  | same {s' : Table} (htask : s'.task = s.task) : Stepped s i t call s'
  | child {s' : Table} (nr : TaskNr) (page : Nat) (pid : BitVec 64) (hrun : t.running = true)
    (hempty : s.task nr = none) (hpid : used s.task pid = false)
    (htask : s'.task = (s.setTask nr (some (child t page pid t.pid))).task) : Stepped s i t call s'
  | exit (hcall : call = .startExit) : Stepped s i t call (s.startExit i t)
  | zombie (hexit : t.exiting = true) (hfather : t.father ≠ 0) :
    Stepped s i t call (s.setTask i (some { t with zombie := true, exiting := false }))
  | released (j : TaskNr) (c : Task) (hj : j ≠ 0) (hc : s.task j = some c)
    (hrun : c.running = false) : Stepped s i t call (s.setTask j none)
  | setuid (uid : BitVec 32) : Stepped s i t call (s.setTask i (some (sysSetuid t uid)))
  | setgid (gid : BitVec 32) : Stepped s i t call (s.setTask i (some (sysSetgid t gid)))

theorem fork_stepped {copy : Option Copy} (hi : s.task i = some t) (hrun : t.running = true)
    (hclear : CopiesClear s (i, .fork copy)) (hfork : s.fork i t copy = some s') :
    Stepped s i t (.fork copy) s' := by
  obtain ⟨⟨nr, s1⟩, hfind, rfl⟩ := Option.map_eq_some_iff.mp hfork
  obtain ⟨pid, hpid, heq⟩ := Option.map_eq_some_iff.mp hfind
  obtain ⟨rfl, rfl⟩ := Prod.mk.inj heq
  cases copy with
  | none => exact .same rfl
  | some c =>
    have hover : ({ s with lastPid := pid } : Table).overrun c = { s with lastPid := pid } :=
      overrun_eq (hclear c rfl)
    simp only [copyProcess, hover]
    split
    · cases hslot : emptySlot s.task with
      | none => exact .same rfl
      | some nr =>
        have hnr : (BitVec.ofNat 32 nr.val).toNat = nr := by
          rw [BitVec.toNat_ofNat, Nat.mod_eq_of_lt (by omega)]
        simp only [hnr, nr.isLt, dif_pos, hi]
        exact .child nr c.page pid hrun (emptySlot_spec hslot).2 (not_used_of_searchPid hpid) rfl
    · exact .same rfl

theorem release_stepped {call : ProcCall} (hj : s.task j = some c) (hrun : c.running = false)
    (hrel : s.release j = some s') : Stepped s i t call s' := by
  obtain ⟨hne, heq⟩ := Option.ite_none_left_eq_some.mp hrel
  cases heq
  exact .released j c hne hj hrun

theorem findZombie_spec {pid : BitVec 32} (h : s.findZombie i t pid = some j) :
    j ≠ 0 ∧ j ≠ i ∧ ∃ c, s.task j = some c ∧ waitsFor t pid c = true ∧ c.zombie = true := by
  have hspec := List.find?_some h
  simp only [decide_eq_true_eq] at hspec
  obtain ⟨h0, hi, hany⟩ := hspec
  obtain ⟨c, hc, hz⟩ := (Option.any_eq_true _ _).mp hany
  rw [Bool.and_eq_true] at hz
  exact ⟨h0, hi, c, hc, hz⟩

theorem procStep_stepped {e : TaskNr × ProcCall} (hclear : CopiesClear s e)
    (hstep : procStep s e = some s') : ∃ t, s.task e.1 = some t ∧ Stepped s e.1 t e.2 s' := by
  obtain ⟨i, call⟩ := e
  obtain ⟨t, ht, hcall⟩ := Option.bind_eq_some_iff.mp hstep
  obtain ⟨hcan, hcall⟩ := Option.ite_none_right_eq_some.mp hcall
  refine ⟨t, ht, ?_⟩
  cases call with
  | fork copy => exact fork_stepped ht hcan hclear hcall
  | startExit =>
    cases hcall
    exact .exit rfl
  | endExit =>
    have hexit : t.exiting = true := hcan
    simp only [Table.call, endExit] at hcall
    split at hcall
    · next hfather =>
      cases hcall
      exact .zombie hexit hfather
    · exact release_stepped ht (by simp [Task.running, hexit]) hcall
  | waitpid pid =>
    simp only [Table.call, waitpid] at hcall
    split at hcall
    · cases hcall
      exact .same rfl
    · next hj =>
      obtain ⟨-, -, c, hc, -, hz⟩ := findZombie_spec hj
      exact release_stepped hc (by simp [Task.running, hz]) hcall
  | setuid uid =>
    cases hcall
    exact .setuid uid
  | setgid gid =>
    cases hcall
    exact .setgid gid
  | execve =>
    cases hcall
    exact .same rfl

/-- No two tasks have the same identifier. -/
def Distinct (s : Table) : Prop :=
  ∀ i j t c, s.task i = some t → s.task j = some c → t.pid = c.pid → i = j

theorem Distinct.of_kept (h : s.Distinct)
    (hkept : ∀ i t, s'.task i = some t → ∃ t0, s.task i = some t0 ∧ t0.pid = t.pid) :
    s'.Distinct := by
  intro i j t c ht hc hpid
  obtain ⟨t0, ht0, hp⟩ := hkept i t ht
  obtain ⟨c0, hc0, hq⟩ := hkept j c hc
  exact h i j t0 c0 ht0 hc0 (hp.trans (hpid.trans hq.symm))

theorem Distinct.setTask (h : s.Distinct) (hi : s.task i = some t) {t' : Task}
    (hpid : t'.pid = t.pid) : (s.setTask i (some t')).Distinct := by
  refine h.of_kept fun j c hc => ?_
  obtain ⟨rfl, heq⟩ | hc := setTask_task hc
  · cases heq
    exact ⟨t, hi, hpid.symm⟩
  · exact ⟨c, hc, rfl⟩

theorem Distinct.child (h : s.Distinct) {nr : TaskNr} (hpid : used s.task c.pid = false)
    (htask : s'.task = (s.setTask nr (some c)).task) : s'.Distinct := by
  have hnew : ∀ i t, s.task i = some t → t.pid ≠ c.pid := by
    intro i t ht htp
    rw [used_iff.mpr ⟨i, t, ht, htp⟩] at hpid
    cases hpid
  intro i j t d ht hd htd
  rw [htask] at ht hd
  obtain ⟨hi, heq⟩ | hold := setTask_task ht
  · cases heq
    obtain ⟨hj, -⟩ | hold := setTask_task hd
    · rw [hi, hj]
    · exact absurd htd.symm (hnew j d hold)
  · obtain ⟨-, heq⟩ | hold' := setTask_task hd
    · cases heq
      exact absurd htd (hnew i t hold)
    · exact h i j t d hold hold' htd

theorem orphan_task (h : (s.orphan pid).task i = some t) :
    ∃ t0, s.task i = some t0 ∧ t = if t0.father = pid then { t0 with father := 0 } else t0 := by
  obtain ⟨t0, ht0, heq⟩ := Option.map_eq_some_iff.mp h
  exact ⟨t0, ht0, heq.symm⟩

theorem startExit_task (h : (s.startExit i t).task j = some c) :
    ∃ c0, s.task j = some c0 ∧
      c = { c0 with
        father := if c0.father = t.pid then 0 else c0.father
        exiting := if j = i then true else c0.exiting } := by
  by_cases hj : j = i
  · subst hj
    simp only [startExit, Table.setTask, update_self] at h
    obtain ⟨c1, hc1, rfl⟩ := Option.map_eq_some_iff.mp h
    obtain ⟨c0, hc0, rfl⟩ := orphan_task hc1
    refine ⟨c0, hc0, ?_⟩
    split
    · simp
    · simp
  · simp only [startExit, Table.setTask, update_of_ne hj] at h
    obtain ⟨c0, hc0, rfl⟩ := orphan_task h
    refine ⟨c0, hc0, ?_⟩
    split
    · simp
    · simp

end Table

theorem sysSetuid_eq (t : Task) (arg : BitVec 32) :
    ∃ uid euid, sysSetuid t arg = { t with uid, euid } := by
  unfold sysSetuid
  split
  · split
    · exact ⟨t.uid, _, rfl⟩
    · exact ⟨t.uid, t.euid, rfl⟩
  · exact ⟨_, _, rfl⟩

theorem sysSetgid_eq (t : Task) (arg : BitVec 32) :
    ∃ gid egid, sysSetgid t arg = { t with gid, egid } := by
  unfold sysSetgid
  split
  · split
    · exact ⟨t.gid, _, rfl⟩
    · exact ⟨t.gid, t.egid, rfl⟩
  · exact ⟨_, _, rfl⟩

open Table in
theorem procStep_distinct {s s' : Table} {e : TaskNr × ProcCall} (h : s.Distinct)
    (hclear : CopiesClear s e) (hstep : procStep s e = some s') : s'.Distinct := by
  obtain ⟨t, ht, hstep⟩ := procStep_stepped hclear hstep
  cases hstep with
  | same htask => exact h.of_kept fun i c hc => ⟨c, htask ▸ hc, rfl⟩
  | child nr page pid _ _ hpid htask => exact h.child hpid htask
  | exit =>
    refine h.of_kept fun j c hc => ?_
    obtain ⟨c0, hc0, rfl⟩ := startExit_task hc
    exact ⟨c0, hc0, rfl⟩
  | zombie => exact h.setTask ht rfl
  | released j c _ _ _ =>
    refine h.of_kept fun k c hc => ?_
    obtain ⟨-, heq⟩ | hc := setTask_task hc
    · cases heq
    · exact ⟨c, hc, rfl⟩
  | setuid uid =>
    obtain ⟨uid', euid, heq⟩ := sysSetuid_eq t uid
    exact h.setTask ht (by rw [heq])
  | setgid gid =>
    obtain ⟨gid', egid, heq⟩ := sysSetgid_eq t gid
    exact h.setTask ht (by rw [heq])

theorem boot_distinct (last : BitVec 64) : (boot last).Distinct := by
  intro i j t c ht hc _
  have hi : i = 0 := (Option.ite_none_right_eq_some.mp ht).1
  have hj : j = 0 := (Option.ite_none_right_eq_some.mp hc).1
  rw [hi, hj]

/-- Where no copy reaches a task, no two tasks have the same identifier; `find_empty_process` always
ends in 65 rounds, with a new identifier and an empty slot but the first. -/
theorem distinct_of_reaches {last : BitVec 64} {s : Table}
    (hreach : Reaches procStep CopiesClear (boot last) s) :
    s.Distinct ∧
      (∀ (task : TaskNr → Option Task) (lastPid : BitVec 64), ∃ pid,
        Table.searchPid task 65 lastPid = some pid ∧ Table.used task pid = false) ∧
      ∀ (task : TaskNr → Option Task) (nr : TaskNr), Table.emptySlot task = some nr →
        task nr = none ∧ 1 ≤ nr.val ∧ nr.val ≤ 63 := by
  refine ⟨?_, ?_, ?_⟩
  · refine hreach.invariant (P := Table.Distinct) ?_ (boot_distinct last)
    intro s e s' h hclear hstep
    exact procStep_distinct h hclear hstep
  · intro task lastPid
    obtain ⟨pid, hpid⟩ := Table.searchPid_isSome task lastPid
    exact ⟨pid, hpid, Table.not_used_of_searchPid hpid⟩
  · intro task nr hnr
    obtain ⟨hne, hnone⟩ := Table.emptySlot_spec hnr
    have hpos : nr.val ≠ 0 := fun h => hne (Fin.ext h)
    exact ⟨hnone, by omega, by omega⟩

/-- A `fork` to the page, with zero memory behind `*current`. -/
def forkTo (page : Nat) : ProcCall := .fork (some ⟨page, zeroTask, zeroTask, true⟩)

/-- `init` forks a child when `last_pid` has its greatest value. -/
def wrappedRun : List (TaskNr × ProcCall) :=
  [(0, forkTo 9), (1, forkTo 6), (1, .fork none), (2, .startExit), (2, .endExit)]

theorem distinct_of_reaches_wrapped :
    ∃ s, Reaches procStep CopiesClear (boot 0x7ffffffffffffffe) s ∧
      (s.task 2).map Task.pid = some 1 ∧ s.Distinct := by
  have hrun : (run (fun s e => if decide (CopiesClear s e) then procStep s e else none) wrappedRun
      (boot 0x7ffffffffffffffe)).map (fun s => (s.task 2).map Task.pid) = some (some 1) := by
    decide +kernel
  obtain ⟨s, hs, hpid⟩ := Option.map_eq_some_iff.mp hrun
  have hreach : Reaches procStep CopiesClear (boot 0x7ffffffffffffffe) s :=
    reaches_of_checked (fun _ _ => of_decide_eq_true) hs
  exact ⟨s, hreach, hpid, (distinct_of_reaches hreach).1⟩

/-- The second child of task 0 overwrites the first with zeros. -/
theorem copied_over :
    ∃ s, Reaches procStep (fun _ _ => True) (boot 0) s ∧
      (s.task 0).map Task.pid = some 0 ∧ (s.task 1).map Task.pid = some 0 ∧ ¬ s.Distinct := by
  have hrun : (run procStep [(0, forkTo 9), (0, forkTo 8)] (boot 0)).map
      (fun s => ((s.task 0).map Task.pid, (s.task 1).map Task.pid)) = some (some 0, some 0) := by
    decide +kernel
  obtain ⟨s, hs, hpids⟩ := Option.map_eq_some_iff.mp hrun
  obtain ⟨h0, h1⟩ := Prod.mk.inj hpids
  refine ⟨s, reaches_of_run hs, h0, h1, fun hdistinct => ?_⟩
  obtain ⟨t, ht, htpid⟩ := Option.map_eq_some_iff.mp h0
  obtain ⟨c, hc, hcpid⟩ := Option.map_eq_some_iff.mp h1
  exact absurd (hdistinct 0 1 t c ht hc (htpid.trans hcpid.symm)) (by decide)

end Linux001.Proc
