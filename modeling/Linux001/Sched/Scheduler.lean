import Linux001.Sched.WaitQueue

/-! The scheduler of `kernel/sched.c` over the task table, with the calls that change a counter, a
priority or a state. The counters are `long` and the best counter of a scan is an `int`. A call of
`schedule` is a step of its own. -/

namespace Linux001.Sched

open Function ProofKit

structure Task where
  state : TaskState
  counter : Int64
  priority : Int64
  signal : Int64
  alarm : Int64
  deriving DecidableEq

structure Tasks where
  task : Fin 64 → Option Task
  current : Fin 64
  jiffies : Int64

def sigalrm : Int64 := 14

/-- The body of the first loop of `schedule`: alarms and signals. -/
def Task.checkSignals (jiffies : Int64) (p : Task) : Task :=
  let p := if p.alarm ≠ 0 ∧ p.alarm < jiffies then
    { p with signal := p.signal ||| (1 <<< (sigalrm - 1)), alarm := 0 } else p
  if p.signal ≠ 0 ∧ p.state = .interruptible then { p with state := .running } else p

def Task.recharge (p : Task) : Task := { p with counter := (p.counter >>> 1) + p.priority }

namespace Tasks

def forTasks (t : Tasks) (f : Task → Task) : Tasks :=
  { t with task := fun i => if i = 0 then t.task 0 else (t.task i).map f }

def setTask (t : Tasks) (i : Fin 64) (o : Option Task) : Tasks :=
  { t with task := update t.task i o }

def modify (t : Tasks) (i : Fin 64) (f : Task → Task) : Tasks := t.setTask i ((t.task i).map f)

/-- The slots as `schedule` looks at them: from the last down to 1. -/
def slots : List (Fin 64) := ((List.finRange 64).drop 1).reverse

def scanSlot (t : Tasks) (best : Int32 × Fin 64) (i : Fin 64) : Int32 × Fin 64 :=
  match t.task i with
  | none => best
  | some p =>
    if p.state = .running ∧ p.counter > best.1.toInt64 then (p.counter.toInt32, i) else best

def scan (t : Tasks) : Int32 × Fin 64 := slots.foldl t.scanSlot (-1, 0)

/-- At most `rounds` rounds of `schedule`: the table and `next`. -/
def scheduleLoop : Nat → Tasks → Option (Tasks × Fin 64)
  | 0, _ => none
  | rounds + 1, t =>
    if t.scan.1 ≠ 0 then some (t, t.scan.2) else scheduleLoop rounds (t.forTasks Task.recharge)

def switchTo (t : Tasks) (next : Fin 64) : Tasks :=
  if (t.task next).isSome then { t with current := next } else t

def checkSignals (t : Tasks) : Tasks := t.forTasks (Task.checkSignals t.jiffies)

def schedule (t : Tasks) (rounds : Nat) : Option Tasks :=
  (t.checkSignals.scheduleLoop rounds).map fun (t, next) => t.switchTo next

def findEmptyProcess (t : Tasks) : Option (Fin 64) :=
  (List.finRange 64).find? fun i => decide (i ≠ 0) && (t.task i).isNone

/-- `copy_process` for the slot of `find_empty_process`. Its copy, which is longer than the page, is
taken to reach no other task. -/
def copyProcess (t : Tasks) : Option Tasks :=
  match t.task t.current, t.findEmptyProcess with
  | some p, some nr =>
    let child : Task := { p with state := .running, counter := p.priority, signal := 0, alarm := 0 }
    some (t.setTask nr (some child))
  | _, _ => none

def sysNice (t : Tasks) (increment : Int64) : Tasks :=
  t.modify t.current fun p =>
    if p.priority - increment > 0 then { p with priority := p.priority - increment } else p

def doTimer (t : Tasks) : Tasks :=
  { t with jiffies := t.jiffies + 1 }.modify t.current fun p =>
    if p.counter - 1 > 0 then { p with counter := p.counter - 1 } else { p with counter := 0 }

def sysAlarm (t : Tasks) (seconds : Int64) : Tasks :=
  t.modify t.current fun p =>
    { p with alarm := if seconds > 0 then t.jiffies + 100 * seconds else 0 }

/-- The store to `task[i]` in `release`; slot 0 is not among those it looks at. -/
def release (t : Tasks) (i : Fin 64) : Option Tasks :=
  if i = 0 then none else some (t.setTask i none)

def boot : Tasks := (⟨fun _ => none, 0, 0⟩ : Tasks).setTask 0 (some ⟨.running, 15, 15, 0, 0⟩)

/-- `next` is runnable with the largest counter, or 0 if none is. -/
def Selects (t : Tasks) (next : Fin 64) : Prop :=
  (next ≠ 0 ∧ ∃ p, t.task next = some p ∧ p.state = .running ∧
    ∀ i q, i ≠ 0 → t.task i = some q → q.state = .running → q.counter ≤ p.counter) ∨
  (next = 0 ∧ ∀ i q, i ≠ 0 → t.task i = some q → q.state ≠ .running)

end Tasks

/-- A task sleeps or is made running; `signal` is `send_sig`, `exit` is `do_exit`. -/
inductive SchedEvent
  | create
  | nice (increment : Int64)
  | tick
  | sleep (state : TaskState)
  | wake (i : Fin 64)
  | signal (i : Fin 64) (bits : Int64)
  | alarm (seconds : Int64)
  | exit
  | release (i : Fin 64)
  | schedule (rounds : Nat)

def schedStep (t : Tasks) : SchedEvent → Option Tasks
  | .create => t.copyProcess
  | .nice increment => some (t.sysNice increment)
  | .tick => some t.doTimer
  | .sleep state => some (t.modify t.current fun p => { p with state })
  | .wake i => some (t.modify i fun p => { p with state := .running })
  | .signal i bits => some (t.modify i fun p => { p with signal := p.signal ||| bits })
  | .alarm seconds => some (t.sysAlarm seconds)
  | .exit => some (t.modify t.current fun p => { p with state := .zombie })
  | .release i => t.release i
  | .schedule rounds => t.schedule rounds

/-- No `sys_nice` asks for a priority above `2^30`. -/
def NiceBounded (t : Tasks) : SchedEvent → Prop
  | .nice increment => ∀ p, t.task t.current = some p → p.priority.toInt - increment.toInt ≤ 2 ^ 30
  | _ => True

def niceBounded (t : Tasks) : SchedEvent → Bool
  | .nice increment => (t.task t.current).all fun p =>
      decide (p.priority.toInt - increment.toInt ≤ 2 ^ 30)
  | _ => true

theorem niceBounded_iff {t : Tasks} {e : SchedEvent} :
    niceBounded t e = true ↔ NiceBounded t e := by
  cases e with
  | nice increment =>
    cases h : t.task t.current <;> simp [niceBounded, NiceBounded, h]
  | _ => exact iff_of_true rfl trivial

/-- The counters fit into an `int`, and a recharge leaves a positive one. -/
structure Task.InRange (p : Task) : Prop where
  priority_pos : 0 < p.priority.toInt
  priority_le : p.priority.toInt ≤ 2 ^ 30
  counter_nonneg : 0 ≤ p.counter.toInt
  counter_lt : p.counter.toInt < 2 ^ 31

def Tasks.InRange (t : Tasks) : Prop := ∀ i p, t.task i = some p → p.InRange

def Tasks.All (Q : Task → Prop) (t : Tasks) : Prop := ∀ i p, t.task i = some p → Q p

theorem long_bmod {x : Int} (hlow : -2 ^ 63 ≤ x) (hhigh : x < 2 ^ 63) : x.bmod (2 ^ 64) = x :=
  Int.bmod_eq_of_le (by omega) (by omega)

theorem toInt_shiftRight_one (x : Int64) : (x >>> 1).toInt = x.toInt / 2 := by
  rw [← Int64.toInt_toBitVec, Int64.toBitVec_shiftRight, BitVec.sshiftRight_eq',
    BitVec.toInt_sshiftRight]
  exact Int.shiftRight_eq_div_pow _ _

open Tasks

section Table

variable {t : Tasks} {f : Task → Task} {i : Fin 64} {p q : Task} {o : Option Task}

theorem Tasks.task_forTasks (hi : i ≠ 0) : (t.forTasks f).task i = (t.task i).map f := if_neg hi

theorem Tasks.task_setTask_self : (t.setTask i o).task i = o := by
  simp [Tasks.setTask]

theorem Tasks.task_setTask_of_ne {j : Fin 64} (hj : j ≠ i) :
    (t.setTask i o).task j = t.task j := by
  simp [Tasks.setTask, hj]

section All

variable {Q : Task → Prop}

theorem Tasks.All.forTasks (ht : t.All Q) (hf : ∀ p, Q p → Q (f p)) : (t.forTasks f).All Q := by
  intro i p hp
  by_cases hi : i = 0
  · exact ht 0 p ((if_pos hi).symm.trans hp)
  · rw [task_forTasks hi] at hp
    obtain ⟨q, hq, rfl⟩ := Option.map_eq_some_iff.mp hp
    exact hf q (ht i q hq)

theorem Tasks.All.setTask (ht : t.All Q) (ho : ∀ p, o = some p → Q p) :
    (t.setTask i o).All Q := by
  intro j p hp
  by_cases hj : j = i
  · subst hj
    rw [task_setTask_self] at hp
    exact ho p hp
  · rw [task_setTask_of_ne hj] at hp
    exact ht j p hp

theorem Tasks.All.modify (ht : t.All Q) (hf : ∀ p, t.task i = some p → Q p → Q (f p)) :
    (t.modify i f).All Q := by
  apply ht.setTask
  intro p hp
  obtain ⟨q, hq, rfl⟩ := Option.map_eq_some_iff.mp hp
  exact hf q hq (ht i q hq)

end All

theorem Task.InRange.congr (hp : p.InRange) (hcounter : q.counter = p.counter)
    (hpriority : q.priority = p.priority) : q.InRange := by
  obtain ⟨h1, h2, h3, h4⟩ := hp
  rw [← hpriority] at h1 h2
  rw [← hcounter] at h3 h4
  exact ⟨h1, h2, h3, h4⟩

theorem Task.InRange.toInt_recharge (hp : p.InRange) :
    p.recharge.counter.toInt = p.counter.toInt / 2 + p.priority.toInt := by
  obtain ⟨h1, h2, h3, h4⟩ := hp
  change ((p.counter >>> 1) + p.priority).toInt = _
  rw [Int64.toInt_add, toInt_shiftRight_one]
  apply long_bmod <;> omega

theorem Task.InRange.recharge (hp : p.InRange) : p.recharge.InRange := by
  have hcounter := hp.toInt_recharge
  obtain ⟨h1, h2, h3, h4⟩ := hp
  exact ⟨h1, h2, by omega, by omega⟩

theorem Task.InRange.nice (hp : p.InRange) {increment : Int64}
    (hinc : p.priority.toInt - increment.toInt ≤ 2 ^ 30) :
    (if p.priority - increment > 0 then { p with priority := p.priority - increment }
      else p).InRange := by
  split
  · rename_i hpos
    obtain ⟨h1, h2, h3, h4⟩ := hp
    have hsub : (p.priority - increment).toInt = p.priority.toInt - increment.toInt := by
      have := increment.toInt_lt
      rw [Int64.toInt_sub]
      apply long_bmod <;> omega
    have hpos' : 0 < (p.priority - increment).toInt := Int64.lt_iff_toInt_lt.mp hpos
    exact ⟨hpos', hsub ▸ hinc, h3, h4⟩
  · exact hp

theorem Task.InRange.tick (hp : p.InRange) :
    (if p.counter - 1 > 0 then { p with counter := p.counter - 1 }
      else { p with counter := 0 } : Task).InRange := by
  obtain ⟨h1, h2, h3, h4⟩ := hp
  split
  · have hsub : (p.counter - 1).toInt = p.counter.toInt - 1 := by
      rw [Int64.toInt_sub]
      apply long_bmod <;> simp <;> omega
    rename_i hpos
    have hpos' : 0 < (p.counter - 1).toInt := Int64.lt_iff_toInt_lt.mp hpos
    exact ⟨h1, h2, Int.le_of_lt hpos', by dsimp only; omega⟩
  · have hzero : (0 : Int64).toInt = 0 := rfl
    exact ⟨h1, h2, Int.le_of_eq hzero.symm, by dsimp only; omega⟩

end Table

/-- A property of counter and priority that recharges, ticks and new children keep. -/
structure Task.Kept (Q : Task → Prop) : Prop where
  congr : ∀ p q : Task, Q p → q.counter = p.counter → q.priority = p.priority → Q q
  recharge : ∀ p : Task, Q p → Q p.recharge
  tick : ∀ p : Task, Q p →
    Q (if p.counter - 1 > 0 then { p with counter := p.counter - 1 } else { p with counter := 0 })
  child : ∀ p : Task, Q p →
    Q { p with state := .running, counter := p.priority, signal := 0, alarm := 0 }

section Steps

variable {t u : Tasks} {Q : Task → Prop} {e : SchedEvent}

section
variable (ht : t.All Q)
include ht

theorem Tasks.All.checkSignals (hQ : Task.Kept Q) : t.checkSignals.All Q := by
  refine ht.forTasks fun p hp => hQ.congr p _ hp ?_ ?_
  · unfold Task.checkSignals
    dsimp only
    split <;> split <;> rfl
  · unfold Task.checkSignals
    dsimp only
    split <;> split <;> rfl

theorem Tasks.All.recharge (hQ : Task.Kept Q) : (t.forTasks Task.recharge).All Q :=
  ht.forTasks hQ.recharge

theorem Tasks.All.scheduleLoop {next : Fin 64} {rounds : Nat} (hQ : Task.Kept Q)
    (h : t.scheduleLoop rounds = some (u, next)) : u.All Q := by
  induction rounds generalizing t with
  | zero => cases h
  | succ rounds ih =>
    unfold Tasks.scheduleLoop at h
    split at h
    · cases h
      exact ht
    · exact ih (ht.recharge hQ) h

theorem Tasks.All.copyProcess (hQ : Task.Kept Q) (h : t.copyProcess = some u) :
    u.All Q := by
  unfold Tasks.copyProcess at h
  split at h
  · rename_i p nr hp _
    cases h
    apply ht.setTask
    intro q hq
    cases hq
    exact hQ.child p (ht _ p hp)
  · cases h

theorem Tasks.All.release {i : Fin 64} (h : t.release i = some u) : u.All Q := by
  obtain ⟨-, heq⟩ := Option.ite_none_left_eq_some.mp h
  cases heq
  exact ht.setTask fun p hp => by cases hp

theorem schedStep_all (hQ : Task.Kept Q)
    (hnice : ∀ increment, e = .nice increment → (t.sysNice increment).All Q)
    (hstep : schedStep t e = some u) : u.All Q := by
  cases e with
  | create => exact ht.copyProcess hQ hstep
  | nice increment =>
    cases hstep
    exact hnice increment rfl
  | tick =>
    cases hstep
    have ht' : ({ t with jiffies := t.jiffies + 1 } : Tasks).All Q := ht
    exact ht'.modify fun p _ hp => hQ.tick p hp
  | sleep state =>
    cases hstep
    exact ht.modify fun p _ hp => hQ.congr p _ hp rfl rfl
  | wake i =>
    cases hstep
    exact ht.modify fun p _ hp => hQ.congr p _ hp rfl rfl
  | signal i bits =>
    cases hstep
    exact ht.modify fun p _ hp => hQ.congr p _ hp rfl rfl
  | alarm seconds =>
    cases hstep
    exact ht.modify fun p _ hp => hQ.congr p _ hp rfl rfl
  | exit =>
    cases hstep
    exact ht.modify fun p _ hp => hQ.congr p _ hp rfl rfl
  | release i => exact ht.release hstep
  | schedule rounds =>
    obtain ⟨⟨v, next⟩, hv, rfl⟩ := Option.map_eq_some_iff.mp hstep
    have hvr : v.All Q := (ht.checkSignals hQ).scheduleLoop hQ hv
    change (v.switchTo next).All Q
    unfold switchTo
    split
    · exact hvr
    · exact hvr

end

theorem all_boot (h : Q ⟨.running, 15, 15, 0, 0⟩) : boot.All Q := by
  have hempty : (⟨fun _ => none, 0, 0⟩ : Tasks).All Q := fun _ _ hp => by cases hp
  apply hempty.setTask
  intro p hp
  cases hp
  exact h

theorem inRange_kept : Task.Kept Task.InRange where
  congr _ _ hp hcounter hpriority := hp.congr hcounter hpriority
  recharge _ hp := hp.recharge
  tick _ hp := hp.tick
  child p hp := by
    obtain ⟨h1, h2, h3, h4⟩ := hp
    exact ⟨h1, h2, Int.le_of_lt h1, by dsimp only; omega⟩

theorem schedStep_inRange (ht : t.InRange) (hok : NiceBounded t e)
    (hstep : schedStep t e = some u) : u.InRange := by
  refine schedStep_all ht inRange_kept (fun increment he => ?_) hstep
  subst he
  exact Tasks.All.modify ht fun p hp hr => hr.nice (hok p hp)

theorem inRange_boot : boot.InRange := all_boot ⟨by decide, by decide, by decide, by decide⟩

end Steps

section Scan

variable {t : Tasks} {i : Fin 64}

theorem toInt_toInt32 {p : Task} (hp : p.InRange) : p.counter.toInt32.toInt = p.counter.toInt := by
  have h1 := hp.counter_nonneg
  have h2 := hp.counter_lt
  rw [Int64.toInt_toInt32]
  apply Int.bmod_eq_of_le <;> omega

/-- The best counter of a scan is that of a runnable task. -/
theorem foldl_scanSlot (ht : t.InRange) (l : List (Fin 64)) (best : Int32 × Fin 64) :
    (l.foldl t.scanSlot best = best ∨ (l.foldl t.scanSlot best).2 ∈ l ∧
      ∃ p, t.task (l.foldl t.scanSlot best).2 = some p ∧ p.state = .running ∧
        p.counter.toInt = (l.foldl t.scanSlot best).1.toInt) ∧
    best.1.toInt ≤ (l.foldl t.scanSlot best).1.toInt ∧
    ∀ i ∈ l, ∀ q, t.task i = some q → q.state = .running →
      q.counter.toInt ≤ (l.foldl t.scanSlot best).1.toInt := by
  induction l generalizing best with
  | nil => exact ⟨.inl rfl, Int.le_refl _, fun i hi => by cases hi⟩
  | cons i l ih =>
    obtain ⟨hfrom, hle, hmax⟩ := ih (t.scanSlot best i)
    rw [List.foldl_cons]
    -- What the first slot does to the best counter.
    have hslot : (t.scanSlot best i = best ∨ (t.scanSlot best i).2 = i ∧
        ∃ p, t.task i = some p ∧ p.state = .running ∧
          p.counter.toInt = (t.scanSlot best i).1.toInt) ∧
        best.1.toInt ≤ (t.scanSlot best i).1.toInt ∧
        ∀ q, t.task i = some q → q.state = .running →
          q.counter.toInt ≤ (t.scanSlot best i).1.toInt := by
      unfold scanSlot
      split
      · rename_i hi
        refine ⟨.inl rfl, Int.le_refl _, fun q hq => ?_⟩
        rw [hi] at hq
        cases hq
      rename_i p hi
      have hc := toInt_toInt32 (ht i p hi)
      split
      · rename_i hbetter
        have hlt : best.1.toInt < p.counter.toInt := by
          rw [← Int32.toInt_toInt64]
          exact Int64.lt_iff_toInt_lt.mp hbetter.2
        refine ⟨.inr ⟨rfl, p, hi, hbetter.1, hc.symm⟩, ?_, fun q hq _ => ?_⟩
        · rw [hc]
          exact Int.le_of_lt hlt
        · rw [hi] at hq
          cases hq
          exact Int.le_of_eq hc.symm
      · rename_i hworse
        refine ⟨.inl rfl, Int.le_refl _, fun q hq hrun => ?_⟩
        rw [hi] at hq
        cases hq
        rw [← Int32.toInt_toInt64]
        apply Int.not_lt.mp
        intro hlt
        exact hworse ⟨hrun, Int64.lt_iff_toInt_lt.mpr hlt⟩
    obtain ⟨hfrom', hle', hmax'⟩ := hslot
    refine ⟨?_, Int.le_trans hle' hle, fun j hj q hq hrun => ?_⟩
    · rcases hfrom with hfrom | ⟨hmem, hp⟩
      · rw [hfrom]
        refine hfrom'.imp_right fun ⟨hi, hp⟩ => ?_
        rw [hi]
        exact ⟨List.mem_cons_self, hp⟩
      · exact .inr ⟨List.mem_cons_of_mem _ hmem, hp⟩
    · rcases List.mem_cons.mp hj with rfl | hj
      · exact Int.le_trans (hmax' q hq hrun) hle
      · exact hmax j hj q hq hrun

theorem mem_slots : i ∈ slots ↔ i ≠ 0 := by
  revert i
  decide

theorem counter_le_scan (ht : t.InRange) {q : Task} (hi : i ≠ 0)
    (hq : t.task i = some q) (hrun : q.state = .running) : q.counter.toInt ≤ t.scan.1.toInt :=
  (foldl_scanSlot ht slots (-1, 0)).2.2 i (mem_slots.mpr hi) q hq hrun

theorem selects_scan (ht : t.InRange) : t.Selects t.scan.2 := by
  have hmax := fun i q hi hq hrun => counter_le_scan (i := i) (q := q) ht hi hq hrun
  rcases (foldl_scanSlot ht slots (-1, 0)).1 with hnone | ⟨hmem, p, hp, hrun, hc⟩
  · change t.scan = _ at hnone
    rw [hnone] at hmax ⊢
    refine .inr ⟨rfl, fun i q hi hq hrun => ?_⟩
    have h1 := hmax i q hi hq hrun
    have h2 := (ht i q hq).counter_nonneg
    have h3 : (-1 : Int32).toInt = -1 := rfl
    dsimp only at h1
    omega
  · refine .inl ⟨mem_slots.mp hmem, p, hp, hrun, fun i q hi hq hrun => ?_⟩
    rw [Int64.le_iff_toInt_le, hc]
    exact hmax i q hi hq hrun

theorem scan_recharge_ne_zero (ht : t.InRange) (hzero : t.scan.1 = 0) :
    (t.forTasks Task.recharge).scan.1 ≠ 0 := by
  rcases (foldl_scanSlot ht slots (-1, 0)).1 with hnone | ⟨hmem, p, hp, hrun, hc⟩
  · change t.scan = _ at hnone
    rw [hnone] at hzero
    exact absurd hzero (by decide)
  have hi := mem_slots.mp hmem
  have hr : (t.forTasks Task.recharge).InRange := Tasks.All.recharge ht inRange_kept
  have hq : (t.forTasks Task.recharge).task t.scan.2 = some p.recharge :=
    (task_forTasks hi).trans (congrArg (Option.map Task.recharge) hp)
  have hle := counter_le_scan hr hi hq hrun
  rw [(ht _ p hp).toInt_recharge] at hle
  intro hz
  have h1 := (ht _ p hp).priority_pos
  have h2 := (ht _ p hp).counter_nonneg
  have h3 : (0 : Int32).toInt = 0 := rfl
  rw [hz] at hle
  omega

theorem scheduleLoop_two (ht : t.InRange) :
    ∃ u next, t.scheduleLoop 2 = some (u, next) ∧ u.Selects next := by
  by_cases hzero : t.scan.1 = 0
  · have hr : (t.forTasks Task.recharge).InRange := Tasks.All.recharge ht inRange_kept
    refine ⟨_, _, ?_, selects_scan hr⟩
    rw [scheduleLoop, if_neg (not_not.mpr hzero), scheduleLoop,
      if_pos (scan_recharge_ne_zero ht hzero)]
  · exact ⟨t, _, by rw [scheduleLoop, if_pos hzero], selects_scan ht⟩

/-- With priorities up to `2^30`, `schedule` ends after at most one recharge and selects a runnable
task with the largest counter, or task 0. -/
theorem scheduleLoop_selects (hr : Reaches schedStep NiceBounded boot t) :
    ∃ u next, t.checkSignals.scheduleLoop 2 = some (u, next) ∧ u.Selects next := by
  have ht : t.InRange :=
    Reaches.invariant (P := Tasks.InRange) (fun _ _ _ h hok hstep => schedStep_inRange h hok hstep)
      hr inRange_boot
  exact scheduleLoop_two (Tasks.All.checkSignals ht inRange_kept)

end Scan

/-- A task of priority `2^30` passes it on, and its child is selected. -/
theorem scheduleLoop_selects_child : ∃ t : Tasks, Reaches schedStep NiceBounded boot t ∧
    (∃ p, t.task 2 = some p ∧ p.counter = 2 ^ 30) ∧
    ∃ u next, t.checkSignals.scheduleLoop 2 = some (u, next) ∧ u.Selects next := by
  have hrun : (run (fun t e => if niceBounded t e then schedStep t e else none)
      [.create, .schedule 1, .nice (15 - 2 ^ 30), .create, .sleep .interruptible] boot).map
      (fun t => (t.task 2).map Task.counter) = some (some (2 ^ 30 : Int64)) := by decide +kernel
  obtain ⟨t, ht, heq⟩ := Option.map_eq_some_iff.mp hrun
  have hreach : Reaches schedStep NiceBounded boot t :=
    reaches_of_checked (fun _ _ h => niceBounded_iff.mp h) ht
  exact ⟨t, hreach, Option.map_eq_some_iff.mp heq, scheduleLoop_selects hreach⟩

/-- The counter `2^32 + 1` loses against 15, since the scan keeps an `int`. -/
theorem scheduleLoop_not_largest : ∃ t : Tasks, Reaches schedStep (fun _ _ => True) boot t ∧
    ¬∃ rounds u next, t.checkSignals.scheduleLoop rounds = some (u, next) ∧ u.Selects next := by
  have hrun : (run schedStep [.create, .schedule 1, .nice (14 - 2 ^ 32), .create] boot).map
      (fun t => (t.checkSignals.scan, t.checkSignals.task 1, t.checkSignals.task 2)) =
      some ((15, 1), some ⟨.running, 15, 2 ^ 32 + 1, 0, 0⟩,
        some ⟨.running, 2 ^ 32 + 1, 2 ^ 32 + 1, 0, 0⟩) := by decide +kernel
  obtain ⟨t, ht, heq⟩ := Option.map_eq_some_iff.mp hrun
  obtain ⟨hscan, h1, h2⟩ : t.checkSignals.scan = _ ∧ t.checkSignals.task 1 = _ ∧
      t.checkSignals.task 2 = _ := by simpa only [Prod.mk.injEq] using heq
  refine ⟨t, reaches_of_run ht, ?_⟩
  rintro ⟨rounds, u, next, hloop, hsel⟩
  cases rounds with
  | zero => cases hloop
  | succ rounds =>
    rw [scheduleLoop, hscan, if_pos (by decide)] at hloop
    cases hloop
    rcases hsel with ⟨-, p, hp, -, hmax⟩ | ⟨hzero, -⟩
    · rw [h1] at hp
      cases hp
      exact absurd (hmax 2 _ (by decide) h2 rfl) (by decide)
    · exact absurd hzero (by decide)

end Linux001.Sched
