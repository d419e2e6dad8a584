import Linux001.Sched.Scheduler

/-! The bound on the counters of the scheduler: a recharge halves a counter and adds the priority.
The recharges of a `schedule` whose loop has not ended are steps of their own, one for each slot. -/

namespace Linux001.Sched

open ProofKit Tasks

/-- The calls, and the recharge of one slot by a running `schedule`. -/
inductive CounterEvent
  | call (e : SchedEvent)
  | recharge (i : Fin 64)

/-- One step; the loop of `schedule` does not come to slot 0. -/
def counterStep (t : Tasks) : CounterEvent → Option Tasks
  | .call e => schedStep t e
  | .recharge i => if i = 0 then none else some (t.modify i Task.recharge)

def Task.Prioritised (P : Int) (p : Task) : Prop := 0 < p.priority.toInt ∧ p.priority.toInt ≤ P

instance (P : Int) (p : Task) : Decidable (p.Prioritised P) :=
  inferInstanceAs (Decidable (_ ∧ _))

/-- After the step all priorities are positive and at most `P`. -/
def KeepsPriorities (P : Int) (t : Tasks) (e : CounterEvent) : Prop :=
  ∀ u, counterStep t e = some u → u.All (Task.Prioritised P)

def keepsPriorities (P : Int) (t : Tasks) (e : CounterEvent) : Bool :=
  (counterStep t e).all fun u =>
    decide (∀ i : Fin 64, (u.task i).all fun p => decide (p.Prioritised P))

theorem keepsPriorities_iff {P : Int} {t : Tasks} {e : CounterEvent} :
    keepsPriorities P t e = true ↔ KeepsPriorities P t e := by
  simp only [keepsPriorities, KeepsPriorities, Tasks.All, Option.all_eq_true, decide_eq_true_eq]

structure Task.Charged (P : Int) (p : Task) : Prop where
  prioritised : p.Prioritised P
  counter_nonneg : 0 ≤ p.counter.toInt
  counter_le : p.counter.toInt ≤ 2 * P - 1

section

variable {P : Int} {p : Task} {t u : Tasks}

theorem Task.Charged.toInt_recharge (h : p.Charged P) (hP : P ≤ 2 ^ 61) :
    p.recharge.counter.toInt = p.counter.toInt / 2 + p.priority.toInt := by
  obtain ⟨⟨h1, h2⟩, h3, h4⟩ := h
  change ((p.counter >>> 1) + p.priority).toInt = _
  rw [Int64.toInt_add, toInt_shiftRight_one]
  apply long_bmod <;> omega

theorem Task.Charged.recharge (h : p.Charged P) (hP : P ≤ 2 ^ 61) : p.recharge.Charged P := by
  have hcounter := h.toInt_recharge hP
  obtain ⟨⟨h1, h2⟩, h3, h4⟩ := h
  exact ⟨⟨h1, h2⟩, by omega, by omega⟩

theorem Task.Charged.lt_recharge (h : p.Charged P) (hP : P ≤ 2 ^ 61)
    (hlt : p.counter < p.priority) : p.counter < p.recharge.counter := by
  have hcounter := h.toInt_recharge hP
  have hnonneg := h.counter_nonneg
  rw [Int64.lt_iff_toInt_lt] at hlt ⊢
  omega

theorem Task.Charged.tick (h : p.Charged P) (hP : P ≤ 2 ^ 61) :
    (if p.counter - 1 > 0 then { p with counter := p.counter - 1 }
      else { p with counter := 0 } : Task).Charged P := by
  obtain ⟨hprio, h3, h4⟩ := h
  have hone : (1 : Int64).toInt = 1 := rfl
  have hzero : (0 : Int64).toInt = 0 := rfl
  have hsub : (p.counter - 1).toInt = p.counter.toInt - 1 := by
    rw [Int64.toInt_sub, hone]
    apply long_bmod <;> omega
  split
  · rename_i hpos
    have hpos' : 0 < (p.counter - 1).toInt := Int64.lt_iff_toInt_lt.mp hpos
    exact ⟨hprio, Int.le_of_lt hpos', by dsimp only; omega⟩
  · exact ⟨hprio, Int.le_of_eq hzero.symm, by dsimp only; omega⟩

theorem charged_kept (hP : P ≤ 2 ^ 61) : Task.Kept (Task.Charged P) where
  congr p q hp hcounter hpriority := by
    obtain ⟨hprio, h3, h4⟩ := hp
    unfold Task.Prioritised at hprio
    rw [← hpriority] at hprio
    rw [← hcounter] at h3 h4
    exact ⟨hprio, h3, h4⟩
  recharge _ hp := hp.recharge hP
  tick _ hp := hp.tick hP
  child p hp := by
    obtain ⟨⟨h1, h2⟩, -, -⟩ := hp
    exact ⟨⟨h1, h2⟩, Int.le_of_lt h1, by dsimp only; omega⟩

theorem Tasks.All.sysNice_charged {increment : Int64} (ht : t.All (Task.Charged P))
    (hprio : (t.sysNice increment).All (Task.Prioritised P)) :
    (t.sysNice increment).All (Task.Charged P) := by
  have hcounter : (t.sysNice increment).All fun p =>
      0 ≤ p.counter.toInt ∧ p.counter.toInt ≤ 2 * P - 1 := by
    have ht' : t.All fun p => 0 ≤ p.counter.toInt ∧ p.counter.toInt ≤ 2 * P - 1 :=
      fun i p hp => ⟨(ht i p hp).counter_nonneg, (ht i p hp).counter_le⟩
    refine ht'.modify fun p _ hp => ?_
    split
    · exact hp
    · exact hp
  intro i p hp
  exact ⟨hprio i p hp, (hcounter i p hp).1, (hcounter i p hp).2⟩

theorem counterStep_charged {e : CounterEvent} (hP : P ≤ 2 ^ 61) (ht : t.All (Task.Charged P))
    (hok : KeepsPriorities P t e) (hstep : counterStep t e = some u) : u.All (Task.Charged P) := by
  cases e with
  | call e =>
    refine schedStep_all ht (charged_kept hP) (fun increment he => ?_) hstep
    subst he
    exact ht.sysNice_charged (hok _ rfl)
  | recharge i =>
    obtain ⟨-, heq⟩ := Option.ite_none_left_eq_some.mp hstep
    cases heq
    exact ht.modify fun p _ hp => hp.recharge hP

/-- With priorities of at most `P`, the counters stay between 0 and `2 * P - 1`, and recharges raise
those below their priority. -/
theorem counters_bounded (hlow : 15 ≤ P) (hhigh : P ≤ 2 ^ 61)
    (hr : Reaches counterStep (KeepsPriorities P) boot t) :
    (∀ i p, t.task i = some p → 0 ≤ p.counter.toInt ∧ p.counter.toInt ≤ 2 * P - 1) ∧
    ∀ i p, i ≠ 0 → t.task i = some p → p.counter < p.priority →
      ∃ q, (t.forTasks Task.recharge).task i = some q ∧ p.counter < q.counter := by
  have hfifteen : (15 : Int64).toInt = 15 := rfl
  have hboot : boot.All (Task.Charged P) := by
    refine all_boot ⟨⟨?_, ?_⟩, ?_, ?_⟩
    · exact (by decide : 0 < (15 : Int64).toInt)
    · exact hfifteen ▸ hlow
    · exact (by decide : 0 ≤ (15 : Int64).toInt)
    · dsimp only
      omega
  have ht : t.All (Task.Charged P) :=
    hr.invariant (P := Tasks.All (Task.Charged P))
      (fun _ _ _ h hok hstep => counterStep_charged hhigh h hok hstep) hboot
  refine ⟨fun i p hp => ⟨(ht i p hp).counter_nonneg, (ht i p hp).counter_le⟩, ?_⟩
  intro i p hi hp hlt
  refine ⟨p.recharge, ?_, (ht i p hp).lt_recharge hhigh hlt⟩
  rw [task_forTasks hi, hp, Option.map_some]

end

/-- Task 0 runs for one tick, and then a child of it until its counter is used up. -/
def idleTick : List CounterEvent :=
  [.call .tick, .call .create, .call (.schedule 1)] ++ List.replicate 15 (.call .tick)

theorem idleTick_run : ∃ t, Reaches counterStep (KeepsPriorities 15) boot t ∧
    t.checkSignals.task 0 = some ⟨.running, 14, 15, 0, 0⟩ ∧
    t.task 1 = some ⟨.running, 0, 15, 0, 0⟩ ∧ t.checkSignals.scan.1 = 0 ∧
    (t.checkSignals.forTasks Task.recharge).scan.1 = 15 := by
  have hrun : (run (fun t e => if keepsPriorities 15 t e then counterStep t e else none)
      idleTick boot).map (fun t => (t.checkSignals.task 0, t.task 1, t.checkSignals.scan.1,
        (t.checkSignals.forTasks Task.recharge).scan.1)) =
      some (some ⟨.running, 14, 15, 0, 0⟩, some ⟨.running, 0, 15, 0, 0⟩, 0, 15) := by
    decide +kernel
  obtain ⟨t, ht, heq⟩ := Option.map_eq_some_iff.mp hrun
  simp only [Prod.mk.injEq] at heq
  exact ⟨t, reaches_of_checked (fun _ _ h => keepsPriorities_iff.mp h) ht, heq⟩

/-- The counter of the child is in bounds, and the next recharge raises it. -/
theorem counters_bounded_idleTick : ∃ t, Reaches counterStep (KeepsPriorities 15) boot t ∧
    t.task 1 = some ⟨.running, 0, 15, 0, 0⟩ ∧
    ∃ q, (t.forTasks Task.recharge).task 1 = some q ∧ (0 : Int64) < q.counter := by
  obtain ⟨t, hr, -, hchild, -, -⟩ := idleTick_run
  have hlt : (0 : Int64) < 15 := by decide
  obtain ⟨-, hraises⟩ := counters_bounded (Int.le_refl 15) (by omega) hr
  obtain ⟨q, hq, hraised⟩ := hraises 1 ⟨.running, 0, 15, 0, 0⟩ (by decide) hchild hlt
  exact ⟨t, hr, hchild, q, hq, hraised⟩

/-- `schedule` leaves task 0 the counter 14, below its priority 15. -/
theorem recharge_skips_task0 : ∃ t, Reaches counterStep (KeepsPriorities 15) boot t ∧
    ∃ u next p, t.checkSignals.scheduleLoop 2 = some (u, next) ∧
      u = t.checkSignals.forTasks Task.recharge ∧ t.checkSignals.task 0 = some p ∧
      p.counter < p.priority ∧ u.task 0 = some p := by
  obtain ⟨t, hr, hidle, -, hscan, hscan'⟩ := idleTick_run
  have hloop : t.checkSignals.scheduleLoop 2 = some (t.checkSignals.forTasks Task.recharge,
      (t.checkSignals.forTasks Task.recharge).scan.2) := by
    rw [scheduleLoop, if_neg (not_not.mpr hscan), scheduleLoop, if_pos (by rw [hscan']; decide)]
  exact ⟨t, hr, _, _, _, hloop, rfl, hidle, by decide, hidle⟩

end Linux001.Sched
