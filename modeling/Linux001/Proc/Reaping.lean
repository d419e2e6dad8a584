import Linux001.Proc.Table

/-! When a zombie can be reaped. `do_exit` clears the `father` of all children, zombies too; if no
task exits before it has waited for its zombies, a zombie always has a running parent. -/

namespace Linux001.Proc

open Function ProofKit

variable {s s' : Table} {i j : TaskNr} {t c : Task} {z : Task}

/-- Each zombie's `father` is a task that is not a zombie and not task 0. -/
def Reapable (s : Table) : Prop :=
  ∀ i z, s.task i = some z → z.zombie = true →
    ∃ j t, j ≠ 0 ∧ s.task j = some t ∧ t.zombie = false ∧ t.pid = z.father

/-- A task exits only when it has no zombie left, and task 0 does not exit. -/
def Waited (s : Table) (e : TaskNr × ProcCall) : Prop :=
  e.2 = .startExit → e.1 ≠ 0 ∧
    ∀ t, s.task e.1 = some t → ∀ j c, s.task j = some c → c.zombie = true → c.father ≠ t.pid

def Table.Parent (s : Table) (pid : BitVec 64) : Prop :=
  ∃ j t, j ≠ 0 ∧ s.task j = some t ∧ t.running = true ∧ t.pid = pid

/-- A parent is running, and a zombie has one. -/
structure Family (s : Table) : Prop where
  idle : ∃ t, s.task 0 = some t ∧ t.running = true ∧ t.pid = 0
  parent : ∀ i t, i ≠ 0 → s.task i = some t → t.father ≠ 0 → s.Parent t.father
  zombie : ∀ i t, s.task i = some t → t.zombie = true → i ≠ 0 ∧ t.father ≠ 0

theorem running_iff : t.running = true ↔ t.zombie = false ∧ t.exiting = false := by
  simp [Task.running]

theorem Family.reapable (h : Family s) : Reapable s := by
  intro i z hz hzombie
  obtain ⟨hi, hfather⟩ := h.zombie i z hz hzombie
  obtain ⟨j, t, hj, ht, hrun, hpid⟩ := h.parent i z hi hz hfather
  exact ⟨j, t, hj, ht, (running_iff.mp hrun).1, hpid⟩

theorem Family.boot (last : BitVec 64) : Family (boot last) where
  idle := ⟨initTask, rfl, rfl, rfl⟩
  parent i t hi ht _ := absurd (Option.ite_none_right_eq_some.mp ht).1 hi
  zombie i t ht hz := by
    obtain ⟨-, heq⟩ := Option.ite_none_right_eq_some.mp ht
    cases heq
    cases hz

theorem Table.Parent.setTask {pid : BitVec 64} (h : s.Parent pid) (hi : s.task i = some t)
    (hrun : t.running = false) (o : Option Task) : (s.setTask i o).Parent pid := by
  obtain ⟨j, p, hj, hp, hprun, hpid⟩ := h
  have hne : j ≠ i := by
    rintro rfl
    rw [hi] at hp
    cases hp
    rw [hrun] at hprun
    cases hprun
  exact ⟨j, p, hj, by simpa [Table.setTask, hne] using hp, hprun, hpid⟩

section
variable (h : Family s)
include h

theorem Family.release (hi : s.task i = some t) (hrun : t.running = false) (hne : i ≠ 0) :
    Family (s.setTask i none) := by
  have hold : ∀ j c, (s.setTask i none).task j = some c → s.task j = some c := by
    intro j c hc
    obtain ⟨-, heq⟩ | hc := Table.setTask_task hc
    · cases heq
    · exact hc
  refine ⟨?_, ?_, ?_⟩
  · obtain ⟨t0, ht0, hidle⟩ := h.idle
    exact ⟨t0, by simpa [Table.setTask, Ne.symm hne] using ht0, hidle⟩
  · intro j c hj hc hfather
    exact (h.parent j c hj (hold j c hc) hfather).setTask hi hrun none
  · intro j c hc hz
    exact h.zombie j c (hold j c hc) hz

theorem Family.becomeZombie (hi : s.task i = some t) (hexit : t.exiting = true)
    (hfather : t.father ≠ 0) :
    Family (s.setTask i (some { t with zombie := true, exiting := false })) := by
  have hrun : t.running = false := by simp [Task.running, hexit]
  have hne : i ≠ 0 := by
    rintro rfl
    obtain ⟨t0, ht0, hrun0, -⟩ := h.idle
    rw [hi] at ht0
    cases ht0
    rw [hrun] at hrun0
    cases hrun0
  refine ⟨?_, ?_, ?_⟩
  · obtain ⟨t0, ht0, hidle⟩ := h.idle
    exact ⟨t0, by simpa [Table.setTask, Ne.symm hne] using ht0, hidle⟩
  · intro j c hj hc hcf
    refine Table.Parent.setTask ?_ hi hrun _
    obtain ⟨rfl, heq⟩ | hc := Table.setTask_task hc
    · cases heq
      exact h.parent j t hj hi hfather
    · exact h.parent j c hj hc hcf
  · intro j c hc hz
    obtain ⟨rfl, heq⟩ | hc := Table.setTask_task hc
    · cases heq
      exact ⟨hne, hfather⟩
    · exact h.zombie j c hc hz

theorem Family.startExit (hi : s.task i = some t) (hne : i ≠ 0)
    (hwaited : ∀ j c, s.task j = some c → c.zombie = true → c.father ≠ t.pid) :
    Family (s.startExit i t) := by
  refine ⟨?_, ?_, ?_⟩
  · obtain ⟨t0, ht0, hrun, hpid⟩ := h.idle
    refine ⟨if t0.father = t.pid then { t0 with father := 0 } else t0, ?_, ?_, ?_⟩
    · simp [Table.startExit, Table.setTask, Table.orphan, Ne.symm hne, ht0]
    · split
      · exact hrun
      · exact hrun
    · split
      · exact hpid
      · exact hpid
  · intro j c hj hc hcf
    obtain ⟨c0, hc0, rfl⟩ := Table.startExit_task hc
    have hcf' : (if c0.father = t.pid then 0 else c0.father) ≠ 0 := hcf
    -- the children of the exiting task have no parent now
    have hother : c0.father ≠ t.pid := fun heq => hcf' (if_pos heq)
    rw [if_neg hother] at hcf' ⊢
    obtain ⟨k, p, hk, hp, hrun, hpid⟩ := h.parent j c0 hj hc0 hcf'
    have hki : k ≠ i := by
      rintro rfl
      rw [hi] at hp
      cases hp
      exact hother hpid.symm
    refine ⟨k, if p.father = t.pid then { p with father := 0 } else p, hk, ?_, ?_, ?_⟩
    · simp [Table.startExit, Table.setTask, Table.orphan, hki, hp]
    · split
      · exact hrun
      · exact hrun
    · split
      · exact hpid
      · exact hpid
  · intro j c hc hz
    obtain ⟨c0, hc0, rfl⟩ := Table.startExit_task hc
    obtain ⟨hj, hcf⟩ := h.zombie j c0 hc0 hz
    refine ⟨hj, ?_⟩
    rw [if_neg (hwaited j c0 hc0 hz)]
    exact hcf

theorem Family.extends
    (hkept : ∀ j c, s.task j = some c → ∃ c', s'.task j = some c' ∧ c'.pid = c.pid ∧
      c'.running = c.running) (hold : ∀ j c, s'.task j = some c →
      (∃ c0, s.task j = some c0 ∧ c.father = c0.father ∧ c.zombie = c0.zombie) ∨
      (c.zombie = false ∧ ∃ i t, s.task i = some t ∧ t.running = true ∧ c.father = t.pid)) :
    Family s' := by
  have hparent : ∀ pid, s.Parent pid → s'.Parent pid := by
    rintro pid ⟨k, p, hk, hp, hrun, hpid⟩
    obtain ⟨p', hp', hsame, hrun'⟩ := hkept k p hp
    exact ⟨k, p', hk, hp', hrun'.trans hrun, hsame.trans hpid⟩
  obtain ⟨t0, ht0, hrun0, hpid0⟩ := h.idle
  refine ⟨?_, ?_, ?_⟩
  · obtain ⟨t', ht', hsame, hrun'⟩ := hkept 0 t0 ht0
    exact ⟨t', ht', hrun'.trans hrun0, hsame.trans hpid0⟩
  · intro j c hj hc hcf
    apply hparent
    rcases hold j c hc with ⟨c0, hc0, hfather, -⟩ | ⟨-, i, t, hi, hrun, hfather⟩
    · rw [hfather] at hcf ⊢
      exact h.parent j c0 hj hc0 hcf
    · refine ⟨i, t, ?_, hi, hrun, hfather.symm⟩
      -- a child of task 0 has no parent
      rintro rfl
      rw [ht0] at hi
      cases hi
      exact hcf (hfather.trans hpid0)
  · intro j c hc hz
    rcases hold j c hc with ⟨c0, hc0, hfather, hzombie⟩ | ⟨hzombie, -⟩
    · rw [hzombie] at hz
      rw [hfather]
      exact h.zombie j c0 hc0 hz
    · rw [hzombie] at hz
      cases hz

theorem Family.setTask (hi : s.task i = some t) {t' : Task} (hpid : t'.pid = t.pid)
    (hrun : t'.running = t.running) (hfather : t'.father = t.father)
    (hzombie : t'.zombie = t.zombie) : Family (s.setTask i (some t')) := by
  refine h.extends ?_ ?_
  · intro j c hc
    by_cases hj : j = i
    · subst hj
      rw [hi] at hc
      cases hc
      exact ⟨t', by simp [Table.setTask], hpid, hrun⟩
    · exact ⟨c, by simpa [Table.setTask, hj] using hc, rfl, rfl⟩
  · intro j c hc
    left
    obtain ⟨rfl, heq⟩ | hc := Table.setTask_task hc
    · cases heq
      exact ⟨t, hi, hfather, hzombie⟩
    · exact ⟨c, hc, rfl, rfl⟩

theorem Family.child (hi : s.task i = some t) (hrun : t.running = true) {nr : TaskNr}
    (hempty : s.task nr = none) (hzombie : c.zombie = false) (hfather : c.father = t.pid) :
    Family (s.setTask nr (some c)) := by
  refine h.extends ?_ ?_
  · intro j p hp
    have hj : j ≠ nr := by
      rintro rfl
      rw [hempty] at hp
      cases hp
    exact ⟨p, by simpa [Table.setTask, hj] using hp, rfl, rfl⟩
  · intro j p hp
    obtain ⟨-, heq⟩ | hp := Table.setTask_task hp
    · cases heq
      exact .inr ⟨hzombie, i, t, hi, hrun, hfather⟩
    · exact .inl ⟨p, hp, rfl, rfl⟩

end

theorem Family.of_task (h : Family s) (htask : s'.task = s.task) : Family s' := by
  refine h.extends (fun j c hc => ⟨c, ?_, rfl, rfl⟩) fun j c hc => .inl ⟨c, ?_, rfl, rfl⟩
  · rw [htask, hc]
  · rw [← htask, hc]

theorem procStep_family {e : TaskNr × ProcCall} (h : Family s) (hclear : CopiesClear s e)
    (hwaited : Waited s e) (hstep : procStep s e = some s') : Family s' := by
  obtain ⟨t, ht, hstep⟩ := Table.procStep_stepped hclear hstep
  cases hstep with
  | same htask => exact h.of_task htask
  | child nr page pid hrun hempty _ htask => exact (h.child ht hrun hempty rfl rfl).of_task htask
  | exit hcall =>
    obtain ⟨hne, hno⟩ := hwaited hcall
    exact h.startExit ht hne (hno t ht)
  | zombie hexit hfather => exact h.becomeZombie ht hexit hfather
  | released j c hj hc hrun => exact h.release hc hrun hj
  | setuid uid =>
    obtain ⟨uid', euid, heq⟩ := sysSetuid_eq t uid
    rw [heq]
    exact h.setTask ht rfl rfl rfl rfl
  | setgid gid =>
    obtain ⟨gid', egid, heq⟩ := sysSetgid_eq t gid
    rw [heq]
    exact h.setTask ht rfl rfl rfl rfl

theorem waitpid_releases (hj : s.task j = some t) (hrun : t.running = true) (hz : s.task i = some z)
    (hzombie : z.zombie = true) (hi : i ≠ 0) (hij : i ≠ j) (hfather : z.father = t.pid) :
    ∃ k, k ≠ j ∧ (s.task k).isSome = true ∧
      procStep s (j, .waitpid (-1)) = some (s.setTask k none) := by
  have hfound : (s.findZombie j t (-1)).isSome = true := by
    rw [Table.findZombie, List.find?_isSome]
    refine ⟨i, List.mem_reverse.mpr (List.mem_finRange i), ?_⟩
    simp [hi, hij, hz, hzombie, Table.waitsFor, hfather]
  obtain ⟨k, hk⟩ := Option.isSome_iff_exists.mp hfound
  obtain ⟨hk0, hkj, c, hc, -, -⟩ := Table.findZombie_spec hk
  refine ⟨k, hkj, by rw [hc]; rfl, ?_⟩
  have hcan : t.canCall (.waitpid (-1)) = true := hrun
  rw [procStep, hj, Option.bind_some, if_pos hcan, Table.call, Table.waitpid, hk]
  exact if_neg hk0

def Table.count (s : Table) : Nat := (Finset.univ.filter fun i => (s.task i).isSome = true).card

theorem Table.count_setTask_none {k : TaskNr} (hk : (s.task k).isSome = true) :
    (s.setTask k none).count < s.count := by
  apply Finset.card_lt_card
  rw [Finset.ssubset_iff_of_subset]
  · refine ⟨k, Finset.mem_filter.mpr ⟨Finset.mem_univ k, hk⟩, fun hmem => ?_⟩
    simpa [Table.setTask] using (Finset.mem_filter.mp hmem).2
  · intro m hm
    refine Finset.mem_filter.mpr ⟨Finset.mem_univ m, ?_⟩
    by_cases hmk : m = k
    · rw [hmk]
      exact hk
    · simpa [Table.setTask, hmk] using (Finset.mem_filter.mp hm).2

theorem waitpid_reaps {n : Nat} (hn : s.count ≤ n) (hj : s.task j = some t)
    (hrun : t.running = true) (hz : s.task i = some z) (hzombie : z.zombie = true) (hi : i ≠ 0)
    (hij : i ≠ j) (hfather : z.father = t.pid) :
    ∃ m s', run procStep (List.replicate m (j, .waitpid (-1))) s = some s' ∧ s'.task i = none := by
  -- every round takes a task from the table, so that the induction is on their number
  induction n generalizing s with
  | zero =>
    have hmem : i ∈ Finset.univ.filter fun i => (s.task i).isSome = true := by simp [hz]
    have hpos : 0 < s.count := Finset.card_pos.mpr ⟨i, hmem⟩
    omega
  | succ n ih =>
    obtain ⟨k, hkj, hk, hstep⟩ := waitpid_releases hj hrun hz hzombie hi hij hfather
    by_cases hki : k = i
    · subst hki
      refine ⟨1, s.setTask k none, ?_, by simp [Table.setTask]⟩
      rw [List.replicate_one, run_cons, hstep, Option.bind_some, run_nil]
    have hcount := Table.count_setTask_none hk
    have hj' : (s.setTask k none).task j = some t := by
      simpa [Table.setTask, Ne.symm hkj] using hj
    have hz' : (s.setTask k none).task i = some z := by
      simpa [Table.setTask, Ne.symm hki] using hz
    obtain ⟨m, s', hrest, hnone⟩ := ih (by omega) hj' hz'
    refine ⟨m + 1, s', ?_, hnone⟩
    rw [List.replicate_succ, run_cons, hstep, Option.bind_some, hrest]

/-- Where tasks exit only after waiting for their zombies and no copy of `fork` reaches a task, each
zombie has a live parent that gets its slot back by `waitpid`. -/
theorem reapable_of_reaches {last : BitVec 64} {s : Table}
    (hreach : Reaches procStep (fun s e => CopiesClear s e ∧ Waited s e) (boot last) s) :
    Reapable s ∧
      ∀ i z, s.task i = some z → z.zombie = true →
        ∃ j t, s.task j = some t ∧ t.pid = z.father ∧
          ∃ m s', run procStep (List.replicate m (j, .waitpid (-1))) s = some s' ∧
            s'.task i = none := by
  have hfamily : Family s := by
    refine hreach.invariant (P := Family) ?_ (.boot last)
    intro s e s' h hok hstep
    exact procStep_family h hok.1 hok.2 hstep
  refine ⟨hfamily.reapable, ?_⟩
  intro i z hz hzombie
  obtain ⟨hi, hfather⟩ := hfamily.zombie i z hz hzombie
  obtain ⟨j, t, -, ht, hrun, hpid⟩ := hfamily.parent i z hi hz hfather
  have hij : i ≠ j := by
    rintro rfl
    rw [hz] at ht
    cases ht
    rw [(running_iff.mp hrun).1] at hzombie
    cases hzombie
  exact ⟨j, t, ht, hpid, waitpid_reaps le_rfl ht hrun hz hzombie hi hij hpid.symm⟩

/-- `Waited`, with `CopiesClear`. -/
def waited (s : Table) (e : TaskNr × ProcCall) : Bool :=
  CopiesClear s e ∧ (e.2 ≠ .startExit ∨ e.1 ≠ 0 ∧ (s.task e.1).all fun t =>
    (List.finRange 64).all fun j => (s.task j).all fun c => !c.zombie || c.father ≠ t.pid)

theorem waited_sound (s : Table) (e : TaskNr × ProcCall) (h : waited s e = true) :
    CopiesClear s e ∧ Waited s e := by
  obtain ⟨hclear, h⟩ := of_decide_eq_true h
  refine ⟨hclear, fun hcall => ?_⟩
  obtain ⟨hne, hall⟩ := h.resolve_left (not_not_intro hcall)
  refine ⟨hne, ?_⟩
  intro t ht j c hc hz
  rw [ht, Option.all_some, List.all_eq_true] at hall
  simpa [hc, hz] using hall j (List.mem_finRange j)

/-- Task 3, the child of task 2, becomes a zombie. -/
def zombieRun : List (TaskNr × ProcCall) :=
  [(0, forkTo 9), (1, forkTo 6), (2, forkTo 3), (3, .startExit), (3, .endExit)]

theorem reapable_of_reaches_zombie :
    ∃ s, Reaches procStep (fun s e => CopiesClear s e ∧ Waited s e) (boot 0) s ∧
      (s.task 3).map (fun z => (z.zombie, z.father)) = some (true, 2) ∧ Reapable s := by
  have hrun : (run (fun s e => if waited s e then procStep s e else none) zombieRun (boot 0)).map
      (fun s => (s.task 3).map fun z => (z.zombie, z.father)) = some (some (true, 2)) := by
    decide +kernel
  obtain ⟨s, hs, hz⟩ := Option.map_eq_some_iff.mp hrun
  have hreach := reaches_of_checked waited_sound hs
  exact ⟨s, hreach, hz, (reapable_of_reaches hreach).1⟩

/-- The middle one exits without waiting: its zombie is left without a parent. -/
theorem exit_before_waitpid :
    ∃ s, Reaches procStep (fun _ _ => True) (boot 0) s ∧ ¬ Reapable s := by
  have hrun : (run procStep (zombieRun ++ [(2, .startExit), (2, .endExit)]) (boot 0)).map
      (fun s => ((s.task 3).map fun z => (z.zombie, z.father),
        (List.finRange 64).all fun j => j = 0 || (s.task j).all fun t => t.pid ≠ 0)) =
      some (some (true, 0), true) := by
    decide +kernel
  obtain ⟨s, hs, heq⟩ := Option.map_eq_some_iff.mp hrun
  obtain ⟨hz, hpids⟩ := Prod.mk.inj heq
  obtain ⟨z, hz, hfather⟩ := Option.map_eq_some_iff.mp hz
  obtain ⟨hzombie, hfather⟩ := Prod.mk.inj hfather
  refine ⟨s, reaches_of_run hs, ?_⟩
  intro hreap
  obtain ⟨j, t, hj, ht, -, hpid⟩ := hreap 3 z hz hzombie
  have hall := List.all_eq_true.mp hpids j (List.mem_finRange j)
  rw [ht] at hall
  simp [hj, hpid, hfather] at hall

end Linux001.Proc
