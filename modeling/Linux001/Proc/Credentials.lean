import Linux001.Proc.Table

/-! A process that has given up its privileges does not get them back, unless `copy_process` copies
over it. `sys_setuid` would let it, if its saved user were its real one; but no call changes the
saved user from 0. -/

namespace Linux001.Proc

open Function ProofKit

variable {s s' : Table} {i j : TaskNr} {t c : Task} {e : TaskNr × ProcCall}

/-- Neither the real nor the effective user is 0. -/
def Task.Unprivileged (t : Task) : Prop := t.uid ≠ 0 ∧ t.euid ≠ 0

/-- The saved user of every task is 0. -/
def SavedRoot (s : Table) : Prop := ∀ i t, s.task i = some t → t.suid = 0

theorem sysSetuid_unprivileged (h : t.Unprivileged) (hsaved : t.suid = 0) (uid : BitVec 32) :
    (sysSetuid t uid).Unprivileged := by
  have hdisjunct : t.suid ≠ t.uid := by
    rw [hsaved]
    exact h.1.symm
  rw [sysSetuid, if_pos ⟨h.2, h.1⟩]
  split
  · next harg =>
    obtain rfl := harg.resolve_right hdisjunct
    refine ⟨h.1, ?_⟩
    rw [BitVec.setWidth_setWidth_of_le t.uid (by decide), BitVec.setWidth_eq]
    exact h.1
  · exact h

/-- A task keeps its users, or has them from `setuid` or its parent. -/
inductive Derives (s : Table) (e : TaskNr × ProcCall) (j : TaskNr) (c : Task) : Prop
  | same (c₀ : Task) (hc₀ : s.task j = some c₀)
    (hsame : c.uid = c₀.uid ∧ c.euid = c₀.euid ∧ c.suid = c₀.suid)
  | setuid (c₀ : Task) (uid : BitVec 32) (hc₀ : s.task j = some c₀) (hc : c = sysSetuid c₀ uid)
  | fork (t : Task) (hempty : s.task j = none) (ht : s.task e.1 = some t)
    (hsame : c.uid = t.uid ∧ c.euid = t.euid ∧ c.suid = t.suid)

theorem Derives.of_task (hc : s.task j = some c) : Derives s e j c :=
  .same c hc ⟨rfl, rfl, rfl⟩

theorem Derives.of_setTask {o : Option Task}
    (hc : (s.setTask i o).task j = some c) (ho : o = some c → j = i → Derives s e j c) :
    Derives s e j c := by
  obtain ⟨hj, hc⟩ | hc := Table.setTask_task hc
  · exact ho hc hj
  · exact .of_task hc

theorem procStep_derives (hclear : CopiesClear s e) (hstep : procStep s e = some s')
    (hc : s'.task j = some c) : Derives s e j c := by
  obtain ⟨t, ht, hstep⟩ := Table.procStep_stepped hclear hstep
  cases hstep with
  | same htask => exact .of_task (htask ▸ hc)
  | child nr page pid _ hempty _ htask =>
    rw [htask] at hc
    refine .of_setTask hc fun heq hj => ?_
    cases heq
    subst hj
    exact .fork t hempty ht ⟨rfl, rfl, rfl⟩
  | exit =>
    obtain ⟨c0, hc0, rfl⟩ := Table.startExit_task hc
    exact .same c0 hc0 ⟨rfl, rfl, rfl⟩
  | zombie =>
    refine .of_setTask hc fun heq hj => ?_
    cases heq
    subst hj
    exact .same t ht ⟨rfl, rfl, rfl⟩
  | released => exact .of_setTask hc fun h => nomatch h
  | setuid uid =>
    refine .of_setTask hc fun heq hj => ?_
    subst hj
    exact .setuid t uid ht (Option.some.inj heq).symm
  | setgid gid =>
    refine .of_setTask hc fun heq hj => ?_
    obtain ⟨gid', egid, hset⟩ := sysSetgid_eq t gid
    rw [hset] at heq
    cases heq
    subst hj
    exact .same t ht ⟨rfl, rfl, rfl⟩

theorem procStep_savedRoot (h : SavedRoot s) (hclear : CopiesClear s e)
    (hstep : procStep s e = some s') : SavedRoot s' := by
  intro j c hc
  cases procStep_derives hclear hstep hc with
  | same c0 hc0 hsame => exact hsame.2.2.trans (h j c0 hc0)
  | setuid c0 uid hc0 hset =>
    obtain ⟨uid', euid, heq⟩ := sysSetuid_eq c0 uid
    rw [hset, heq]
    exact h j c0 hc0
  | fork t _ ht hsame => exact hsame.2.2.trans (h e.1 t ht)

theorem savedRoot_of_reaches {last : BitVec 64}
    (hreach : Reaches procStep CopiesClear (boot last) s) : SavedRoot s := by
  refine hreach.invariant (P := SavedRoot) ?_ ?_
  · intro s e s' h hclear hstep
    exact procStep_savedRoot h hclear hstep
  · intro i t ht
    obtain ⟨-, heq⟩ := Option.ite_none_right_eq_some.mp ht
    cases heq
    rfl

/-- The table, and the processes that are watched. -/
structure Watch where
  table : Table
  member : TaskNr → Bool

/-- A step; a process that a member forks is a member while it lives. -/
def watchStep (w : Watch) (e : TaskNr × ProcCall) : Option Watch :=
  (procStep w.table e).map fun s =>
    { table := s
      member := fun i => (s.task i).isSome &&
        (w.member i || (w.table.task i).isNone && w.member e.1) }

/-- The process in the slot `i` is watched from here on. -/
def watch (s : Table) (i : TaskNr) : Watch := ⟨s, fun j => j = i⟩

/-- The steps of a watch whose copies reach no task. -/
def WatchClear (w : Watch) (e : TaskNr × ProcCall) : Prop := CopiesClear w.table e

/-- No member is privileged, and all saved users are 0. -/
structure Dropped (w : Watch) : Prop where
  saved : SavedRoot w.table
  users : ∀ i t, w.member i = true → w.table.task i = some t → t.Unprivileged
  live : ∀ i, w.member i = true → (w.table.task i).isSome = true

theorem watchStep_dropped {w w' : Watch} (h : Dropped w) (hclear : WatchClear w e)
    (hstep : watchStep w e = some w') : Dropped w' := by
  obtain ⟨s, hs, rfl⟩ := Option.map_eq_some_iff.mp hstep
  refine ⟨procStep_savedRoot h.saved hclear hs, ?_, ?_⟩
  · intro j c hj hc
    simp only [Bool.and_eq_true, Bool.or_eq_true] at hj
    obtain ⟨-, hold | ⟨hnone, hparent⟩⟩ := hj
    · cases procStep_derives hclear hs hc with
      | same c0 hc0 hsame =>
        obtain ⟨huid, heuid⟩ := h.users j c0 hold hc0
        exact ⟨hsame.1 ▸ huid, hsame.2.1 ▸ heuid⟩
      | setuid c0 uid hc0 hset =>
        rw [hset]
        exact sysSetuid_unprivileged (h.users j c0 hold hc0) (h.saved j c0 hc0) uid
      | fork t hempty _ _ =>
        have hsome := h.live j hold
        rw [hempty] at hsome
        cases hsome
    · have hempty := Option.isNone_iff_eq_none.mp hnone
      cases procStep_derives hclear hs hc with
      | same c0 hc0 _ =>
        rw [hempty] at hc0
        cases hc0
      | setuid c0 uid hc0 _ =>
        rw [hempty] at hc0
        cases hc0
      | fork t _ ht hsame =>
        obtain ⟨huid, heuid⟩ := h.users e.1 t hparent ht
        exact ⟨hsame.1 ▸ huid, hsame.2.1 ▸ heuid⟩
  · intro j hj
    exact (Bool.and_eq_true_iff.mp hj).1

/-- A process without user and effective user 0 stays so, with its descendants, where no copy of
`fork` reaches a task. -/
theorem unprivileged_of_reaches {last : BitVec 64} {s : Table} {p : TaskNr} {t : Task}
    (hreach : Reaches procStep CopiesClear (boot last) s) (hp : s.task p = some t)
    (hdrop : t.Unprivileged) {w : Watch} (hlater : Reaches watchStep WatchClear (watch s p) w) :
    ∀ i c, w.member i = true → w.table.task i = some c → c.uid ≠ 0 ∧ c.euid ≠ 0 := by
  have hdropped : Dropped w := by
    refine hlater.invariant (P := Dropped) ?_ ?_
    · intro w e w' h hclear hstep
      exact watchStep_dropped h hclear hstep
    refine ⟨savedRoot_of_reaches hreach, ?_, ?_⟩
    · intro i c hi hc
      obtain rfl : i = p := of_decide_eq_true hi
      have hc : s.task i = some c := hc
      rw [hp] at hc
      cases hc
      exact hdrop
    · intro i hi
      obtain rfl : i = p := of_decide_eq_true hi
      show (s.task i).isSome = true
      rw [hp]
      rfl
  exact hdropped.users

/-- Task 1 becomes user 5, and is watched in a later run. -/
def dropRun (ok : Table → TaskNr × ProcCall → Bool) (later : List (TaskNr × ProcCall)) :
    Option (Table × Task × Watch) := do
  let s ← run (fun s e => if ok s e then procStep s e else none) [(0, forkTo 9), (1, .setuid 5)]
    (boot 0)
  let t ← s.task 1
  let w ← run (fun w e => if ok w.table e then watchStep w e else none) later (watch s 1)
  pure (s, t, w)

theorem reaches_of_dropRun {ok : Table → TaskNr × ProcCall → Bool}
    {later : List (TaskNr × ProcCall)}
    {P : Table → TaskNr × ProcCall → Prop} (hok : ∀ s e, ok s e = true → P s e) {w : Watch}
    (h : dropRun ok later = some (s, t, w)) :
    Reaches procStep P (boot 0) s ∧ s.task 1 = some t ∧
      Reaches watchStep (fun w => P w.table) (watch s 1) w := by
  obtain ⟨s, hs, h⟩ := Option.bind_eq_some_iff.mp h
  obtain ⟨t, ht, h⟩ := Option.bind_eq_some_iff.mp h
  obtain ⟨w, hw, h⟩ := Option.bind_eq_some_iff.mp h
  cases h
  exact ⟨reaches_of_checked hok hs, ht, reaches_of_checked (fun (w : Watch) e => hok w.table e) hw⟩

/-- `init` becomes user 5, forks, and the child asks for user 0. -/
theorem unprivileged_of_reaches_child :
    ∃ (s : Table) (t : Task) (w : Watch) (c : Task),
      Reaches procStep CopiesClear (boot 0) s ∧ s.task 1 = some t ∧ t.Unprivileged ∧
        Reaches watchStep WatchClear (watch s 1) w ∧ w.member 2 = true ∧
        w.table.task 2 = some c ∧ c.uid ≠ 0 ∧ c.euid ≠ 0 := by
  have hrun : (dropRun (fun s e => CopiesClear s e) [(1, forkTo 6), (2, .setuid 0)]).bind (fun r =>
      (r.2.2.table.task 2).map fun _ => (r.2.1.uid, r.2.1.euid, r.2.2.member 2)) =
      some (5, 5, true) := by
    decide +kernel
  obtain ⟨⟨s, t, w⟩, hdrop, hrun⟩ := Option.bind_eq_some_iff.mp hrun
  obtain ⟨hreach, ht, hlater⟩ := reaches_of_dropRun (fun _ _ => of_decide_eq_true) hdrop
  obtain ⟨c, hc, hfields⟩ := Option.map_eq_some_iff.mp hrun
  simp only [Prod.mk.injEq] at hfields
  obtain ⟨huid, heuid, hmember⟩ := hfields
  have hdrop : t.Unprivileged := by
    rw [Task.Unprivileged, huid, heuid]
    decide
  exact ⟨s, t, w, c, hreach, ht, hdrop, hlater, hmember, hc,
    unprivileged_of_reaches hreach ht hdrop hlater 2 c hmember hc⟩

/-- `init` becomes user 5, and the next child of task 0 overwrites it. -/
theorem users_copied_over :
    ∃ (s : Table) (t : Task) (w : Watch) (c : Task),
      Reaches procStep (fun _ _ => True) (boot 0) s ∧ s.task 1 = some t ∧ t.Unprivileged ∧
        Reaches watchStep (fun _ _ => True) (watch s 1) w ∧ w.member 1 = true ∧
        w.table.task 1 = some c ∧ c.uid = 0 ∧ c.euid = 0 := by
  have hrun : (dropRun (fun _ _ => true) [(0, forkTo 8)]).bind (fun r =>
      (r.2.2.table.task 1).map fun c => (r.2.1.uid, r.2.1.euid, r.2.2.member 1, c.uid, c.euid)) =
      some (5, 5, true, 0, 0) := by
    decide +kernel
  obtain ⟨⟨s, t, w⟩, hdrop, hrun⟩ := Option.bind_eq_some_iff.mp hrun
  obtain ⟨hreach, ht, hlater⟩ := reaches_of_dropRun (fun _ _ _ => trivial) hdrop
  obtain ⟨c, hc, hfields⟩ := Option.map_eq_some_iff.mp hrun
  simp only [Prod.mk.injEq] at hfields
  obtain ⟨huid, heuid, hmember, hcuid, hceuid⟩ := hfields
  refine ⟨s, t, w, c, hreach, ht, ?_, hlater, hmember, hc, hcuid, hceuid⟩
  rw [Task.Unprivileged, huid, heuid]
  decide

end Linux001.Proc
