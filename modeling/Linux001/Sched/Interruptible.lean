import Linux001.Sched.WaitQueue

/-! The wait queue behind `interruptible_sleep_on` of `kernel/sched.c`. A task that finds another at
the head wakes the head and sleeps again, and can be lost so if somebody started to sleep on an
empty queue. -/

namespace Linux001.Sched

open Function ProofKit

namespace Waiters

variable {τ : Type*}

/-- Every sleeper is reached from the head or a task yet to continue. -/
def Led (s : Waiters τ) : Prop :=
  ∀ a, s.Asleep a → Leads s.tmp s.head a ∨ ∃ w, s.Woken w ∧ Leads s.tmp (s.tmp w) a

/-- Queued tasks are reached from the head, or else from one yet to continue. -/
structure Kept (s : Waiters τ) : Prop where
  inside : ∀ h, s.head = some h → (s.frame h).isSome
  led : ∀ a, (s.frame a).isSome →
    Leads s.tmp s.head a ∨ s.head = none ∧ (s.Woken a ∨ ∃ w, s.Woken w ∧ Leads s.tmp (s.tmp w) a)

theorem Kept.led_asleep {s : Waiters τ} (hk : s.Kept) : s.Led := by
  intro a ha
  rcases hk.led a ha.1 with hl | ⟨-, hw | hw⟩
  · exact .inl hl
  · exact absurd hw ha.not_woken
  · exact .inr hw

variable [DecidableEq τ]

def interruptibleSleepOn (init : τ) (s : Waiters τ) (a : τ) : Option (Waiters τ) :=
  if a = init ∨ (s.frame a).isSome then none else some (s.enter a .interruptible)

/-- The code after `schedule`: back to sleep behind another head, or the return. -/
def continueInterruptible (s : Waiters τ) (a : τ) (tmp : Option τ) : Waiters τ :=
  if s.head ≠ none ∧ s.head ≠ some a then
    { s.wakeTask s.head with state := update (s.wakeTask s.head).state a .interruptible }
  else ({ s with head := none }.wakeTask tmp).leave a

def interruptibleReturn (s : Waiters τ) (a : τ) : Option (Waiters τ) :=
  match s.frame a with
  | none => none
  | some f => if s.state a = .running then some (s.continueInterruptible a f.tmp) else none

/-- The part of `schedule` that makes an interruptible task with a signal runnable. -/
def signalled (s : Waiters τ) (a : τ) : Option (Waiters τ) :=
  if s.state a = .interruptible then some (s.wakeTask (some a)) else none

end Waiters

/-- A sleep, a continuation, a signal, or a `wake_up`. -/
inductive IntEvent (τ : Type*)
  | sleep (a : τ)
  | wake
  | resume (a : τ)
  | signal (a : τ)

variable {τ : Type*} [DecidableEq τ] {o : Option τ}

def intStep (init : τ) (s : Waiters τ) : IntEvent τ → Option (Waiters τ)
  | .sleep a => s.interruptibleSleepOn init a
  | .wake => some s.wakeUp
  | .resume a => s.interruptibleReturn a
  | .signal a => s.signalled a

/-- No task starts to sleep on an empty queue while another has yet to continue. -/
def Settled (s : Waiters τ) : IntEvent τ → Prop
  | .sleep _ => s.head ≠ none ∨ ∀ w, ¬s.Woken w
  | _ => True

instance [Fintype τ] (s : Waiters τ) : (e : IntEvent τ) → Decidable (Settled s e)
  | .sleep _ => inferInstanceAs (Decidable (s.head ≠ none ∨
      ∀ w, ¬((s.frame w).isSome ∧ s.state w = .running)))
  | .wake | .resume _ | .signal _ => inferInstanceAs (Decidable True)

open Waiters

section

variable {s t : Waiters τ} {a b h : τ}

theorem Waiters.Kept.enter {state : TaskState} (hk : s.Kept) (ha : s.frame a = none)
    (hset : s.head ≠ none ∨ ∀ w, ¬s.Woken w) : (s.enter a state).Kept := by
  have htmp : ∀ b c, s.tmp b = some c → (s.enter a state).tmp b = some c := by
    intro b c hb
    have hba : b ≠ a := by
      rintro rfl
      simp [tmp, ha] at hb
    rw [enter_tmp, update_of_ne hba, hb]
  refine ⟨fun h hh => ?_, fun b hb => .inl ?_⟩
  · obtain rfl : a = h := Option.some.inj hh
    simp [Waiters.enter]
  by_cases hba : b = a
  · subst hba
    exact .here b
  have hb' : (s.frame b).isSome := by simpa [Waiters.enter, hba] using hb
  have hl : Leads s.tmp s.head b := by
    rcases hk.led b hb' with hl | ⟨hnone, hw⟩
    · exact hl
    · have hno := hset.resolve_left (not_not.mpr hnone)
      rcases hw with hw | ⟨w, hw, -⟩
      · exact absurd hw (hno b)
      · exact absurd hw (hno w)
  have hself : (s.enter a state).tmp a = s.head := by rw [enter_tmp, update_self]
  refine .there ?_
  rw [hself]
  exact hl.mono htmp

theorem Waiters.woken_of_wakeTask (hw : s.Woken b) : (s.wakeTask o).Woken b := by
  cases o with
  | none => exact hw
  | some c =>
    refine ⟨hw.1, ?_⟩
    by_cases hbc : b = c
    · simp [wakeTask, hbc]
    · simpa [wakeTask, hbc] using hw.2

theorem Waiters.woken_wakeTask_self (hb : (s.frame b).isSome) : (s.wakeTask (some b)).Woken b :=
  ⟨hb, by simp [wakeTask]⟩

theorem Waiters.Kept.wakeTask (hk : s.Kept) : (s.wakeTask o).Kept := by
  refine ⟨fun h hh => ?_, fun a ha => ?_⟩
  · rw [wakeTask_head] at hh
    rw [wakeTask_frame]
    exact hk.inside h hh
  · rw [wakeTask_frame] at ha
    rw [wakeTask_tmp, wakeTask_head]
    refine (hk.led a ha).imp_right fun ⟨hnone, hw⟩ => ⟨hnone, ?_⟩
    exact hw.imp woken_of_wakeTask fun ⟨w, hw, hl⟩ => ⟨w, woken_of_wakeTask hw, hl⟩

theorem Waiters.Kept.wakeUp (hk : s.Kept) : s.wakeUp.Kept := by
  have hframe : s.wakeUp.frame = s.frame := wakeTask_frame (o := s.head)
  have htmp : s.wakeUp.tmp = s.tmp := wakeTask_tmp (o := s.head)
  have hwoken : ∀ b, (s.wakeTask s.head).Woken b → s.wakeUp.Woken b := fun _ hb => hb
  refine ⟨fun h hh => (by cases hh), fun a ha => .inr ⟨rfl, ?_⟩⟩
  rw [hframe] at ha
  rw [htmp]
  rcases hk.led a ha with hl | ⟨-, hw⟩
  · cases hhead : s.head with
    | none =>
      rw [hhead] at hl
      exact absurd hl (not_leads_none _)
    | some h =>
      have hh : s.wakeUp.Woken h :=
        hwoken h (by rw [hhead]; exact woken_wakeTask_self (hk.inside h hhead))
      rw [hhead] at hl
      cases hl with
      | here => exact .inl hh
      | there hl => exact .inr ⟨h, hh, hl⟩
  · exact hw.imp (fun hw => hwoken a (woken_of_wakeTask hw)) fun ⟨w, hw, hl⟩ =>
      ⟨w, hwoken w (woken_of_wakeTask hw), hl⟩

theorem Waiters.Kept.leave (hk : s.Kept) (hhead : s.head = none ∨ s.head = some a) :
    (({ s with head := none } : Waiters τ).wakeTask (s.tmp a) |>.leave a).Kept := by
  obtain ⟨u, hu⟩ : ∃ u, u = ({ s with head := none } : Waiters τ).wakeTask (s.tmp a) := ⟨_, rfl⟩
  have huf : u.frame = s.frame := hu ▸ wakeTask_frame
  have hut : u.tmp = s.tmp := hu ▸ wakeTask_tmp
  have huh : u.head = none := hu ▸ wakeTask_head
  have huw : ∀ b, s.Woken b → u.Woken b := fun b hb => hu ▸ woken_of_wakeTask hb
  rw [← hu]
  have hframe : ∀ b, b ≠ a → (u.leave a).frame b = s.frame b := fun b hb => by
    rw [← huf]
    exact update_of_ne hb _ _
  have hwoken : ∀ b, b ≠ a → u.Woken b → (u.leave a).Woken b := fun b hb hw =>
    woken_leave.mpr ⟨hb, hw⟩
  have htmp : (u.leave a).tmp = update s.tmp a none := by rw [leave_tmp, hut]
  -- What the leaving task leads to is reached from the task that it wakes.
  have hnext : ∀ b, b ≠ a → (s.frame b).isSome → Leads (u.leave a).tmp (s.tmp a) b →
      (u.leave a).Woken b ∨
        ∃ w, (u.leave a).Woken w ∧ Leads (u.leave a).tmp ((u.leave a).tmp w) b := by
    intro b hba hb hl
    cases hta : s.tmp a with
    | none =>
      rw [hta] at hl
      exact absurd hl (not_leads_none _)
    | some c =>
      rw [hta] at hl hu
      have hc : (s.frame c).isSome → u.Woken c := fun hc => hu ▸ woken_wakeTask_self hc
      cases hl with
      | here => exact .inl (hwoken b hba (hc hb))
      | there hl =>
        by_cases hca : c = a
        · rw [hca, htmp, update_self] at hl
          exact absurd hl (not_leads_none _)
        have hcs : (s.frame c).isSome := by
          cases hf : s.frame c with
          | some _ => rfl
          | none =>
            rw [htmp, update_of_ne hca, tmp, hf] at hl
            exact absurd hl (not_leads_none _)
        exact .inr ⟨c, hwoken c hca (hc hcs), hl⟩
  refine ⟨fun h hh => ?_, fun b hb => .inr ⟨huh, ?_⟩⟩
  · rw [leave_head, huh] at hh
    cases hh
  have hba : b ≠ a := by
    rintro rfl
    simp [Waiters.leave] at hb
  rw [hframe b hba] at hb
  have hcut : ∀ {p : Option τ}, Leads s.tmp p b →
      Leads (u.leave a).tmp p b ∨ Leads (u.leave a).tmp (s.tmp a) b := fun hl => by
    rw [htmp]
    exact hl.cut a
  rcases hk.led b hb with hl | ⟨-, hw | ⟨w, hw, hl⟩⟩
  · rcases hhead with hnone | hself
    · rw [hnone] at hl
      exact absurd hl (not_leads_none _)
    · rw [hself] at hl
      cases hl with
      | here => exact absurd rfl hba
      | there hl => exact hnext b hba hb ((hcut hl).elim id id)
  · exact .inl (hwoken b hba (huw b hw))
  · by_cases hwa : w = a
    · subst hwa
      exact hnext b hba hb ((hcut hl).elim id id)
    · rcases hcut hl with hl | hl
      · refine .inr ⟨w, hwoken w hwa (huw w hw), ?_⟩
        have hself : (u.leave a).tmp w = s.tmp w := by rw [htmp, update_of_ne hwa]
        rwa [hself]
      · exact hnext b hba hb hl

theorem Waiters.Kept.again (hk : s.Kept) (hhead : s.head ≠ none) :
    ({ s.wakeTask s.head with
      state := update (s.wakeTask s.head).state a .interruptible } : Waiters τ).Kept := by
  refine ⟨fun h hh => ?_, fun b hb => .inl ?_⟩
  · have hinside := hk.inside h (wakeTask_head.symm.trans hh)
    rwa [wakeTask_frame]
  · have hb' : (s.frame b).isSome := by
      rwa [wakeTask_frame] at hb
    change Leads (s.wakeTask s.head).tmp (s.wakeTask s.head).head b
    rw [wakeTask_tmp, wakeTask_head]
    exact (hk.led b hb').resolve_right fun h => hhead h.1

theorem Waiters.Kept.continueInterruptible (hk : s.Kept) :
    (s.continueInterruptible a (s.tmp a)).Kept := by
  unfold Waiters.continueInterruptible
  split
  · rename_i hhead
    exact hk.again hhead.1
  · rename_i hhead
    exact hk.leave (by rwa [not_and_or, not_not, not_not] at hhead)

end

section

variable {init : τ} {s t : Waiters τ} {e : IntEvent τ}

theorem interruptibleReturn_eq {a : τ} (h : s.interruptibleReturn a = some t) :
    s.Woken a ∧ t = s.continueInterruptible a (s.tmp a) := by
  unfold interruptibleReturn at h
  split at h
  · cases h
  · rename_i f hf
    obtain ⟨hrun, heq⟩ := Option.ite_none_right_eq_some.mp h
    cases heq
    exact ⟨⟨by rw [hf]; rfl, hrun⟩, by rw [tmp_of_frame hf]⟩

theorem intStep_kept (hk : s.Kept) (hok : Settled s e) (hstep : intStep init s e = some t) :
    t.Kept := by
  cases e with
  | sleep a =>
    obtain ⟨hguard, heq⟩ := Option.ite_none_left_eq_some.mp hstep
    cases heq
    rw [not_or, Option.not_isSome_iff_eq_none] at hguard
    exact hk.enter hguard.2 hok
  | wake =>
    cases hstep
    exact hk.wakeUp
  | resume a =>
    obtain ⟨-, rfl⟩ := interruptibleReturn_eq hstep
    exact hk.continueInterruptible
  | signal a =>
    obtain ⟨-, heq⟩ := Option.ite_none_right_eq_some.mp hstep
    cases heq
    exact hk.wakeTask

omit [DecidableEq τ] in
theorem kept_fresh (state : τ → TaskState) : (fresh state).Kept where
  inside _ hh := by cases hh
  led _ ha := by cases ha

theorem intStep_counted (hc : Counted s) (hstep : intStep init s e = some t) : Counted t := by
  cases e with
  | sleep a =>
    obtain ⟨-, heq⟩ := Option.ite_none_left_eq_some.mp hstep
    cases heq
    exact hc.enter
  | wake =>
    cases hstep
    exact hc.wakeTask (o := s.head)
  | resume a =>
    obtain ⟨-, rfl⟩ := interruptibleReturn_eq hstep
    unfold continueInterruptible
    split
    · exact hc.wakeTask (o := s.head)
    · have hc' : Counted ({ s with head := none } : Waiters τ) := hc
      exact hc'.wakeTask.leave
  | signal a =>
    obtain ⟨-, heq⟩ := Option.ite_none_right_eq_some.mp hstep
    cases heq
    exact hc.wakeTask

def Passing (h : τ) (c : Nat) (s : Waiters τ) : Prop :=
  c < s.calls ∧ (s.call h = some c → s.Woken h ∧ s.head = none)

variable {h : τ} {c : Nat}

theorem Passing.wakeTask (hp : Passing h c s) : Passing h c (s.wakeTask o) := by
  refine ⟨by rw [wakeTask_calls]; exact hp.1, fun hcall => ?_⟩
  have hcall' : s.call h = some c := by
    rw [← hcall, call, call, wakeTask_frame]
  exact ⟨woken_of_wakeTask (hp.2 hcall').1, wakeTask_head.trans (hp.2 hcall').2⟩

theorem intStep_passing (hp : Passing h c s) (hok : Settled s e)
    (hstep : intStep init s e = some t) : Passing h c t := by
  cases e with
  | sleep a =>
    obtain ⟨hguard, heq⟩ := Option.ite_none_left_eq_some.mp hstep
    cases heq
    refine ⟨Nat.lt_succ_of_lt hp.1, fun hcall => ?_⟩
    rw [enter_call] at hcall
    by_cases hha : h = a
    · subst hha
      rw [update_self] at hcall
      have := hp.1
      have := Option.some.inj hcall
      omega
    · -- The queue is empty while the task has yet to continue, so nobody starts to sleep.
      rw [update_of_ne hha] at hcall
      obtain ⟨hw, hnone⟩ := hp.2 hcall
      exact absurd hw (hok.resolve_left (not_not.mpr hnone) h)
  | wake =>
    cases hstep
    have hw := hp.wakeTask (o := s.head)
    exact ⟨hw.1, fun hcall => ⟨(hw.2 hcall).1, rfl⟩⟩
  | resume a =>
    obtain ⟨ha, rfl⟩ := interruptibleReturn_eq hstep
    unfold continueInterruptible
    split
    · rename_i hhead
      refine ⟨(hp.wakeTask (o := s.head)).1, fun hcall => ?_⟩
      have hnone := ((hp.wakeTask (o := s.head)).2 hcall).2
      rw [wakeTask_head] at hnone
      exact absurd hnone hhead.1
    · have hp' : Passing h c ({ s with head := none } : Waiters τ) :=
        ⟨hp.1, fun hcall => ⟨(hp.2 hcall).1, rfl⟩⟩
      have hw := hp'.wakeTask (o := s.tmp a)
      refine ⟨hw.1, fun hcall => ?_⟩
      rw [leave_call] at hcall
      by_cases hha : h = a
      · subst hha
        rw [update_self] at hcall
        cases hcall
      · rw [update_of_ne hha] at hcall
        exact ⟨woken_leave.mpr ⟨hha, (hw.2 hcall).1⟩, (hw.2 hcall).2⟩
  | signal a =>
    obtain ⟨-, heq⟩ := Option.ite_none_right_eq_some.mp hstep
    cases heq
    exact hp.wakeTask

/-- If no sleep starts on an empty queue while a task has yet to continue, each sleeper is reached
from the head or such a task, and none sleeps again in its call. -/
theorem led_of_reaches {state : τ → TaskState}
    (hr : Reaches (intStep init) Settled (fresh state) s) :
    s.Led ∧ ∀ h, s.head = some h → ∀ t, Reaches (intStep init) Settled s.wakeUp t →
      t.call h = s.call h → ¬t.Asleep h := by
  have hk : s.Kept :=
    Reaches.invariant (P := Kept) (fun _ _ _ h hok hstep => intStep_kept h hok hstep) hr
      (kept_fresh state)
  have hc : Counted s :=
    Reaches.invariant (P := Counted) (fun _ _ _ h _ hstep => intStep_counted h hstep) hr
      fun _ _ hn => by cases hn
  refine ⟨hk.led_asleep, fun h hh t ht hcall hasleep => ?_⟩
  obtain ⟨f, hf⟩ := Option.isSome_iff_exists.mp (hk.inside h hh)
  have hfc : s.call h = some f.call := by rw [call, hf, Option.map_some]
  have hwoken : s.wakeUp.Woken h := by
    have hw : (s.wakeTask (some h)).Woken h := woken_wakeTask_self (hk.inside h hh)
    rw [← hh] at hw
    exact hw
  have hstart : Passing h f.call s.wakeUp :=
    ⟨(hc.wakeTask (o := s.head)) h f.call (by rw [call, wakeTask_frame]; exact hfc),
      fun _ => ⟨hwoken, rfl⟩⟩
  have hp : Passing h f.call t :=
    Reaches.invariant (P := Passing h f.call)
      (fun _ _ _ h hok hstep => intStep_passing h hok hstep) ht hstart
  exact hasleep.not_woken (hp.2 (hcall.trans hfc)).1

end

/-- A sleeper is woken by a signal, sleeps again, and is still led to. -/
theorem led_of_reaches_signal : ∃ s : Waiters (Fin 4),
    Reaches (intStep 0) Settled (fresh fun _ => .running) s ∧ s.Asleep 1 ∧ s.head = none ∧
      ∃ w, s.Woken w ∧ Leads s.tmp (s.tmp w) 1 := by
  have hs : (run (fun s e => if decide (Settled s e) then intStep 0 s e else none)
      [.sleep 1, .sleep 2, .sleep 3, .signal 2, .resume 2, .wake]
        (fresh fun _ : Fin 4 => .running)).map
      (fun s => (decide (s.state 1 = .running), (s.frame 1).isSome, s.head)) =
      some (false, true, none) := by decide
  obtain ⟨s, hrun, heq⟩ := Option.map_eq_some_iff.mp hs
  simp only [Prod.mk.injEq, decide_eq_false_iff_not] at heq
  obtain ⟨h1, h2, h3⟩ := heq
  have hreach : Reaches (intStep 0) Settled (fresh fun _ => .running) s :=
    reaches_of_checked (fun s e h => of_decide_eq_true h) hrun
  refine ⟨s, hreach, ⟨h2, h1⟩, h3, ?_⟩
  rcases (led_of_reaches hreach).1 1 ⟨h2, h1⟩ with hl | hw
  · rw [h3] at hl
    exact absurd hl (not_leads_none _)
  · exact hw

/-- A woken task sleeps again behind a new sleeper, and is lost. -/
theorem interruptible_orphan : ∃ s t : Waiters (Fin 3),
    Reaches (intStep 0) (fun _ _ => True) (fresh fun _ => .running) s ∧ s.head = some 1 ∧
      Reaches (intStep 0) (fun _ _ => True) s.wakeUp t ∧ t.Asleep 1 ∧ t.call 1 = s.call 1 ∧
        ¬t.Led := by
  have hs : (run (intStep 0) [.sleep 1] (fresh fun _ : Fin 3 => .running)).bind (fun s =>
      (run (intStep 0) [.sleep 2, .resume 1, .resume 2] s.wakeUp).map fun t =>
        (s.head, t.head, decide (t.state 1 = .running), (t.frame 1).isSome,
          decide (t.call 1 = s.call 1), decide (∀ w, (t.frame w).isSome → t.state w ≠ .running))) =
      some (some 1, none, false, true, true, true) := by decide
  obtain ⟨s, hrun, ht⟩ := Option.bind_eq_some_iff.mp hs
  obtain ⟨t, hrun', heq⟩ := Option.map_eq_some_iff.mp ht
  simp only [Prod.mk.injEq, decide_eq_false_iff_not, decide_eq_true_iff] at heq
  obtain ⟨h1, h2, h3, h4, h5, h6⟩ := heq
  refine ⟨s, t, reaches_of_run hrun, h1,
    reaches_of_run hrun', ⟨h4, h3⟩, h5, fun hled => ?_⟩
  rcases hled 1 ⟨h4, h3⟩ with hl | ⟨w, hw, -⟩
  · rw [h2] at hl
    exact not_leads_none _ hl
  · exact h6 w hw.1 hw.2

end Linux001.Sched
