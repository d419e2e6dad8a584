import Linux001.ProofKit.Runs
import Linux001.ProofKit.LinkedList
import Linux001.ProofKit.Update

/-! The wait queue behind `sleep_on` and `wake_up` of `kernel/sched.c`: the head `*p` and the
pointers `tmp` that the sleepers keep on their stacks. Control changes only inside `schedule`. -/

namespace Linux001.Sched

open Function ProofKit

inductive TaskState
  | running
  | interruptible
  | uninterruptible
  | zombie
  | stopped
  deriving DecidableEq

/-- A call of `sleep_on`; its number is for the statements only. -/
structure Frame (τ : Type*) where
  tmp : Option τ
  call : Nat
  target : Nat

/-- One wait queue: the head `*p`, the states, the frames, the number of calls. -/
structure Waiters (τ : Type*) where
  head : Option τ
  state : τ → TaskState
  frame : τ → Option (Frame τ)
  calls : Nat

namespace Waiters

variable {τ : Type*}

def tmp (s : Waiters τ) (a : τ) : Option τ := (s.frame a).bind Frame.tmp

def call (s : Waiters τ) (a : τ) : Option Nat := (s.frame a).map Frame.call

def Asleep (s : Waiters τ) (a : τ) : Prop := (s.frame a).isSome ∧ s.state a ≠ .running

def Woken (s : Waiters τ) (a : τ) : Prop := (s.frame a).isSome ∧ s.state a = .running

section

variable {s : Waiters τ} {a b : τ} {f : Frame τ} {L : Option τ → List τ} {r : Option τ}

theorem tmp_of_frame (h : s.frame a = some f) : s.tmp a = f.tmp := by
  rw [tmp, h, Option.bind_some]

theorem Asleep.not_woken (h : s.Asleep a) : ¬s.Woken a := fun hw => h.2 hw.2

def Root (s : Waiters τ) : Option τ → Prop
  | none => True
  | some w => s.Woken w

def start (s : Waiters τ) : Option τ → Option τ
  | none => s.head
  | some w => s.tmp w

/-- The sleepers form disjoint lists, from the head and from each woken task. -/
structure Chains (s : Waiters τ) (L : Option τ → List τ) : Prop where
  chain : ∀ r, s.Root r → Chain s.tmp (s.start r) (L r)
  asleep : ∀ a, s.Asleep a ↔ ∃ r, s.Root r ∧ a ∈ L r
  nodup : ∀ r, s.Root r → (L r).Nodup
  disjoint : ∀ r r', s.Root r → s.Root r' → r ≠ r' → ∀ a ∈ L r, a ∉ L r'

theorem Chains.asleep_of_mem (h : s.Chains L) (hr : s.Root r)
    (ha : a ∈ L r) : s.Asleep a := (h.asleep a).mpr ⟨r, hr, ha⟩

theorem Chains.not_mem (h : s.Chains L) (hr : s.Root r)
    (ha : ¬s.Asleep a) : a ∉ L r := fun hm => ha (h.asleep_of_mem hr hm)

theorem Chains.asleep_of_tmp (h : s.Chains L)
    (hf : s.frame a = some f) (hb : f.tmp = some b) : s.Asleep b := by
  have htmp : s.tmp a = some b := (tmp_of_frame hf).trans hb
  by_cases ha : s.state a = .running
  · have hroot : s.Root (some a) := ⟨by rw [hf]; rfl, ha⟩
    have hchain : Chain s.tmp (s.tmp a) (L (some a)) := h.chain _ hroot
    rw [htmp] at hchain
    obtain ⟨ys, hys, -⟩ := hchain.some_inv
    exact h.asleep_of_mem hroot (hys ▸ List.mem_cons_self)
  · have hasleep : s.Asleep a := ⟨by rw [hf]; rfl, ha⟩
    obtain ⟨r, hr, hm⟩ := (h.asleep a).mp hasleep
    exact h.asleep_of_mem hr (List.mem_of_mem_tail ((h.chain r hr).next_mem hm htmp))

end

variable [DecidableEq τ]

def enter (s : Waiters τ) (a : τ) (state : TaskState) : Waiters τ where
  head := some a
  state := update s.state a state
  frame := update s.frame a
    (some ⟨s.head, s.calls, (s.head.bind s.call).getD 0⟩)
  calls := s.calls + 1

def wakeTask (s : Waiters τ) (tmp : Option τ) : Waiters τ :=
  match tmp with
  | none => s
  | some t => { s with state := update s.state t .running }

def leave (s : Waiters τ) (a : τ) : Waiters τ := { s with frame := update s.frame a none }

def wakeUp (s : Waiters τ) : Waiters τ := { s.wakeTask s.head with head := none }

/-- `sleep_on` up to `schedule`, `none` where task 0 would sleep. -/
def sleepOn (init : τ) (s : Waiters τ) (a : τ) : Option (Waiters τ) :=
  if a = init ∨ (s.frame a).isSome then none else some (s.enter a .uninterruptible)

def sleepOnReturn (s : Waiters τ) (a : τ) : Option (Waiters τ) :=
  match s.frame a with
  | none => none
  | some f => if s.state a = .running then some ((s.wakeTask f.tmp).leave a) else none

end Waiters

/-- A task calls `sleep_on` or continues, or somebody calls `wake_up`. -/
inductive QueueEvent (τ : Type*)
  | sleep (a : τ)
  | wake
  | resume (a : τ)

variable {τ : Type*} [DecidableEq τ] {o : Option τ} {L : Option τ → List τ} {f : Frame τ} {n : Nat}

def queueStep (init : τ) (s : Waiters τ) : QueueEvent τ → Option (Waiters τ)
  | .sleep a => s.sleepOn init a
  | .wake => some s.wakeUp
  | .resume a => s.sleepOnReturn a

def fresh (state : τ → TaskState) : Waiters τ := ⟨none, state, fun _ => none, 0⟩

namespace Waiters

variable {s t : Waiters τ} {a b h : τ} {state : TaskState}

@[simp] theorem wakeTask_frame : (s.wakeTask o).frame = s.frame := by
  cases o <;> rfl
@[simp] theorem wakeTask_head : (s.wakeTask o).head = s.head := by
  cases o <;> rfl
@[simp] theorem wakeTask_calls : (s.wakeTask o).calls = s.calls := by
  cases o <;> rfl
@[simp] theorem leave_head : (s.leave a).head = s.head := rfl

@[simp] theorem wakeTask_tmp : (s.wakeTask o).tmp = s.tmp := by
  funext b
  rw [tmp, wakeTask_frame, tmp]

theorem enter_tmp : (s.enter a state).tmp = update s.tmp a s.head :=
  comp_update (Option.bind · Frame.tmp) s.frame a _

theorem leave_tmp : (s.leave a).tmp = update s.tmp a none :=
  comp_update (Option.bind · Frame.tmp) s.frame a none

theorem asleep_enter (hstate : state ≠ .running) :
    (s.enter a state).Asleep b ↔ b = a ∨ s.Asleep b := by
  by_cases hb : b = a
  · subst hb
    simp [Asleep, enter, hstate]
  · simp [Asleep, enter, hb]

theorem woken_enter (hstate : state ≠ .running) (ha : s.frame a = none) :
    (s.enter a state).Woken b ↔ s.Woken b := by
  by_cases hb : b = a
  · subst hb
    simp [Woken, enter, hstate, ha]
  · simp [Woken, enter, hb]

theorem asleep_wakeTask : (s.wakeTask (some h)).Asleep b ↔ b ≠ h ∧ s.Asleep b := by
  by_cases hb : b = h
  · subst hb
    simp [Asleep, wakeTask]
  · simp [Asleep, wakeTask, hb]

theorem woken_wakeTask (hh : s.Asleep h) :
    (s.wakeTask (some h)).Woken b ↔ b = h ∨ s.Woken b := by
  by_cases hb : b = h
  · subst hb
    simp [Woken, wakeTask, hh.1]
  · simp [Woken, wakeTask, hb]

theorem asleep_leave : (s.leave a).Asleep b ↔ b ≠ a ∧ s.Asleep b := by
  by_cases hb : b = a
  · subst hb
    simp [Asleep, leave]
  · simp [Asleep, leave, hb]

theorem woken_leave : (s.leave a).Woken b ↔ b ≠ a ∧ s.Woken b := by
  by_cases hb : b = a
  · subst hb
    simp [Woken, leave]
  · simp [Woken, leave, hb]

theorem Chains.enter (h : s.Chains L) (ha : s.frame a = none)
    (hstate : state ≠ .running) : (s.enter a state).Chains (update L none (a :: L none)) := by
  have hout : ¬s.Asleep a := fun hs => by simp [Asleep, ha] at hs
  have hroot : ∀ r, (s.enter a state).Root r ↔ s.Root r := fun r => by
    cases r with
    | none => exact Iff.rfl
    | some w => exact woken_enter hstate ha
  have hnone : s.Root none := trivial
  refine ⟨fun r hr => ?_, fun b => ?_, fun r hr => ?_, fun r r' hr hr' hne b hb => ?_⟩
  · rw [hroot] at hr
    rw [enter_tmp]
    cases r with
    | none =>
      refine .cons ?_
      rw [update_self]
      exact (h.chain none hr).update (h.not_mem hr hout)
    | some w =>
      have hwa : w ≠ a := by
        rintro rfl
        simp [Root, Woken, ha] at hr
      rw [update_of_ne (Option.some_ne_none w), start, enter_tmp, update_of_ne hwa]
      exact (h.chain (some w) hr).update (h.not_mem hr hout)
  · rw [asleep_enter hstate, h.asleep]
    constructor
    · rintro (rfl | ⟨r, hr, hb⟩)
      · exact ⟨none, trivial, by simp⟩
      · refine ⟨r, (hroot r).mpr hr, ?_⟩
        cases r with
        | none => simp [hb]
        | some w => simpa using hb
    · rintro ⟨r, hr, hb⟩
      cases r with
      | none =>
        rw [update_self, List.mem_cons] at hb
        exact hb.imp_right fun hb => ⟨none, trivial, hb⟩
      | some w => exact .inr ⟨some w, (hroot _).mp hr, by simpa using hb⟩
  · rw [hroot] at hr
    cases r with
    | none =>
      exact List.nodup_cons.mpr ⟨h.not_mem hnone hout, h.nodup none hnone⟩
    | some w => simpa using h.nodup _ hr
  · rw [hroot] at hr hr'
    cases r with
    | none =>
      rw [update_of_ne hne.symm]
      rw [update_self, List.mem_cons] at hb
      rcases hb with rfl | hb
      · exact h.not_mem hr' hout
      · exact h.disjoint none r' hr hr' hne b hb
    | some w =>
      cases r' with
      | none =>
        have hba : b ≠ a := fun hba => h.not_mem hr hout (hba ▸ hb)
        rw [update_self, List.mem_cons, not_or]
        exact ⟨hba, h.disjoint _ none hr hr' hne b hb⟩
      | some w' =>
        exact h.disjoint _ _ hr hr' hne b hb

theorem Chains.pop {r : Option τ} {ys : List τ} (h : s.Chains L)
    (hr : s.Root r) (hys : L r = b :: ys) (htmp : ∀ a, s.Asleep a → t.tmp a = s.tmp a)
    (hasleep : ∀ a, t.Asleep a ↔ a ≠ b ∧ s.Asleep a)
    (hroot : ∀ r', t.Root r' ↔ r' = some b ∨ s.Root r' ∧ (r' = r → r' = none))
    (hstart : ∀ r', s.Root r' → r' ≠ r → t.start r' = s.start r')
    (hnone : r = none → t.head = none) :
    t.Chains (update (update L r []) (some b) ys) := by
  have hb : s.Asleep b := h.asleep_of_mem hr (hys ▸ List.mem_cons_self)
  have hbr : ∀ r', s.Root r' → r' ≠ some b := by
    rintro r' hr' rfl
    exact hb.not_woken hr'
  have hmem : ∀ c ∈ ys, c ∈ L r := fun c hc => hys ▸ List.mem_cons_of_mem _ hc
  have hnd := h.nodup r hr
  rw [hys, List.nodup_cons] at hnd
  have hchain := h.chain r hr
  rw [hys] at hchain
  have hcongr : ∀ {o : Option τ} {xs : List τ}, (∀ a ∈ xs, s.Asleep a) → Chain s.tmp o xs →
      Chain t.tmp o xs := fun hxs hc => hc.congr fun a ha => htmp a (hxs a ha)
  -- The list of a root after the step, and the list it comes from.
  have hlist : ∀ r', t.Root r' → ∃ r0, s.Root r0 ∧
      (∀ a ∈ update (update L r []) (some b) ys r', a ∈ L r0 ∧ a ≠ b) ∧
      (r0 = r ∧ (r' = some b ∨ update (update L r []) (some b) ys r' = []) ∨ r0 = r' ∧ r' ≠ r) := by
    intro r' hr'
    rcases (hroot r').mp hr' with rfl | ⟨hr', hrr⟩
    · refine ⟨r, hr, fun a ha => ?_, .inl ⟨rfl, .inl rfl⟩⟩
      rw [update_self] at ha
      exact ⟨hmem a ha, ne_of_mem_of_not_mem ha hnd.1⟩
    by_cases hcase : r' = r
    · subst hcase
      refine ⟨r', hr', fun a ha => ?_, .inl ⟨rfl, .inr ?_⟩⟩
      · rw [update_of_ne (hbr r' hr'), update_self] at ha
        cases ha
      · rw [update_of_ne (hbr r' hr'), update_self]
    · refine ⟨r', hr', fun a ha => ?_, .inr ⟨rfl, hcase⟩⟩
      rw [update_of_ne (hbr r' hr'), update_of_ne hcase] at ha
      refine ⟨ha, fun hab => h.disjoint r' r hr' hr hcase a ha ?_⟩
      rw [hys, hab]
      exact List.mem_cons_self
  refine ⟨fun r' hr' => ?_, fun a => ?_, fun r' hr' => ?_, fun r1 r2 h1 h2 hne a ha ha' => ?_⟩
  · rcases (hroot r').mp hr' with rfl | ⟨hs', hrr⟩
    · have hrest : Chain s.tmp (s.tmp b) ys := by
        rw [← List.nil_append (b :: ys)] at hchain
        exact hchain.of_append
      rw [update_self, start, htmp b hb]
      exact hcongr (fun a ha => h.asleep_of_mem hr (hmem a ha)) hrest
    · rw [update_of_ne (hbr r' hs')]
      by_cases hcase : r' = r
      · obtain rfl : r' = none := hrr hcase
        rw [hcase, update_self, ← hcase, start, hnone hcase.symm]
        exact .nil
      · rw [update_of_ne hcase, hstart r' hs' hcase]
        exact hcongr (fun a ha => h.asleep_of_mem hs' ha) (h.chain r' hs')
  · rw [hasleep, h.asleep]
    constructor
    · rintro ⟨hab, r0, hr0, ha⟩
      by_cases hcase : r0 = r
      · subst hcase
        refine ⟨some b, (hroot _).mpr (.inl rfl), ?_⟩
        rw [update_self]
        rw [hys] at ha
        exact (List.mem_cons.mp ha).resolve_left hab
      · refine ⟨r0, (hroot _).mpr (.inr ⟨hr0, fun hr' => absurd hr' hcase⟩), ?_⟩
        rwa [update_of_ne (hbr r0 hr0), update_of_ne hcase]
    · rintro ⟨r', hr', ha⟩
      obtain ⟨r0, hr0, hsub, -⟩ := hlist r' hr'
      exact ⟨(hsub a ha).2, r0, hr0, (hsub a ha).1⟩
  · rcases (hroot r').mp hr' with rfl | ⟨hs', -⟩
    · rw [update_self]
      exact hnd.2
    · rw [update_of_ne (hbr r' hs')]
      exact update_of (p := fun _ => List.Nodup) List.nodup_nil fun _ => h.nodup r' hs'
  · obtain ⟨q1, hq1, hsub1, hor1⟩ := hlist r1 h1
    obtain ⟨q2, hq2, hsub2, hor2⟩ := hlist r2 h2
    have hq : q1 = q2 := by
      by_contra hcon
      exact h.disjoint q1 q2 hq1 hq2 hcon a (hsub1 a ha).1 (hsub2 a ha').1
    have hempty : ∀ r', update (update L r []) (some b) ys r' = [] →
        a ∉ update (update L r []) (some b) ys r' := fun r' he hm => by
      rw [he] at hm
      cases hm
    rcases hor1 with ⟨e1, rfl | he1⟩ | ⟨e1, hne1⟩
    · rcases hor2 with ⟨e2, rfl | he2⟩ | ⟨e2, hne2⟩
      · exact hne rfl
      · exact hempty _ he2 ha'
      · exact hne2 (e2 ▸ hq ▸ e1)
    · exact hempty _ he1 ha
    · rcases hor2 with ⟨e2, -⟩ | ⟨e2, -⟩
      · exact hne1 (e1 ▸ hq ▸ e2)
      · exact hne (e1 ▸ hq ▸ e2)

theorem Chains.wakeUp (h : s.Chains L) :
    ∃ L', s.wakeUp.Chains L' ∧ L' none = [] := by
  have hnone : s.Root none := trivial
  have hchain : Chain s.tmp s.head (L none) := h.chain none hnone
  cases hhead : s.head with
  | none =>
    have hs : s.wakeUp = s := by
      cases s
      subst hhead
      rfl
    rw [hhead] at hchain
    exact ⟨L, hs ▸ h, hchain.eq_nil⟩
  | some b =>
    rw [hhead] at hchain
    obtain ⟨ys, hys, -⟩ := hchain.some_inv
    have hb : s.Asleep b := h.asleep_of_mem hnone (hys ▸ List.mem_cons_self)
    have heq : s.wakeUp = { s.wakeTask (some b) with head := none } := by rw [Waiters.wakeUp, hhead]
    have htmp : s.wakeUp.tmp = s.tmp := by
      rw [heq]
      exact wakeTask_tmp (o := some b)
    refine ⟨_, h.pop hnone hys (fun a _ => by rw [htmp]) (fun a => ?_) (fun r' => ?_)
      (fun r' hr' hne => ?_) fun _ => rfl, by simp⟩
    · rw [heq]
      exact asleep_wakeTask (s := s)
    · cases r' with
      | none => simp [Root]
      | some w =>
        have hw : s.wakeUp.Woken w ↔ w = b ∨ s.Woken w := by
          rw [heq]
          exact woken_wakeTask hb
        simpa [Root] using hw
    · cases r' with
      | none => exact absurd rfl hne
      | some w => rw [start, htmp, start]

theorem Chains.sleepOnReturn (h : s.Chains L) (ha : s.Woken a) (hf : s.frame a = some f) :
    ∃ L', ((s.wakeTask f.tmp).leave a).Chains L' ∧ L' none = L none := by
  have hnot : ¬s.Asleep a := fun hs => hs.not_woken ha
  have hroot : s.Root (some a) := ha
  have hchain : Chain s.tmp (s.tmp a) (L (some a)) := h.chain _ hroot
  rw [tmp_of_frame hf] at hchain
  cases htmp : f.tmp with
  | none =>
    rw [htmp] at hchain
    have hnil := hchain.eq_nil
    have hr : ∀ r, (s.leave a).Root r ↔ r ≠ some a ∧ s.Root r := fun r => by
      cases r with
      | none => simp [Root]
      | some w => simpa [Root] using woken_leave
    refine ⟨L, ⟨fun r hrr => ?_, fun b => ?_, fun r hrr => ?_, fun r r' hrr hrr' => ?_⟩, rfl⟩
    · obtain ⟨hra, hrs⟩ := (hr r).mp hrr
      have hstart : (s.leave a).start r = s.start r := by
        cases r with
        | none => rfl
        | some w =>
          have hwa : w ≠ a := fun hwa => hra (by rw [hwa])
          rw [start, leave_tmp, update_of_ne hwa, start]
      change Chain (s.leave a).tmp ((s.leave a).start r) (L r)
      rw [hstart, leave_tmp]
      exact (h.chain r hrs).update (h.not_mem hrs hnot)
    · change (s.leave a).Asleep b ↔ ∃ r, (s.leave a).Root r ∧ b ∈ L r
      rw [asleep_leave, h.asleep]
      constructor
      · rintro ⟨-, r, hrs, hb⟩
        refine ⟨r, (hr r).mpr ⟨?_, hrs⟩, hb⟩
        rintro rfl
        rw [hnil] at hb
        cases hb
      · rintro ⟨r, hrr, hb⟩
        obtain ⟨-, hrs⟩ := (hr r).mp hrr
        exact ⟨fun hba => h.not_mem hrs hnot (hba ▸ hb), r, hrs, hb⟩
    · exact h.nodup r ((hr r).mp hrr).2
    · exact h.disjoint r r' ((hr r).mp hrr).2 ((hr r').mp hrr').2
  | some b =>
    rw [htmp] at hchain
    obtain ⟨ys, hys, -⟩ := hchain.some_inv
    have hb : s.Asleep b := h.asleep_of_mem hroot (hys ▸ List.mem_cons_self)
    have hba : b ≠ a := fun hba => hnot (hba ▸ hb)
    have htmp' : ((s.wakeTask (some b)).leave a).tmp = update s.tmp a none := by
      rw [leave_tmp, wakeTask_tmp]
    refine ⟨_, h.pop hroot hys (fun c hc => ?_) (fun c => ?_) (fun r' => ?_)
      (fun r' hr' hne => ?_) (fun hcon => by cases hcon), by simp⟩
    · have hca : c ≠ a := fun hca => hnot (hca ▸ hc)
      rw [htmp', update_of_ne hca]
    · rw [asleep_leave, asleep_wakeTask]
      exact and_iff_right_of_imp fun hc hca => hnot (hca ▸ hc.2)
    · cases r' with
      | none => simp [Root]
      | some w =>
        have hw : ((s.wakeTask (some b)).leave a).Woken w ↔ w ≠ a ∧ (w = b ∨ s.Woken w) := by
          rw [woken_leave, woken_wakeTask hb]
        simp only [Root, hw, Option.some.injEq, reduceCtorEq, imp_false]
        constructor
        · rintro ⟨hwa, hw | hw⟩
          · exact .inl hw
          · exact .inr ⟨hw, hwa⟩
        · rintro (rfl | ⟨hw, hwa⟩)
          · exact ⟨hba, .inl rfl⟩
          · exact ⟨hwa, .inr hw⟩
    · cases r' with
      | none => exact wakeTask_head
      | some w =>
        have hwa : w ≠ a := fun hwa => hne (by rw [hwa])
        rw [start, htmp', update_of_ne hwa, start]

/-- Numbers are below the counter, and saved pointers have theirs. -/
structure Numbered (s : Waiters τ) : Prop where
  lt : ∀ a c, s.call a = some c → c < s.calls
  target : ∀ a f b, s.frame a = some f → f.tmp = some b → s.call b = some f.target

theorem enter_call : (s.enter a state).call = update s.call a (some s.calls) :=
  comp_update (Option.map Frame.call) s.frame a _

theorem leave_call : (s.leave a).call = update s.call a none :=
  comp_update (Option.map Frame.call) s.frame a none

def Counted (s : Waiters τ) : Prop := ∀ a n, s.call a = some n → n < s.calls

theorem Counted.enter (hc : s.Counted) : (s.enter a state).Counted := by
  intro b n hn
  change n < s.calls + 1
  rw [enter_call] at hn
  by_cases hba : b = a
  · rw [hba, update_self, Option.some.injEq] at hn
    omega
  · rw [update_of_ne hba] at hn
    exact Nat.lt_succ_of_lt (hc b n hn)

theorem Counted.wakeTask (hc : s.Counted) : (s.wakeTask o).Counted := by
  intro a n hn
  rw [call, wakeTask_frame] at hn
  rw [wakeTask_calls]
  exact hc a n hn

theorem Counted.leave (hc : s.Counted) : (s.leave a).Counted := by
  intro b n hn
  rw [leave_call] at hn
  exact hc b n (of_update hn nofun).2

theorem Numbered.enter (h : s.Chains L) (hn : s.Numbered)
    (ha : s.frame a = none) : (s.enter a state).Numbered := by
  have hout : ¬s.Asleep a := fun hs => by simp [Asleep, ha] at hs
  refine ⟨Counted.enter hn.lt, fun b f t hf ht => ?_⟩
  have hta : s.Asleep t → t ≠ a := fun hs hta => hout (hta ▸ hs)
  rw [enter_call]
  by_cases hb : b = a
  · subst hb
    obtain rfl : Frame.mk s.head s.calls ((s.head.bind s.call).getD 0) = f := by
      simpa [Waiters.enter] using hf
    have hhead : s.head = some t := ht
    have hroot : s.Root none := trivial
    have hchain : Chain s.tmp s.head (L none) := h.chain none hroot
    rw [hhead] at hchain
    obtain ⟨ys, hys, -⟩ := hchain.some_inv
    have hs : s.Asleep t := h.asleep_of_mem hroot (hys ▸ List.mem_cons_self)
    obtain ⟨g, hg⟩ := Option.isSome_iff_exists.mp hs.1
    rw [update_of_ne (hta hs), hhead, Option.bind_some, call, hg]
    rfl
  · have hf' : s.frame b = some f := by simpa [Waiters.enter, hb] using hf
    rw [update_of_ne (hta (h.asleep_of_tmp hf' ht))]
    exact hn.target b f t hf' ht

theorem Numbered.wakeTask (hn : s.Numbered) : (s.wakeTask o).Numbered := by
  cases o with
  | none => exact hn
  | some b => exact ⟨hn.lt, hn.target⟩

theorem Numbered.leave (h : s.Chains L) (hn : s.Numbered) (ha : ¬s.Asleep a) :
    (s.leave a).Numbered := by
  refine ⟨Counted.leave hn.lt, fun b f t hf ht => ?_⟩
  have hb : b ≠ a := by
    rintro rfl
    simp [Waiters.leave] at hf
  have hf' : s.frame b = some f := by simpa [Waiters.leave, hb] using hf
  have hta : t ≠ a := fun hta => ha (hta ▸ h.asleep_of_tmp hf' ht)
  rw [leave_call, update_of_ne hta]
  exact hn.target b f t hf' ht

/-- The invariant; calls before `n` are not in the list from the head. -/
def Holds (n : Nat) (s : Waiters τ) : Prop :=
  ∃ L, s.Chains L ∧ s.Numbered ∧ n ≤ s.calls ∧ ∀ a ∈ L none, ∃ c, s.call a = some c ∧ n ≤ c

theorem Holds.wakeUp {m : Nat} (h : s.Holds n) (hm : m ≤ s.calls) : s.wakeUp.Holds m := by
  obtain ⟨L, hL, hn, -, -⟩ := h
  obtain ⟨L', hL', hnil⟩ := hL.wakeUp
  have hnum : (s.wakeTask s.head).Numbered := hn.wakeTask
  have hcalls : (s.wakeTask s.head).calls = s.calls := wakeTask_calls
  refine ⟨L', hL', ⟨hnum.lt, hnum.target⟩, Nat.le_trans hm (Nat.le_of_eq hcalls.symm), fun a ha =>
    ?_⟩
  rw [hnil] at ha
  cases ha

theorem leave_wakeTask : (s.wakeTask o).leave a = (s.leave a).wakeTask o := by
  cases o <;> rfl

theorem Holds.sleepOnReturn (h : s.Holds n) (ha : s.Woken a)
    (hf : s.frame a = some f) : ((s.wakeTask f.tmp).leave a).Holds n := by
  obtain ⟨L, hL, hn, hle, hage⟩ := h
  have hnot : ¬s.Asleep a := fun hs => hs.not_woken ha
  obtain ⟨L', hL', hnone⟩ := hL.sleepOnReturn ha hf
  have hcall : ((s.wakeTask f.tmp).leave a).call = update s.call a none := by
    rw [leave_call]
    congr 1
    funext b
    rw [call, wakeTask_frame, call]
  refine ⟨L', hL', ?_, ?_, fun b hb => ?_⟩
  · rw [leave_wakeTask]
    exact (hn.leave hL hnot).wakeTask
  · exact Nat.le_trans hle (Nat.le_of_eq (wakeTask_calls (s := s)).symm)
  · rw [hnone] at hb
    have hba : b ≠ a := fun hba => hL.not_mem (r := none) trivial hnot (hba ▸ hb)
    rw [hcall, update_of_ne hba]
    exact hage b hb

end Waiters

open Waiters

theorem queueStep_holds {init : τ} {s t : Waiters τ} {e : QueueEvent τ} (h : s.Holds n)
    (hstep : queueStep init s e = some t) : t.Holds n := by
  cases e with
  | sleep a =>
    obtain ⟨hguard, heq⟩ := Option.ite_none_left_eq_some.mp hstep
    cases heq
    have ha : s.frame a = none := by
      rw [not_or, Option.not_isSome_iff_eq_none] at hguard
      exact hguard.2
    obtain ⟨L, hL, hn, hle, hage⟩ := h
    refine ⟨_, hL.enter ha (by decide), hn.enter hL ha, Nat.le_succ_of_le hle, fun b hb => ?_⟩
    rw [update_self, List.mem_cons] at hb
    rw [enter_call]
    rcases hb with rfl | hb
    · exact ⟨s.calls, update_self _ _ _, hle⟩
    · have hba : b ≠ a := by
        rintro rfl
        have := hL.asleep_of_mem (r := none) trivial hb
        simp [Asleep, ha] at this
      rw [update_of_ne hba]
      exact hage b hb
  | wake =>
    cases hstep
    obtain ⟨L, hL, hn, hle, hage⟩ := h
    exact Holds.wakeUp ⟨L, hL, hn, hle, hage⟩ hle
  | resume a =>
    change s.sleepOnReturn a = some t at hstep
    unfold sleepOnReturn at hstep
    split at hstep
    · cases hstep
    · rename_i f hf
      obtain ⟨hrun, heq⟩ := Option.ite_none_right_eq_some.mp hstep
      cases heq
      exact h.sleepOnReturn ⟨by rw [hf]; rfl, hrun⟩ hf

omit [DecidableEq τ] in
theorem holds_fresh (state : τ → TaskState) : (fresh state).Holds 0 := by
  have hframe : ∀ a, (fresh state).frame a = none := fun _ => rfl
  refine ⟨fun _ => [], ⟨fun r hr => ?_, fun a => ?_, fun _ _ => List.nodup_nil,
    fun _ _ _ _ _ _ h => by cases h⟩, ⟨fun a c hc => ?_, fun a f b hf => ?_⟩, Nat.zero_le _,
    fun a ha => by cases ha⟩
  · cases r with
    | none => exact .nil
    | some w => simp [Root, Woken, hframe] at hr
  · simp [Asleep, hframe]
  · simp [call, hframe] at hc
  · cases hf

/-- In every reachable state the saved pointers lead to each sleeper once, from the head or from a
woken task, and those that a woken task will wake still sleep in that call; when all have continued,
no call from before the `wake_up` sleeps. -/
theorem sleepers_of_reaches {init : τ} {state : τ → TaskState} {s : Waiters τ}
    (hr : Reaches (queueStep init) (fun _ _ => True) (fresh state) s) :
    (∃ L, s.Chains L) ∧
      (∀ a, s.Asleep a → Leads s.tmp s.head a ∨ ∃ w, s.Woken w ∧ Leads s.tmp (s.tmp w) a) ∧
      (∀ a f b, s.Woken a → s.frame a = some f → f.tmp = some b →
        s.Asleep b ∧ s.call b = some f.target) ∧
      ∀ t, Reaches (queueStep init) (fun _ _ => True) s.wakeUp t → (∀ w, ¬t.Woken w) →
        ∀ a, s.Asleep a → ¬(t.Asleep a ∧ t.call a = s.call a) := by
  have hs : s.Holds 0 :=
    Reaches.invariant (P := Holds 0) (fun _ _ _ h _ hstep => queueStep_holds h hstep) hr
      (holds_fresh state)
  obtain ⟨L, hL, hn, -, -⟩ := id hs
  refine ⟨⟨L, hL⟩, fun a ha => ?_, fun a f b _ hf hb =>
    ⟨hL.asleep_of_tmp hf hb, hn.target a f b hf hb⟩,
    fun t ht hw a ha ⟨hta, hcall⟩ => ?_⟩
  · obtain ⟨r, hroot, hm⟩ := (hL.asleep a).mp ha
    cases r with
    | none => exact .inl ((hL.chain none hroot).leads hm)
    | some w => exact .inr ⟨w, hroot, (hL.chain _ hroot).leads hm⟩
  have hinv : t.Holds s.calls :=
    Reaches.invariant (P := Holds s.calls) (fun _ _ _ h _ hstep => queueStep_holds h hstep) ht
      (hs.wakeUp (Nat.le_refl _))
  obtain ⟨L', hL', -, -, hage⟩ := hinv
  obtain ⟨r, hroot, hm⟩ := (hL'.asleep a).mp hta
  cases r with
  | none =>
    obtain ⟨c, hc, hle⟩ := hage a hm
    have hlt := hn.lt a c (hcall ▸ hc)
    omega
  | some w => exact hw w hroot

/-- Two sleepers, a `wake_up`, and a new sleeper before the woken tasks continue. -/
theorem sleepers_of_reaches_late : ∃ s : Waiters Nat,
    Reaches (queueStep 0) (fun _ _ => True) (fresh fun _ => .running) s ∧ s.Asleep 3 ∧ s.Woken 1 ∧
      (Leads s.tmp s.head 3 ∨ ∃ w, s.Woken w ∧ Leads s.tmp (s.tmp w) 3) := by
  have hrun : (run (queueStep 0) [.sleep 1, .sleep 2, .wake, .sleep 3, .resume 2]
      (fresh fun _ => .running)).map (fun s => (decide (s.state 3 = .running),
        (s.frame 3).isSome, decide (s.state 1 = .running), (s.frame 1).isSome)) =
      some (false, true, true, true) := by decide
  obtain ⟨s, hs, heq⟩ := Option.map_eq_some_iff.mp hrun
  simp only [Prod.mk.injEq, decide_eq_false_iff_not, decide_eq_true_iff] at heq
  obtain ⟨h1, h2, h3, h4⟩ := heq
  have hreach : Reaches (queueStep 0) (fun _ _ => True) (fresh fun _ => .running) s :=
    reaches_of_run hs
  exact ⟨s, hreach, ⟨h2, h1⟩, ⟨h4, h3⟩, (sleepers_of_reaches hreach).2.1 3 ⟨h2, h1⟩⟩

end Linux001.Sched
