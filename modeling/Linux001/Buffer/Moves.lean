import Linux001.Buffer.Process

/-! What one step of a process can do to the cache, as a relation with one rule for each way through
`get_hash_table`, `getblk`, `bread` and `brelse`. -/

namespace Linux001.Buffer

open Function

variable {α : Type} {r : Request}

/-- What can follow once a process that holds `l` has the buffer `bh`. -/
inductive Gets (c : Cache α) (r : Request) (bh : Nat) (l : List Nat) : Cache α → Process → Prop
  | give (hu : r.call = .bread → c.bUptodate bh = true) : Gets c r bh l c ⟨.idle, bh :: l⟩
  | read (hc : r.call = .bread) (hu : c.bUptodate bh = false) (hd : c.bDev bh / 256 = 3)
    (hr : inRange c bh) :
    Gets c r bh l { c with bLock := update c.bLock bh true } ⟨.rwRequest .read bh (.bread r), l⟩
  | unreadable (hc : r.call = .bread) (hu : c.bUptodate bh = false) (hr : ¬inRange c bh) :
    Gets c r bh l c ⟨.release bh, l⟩

inductive Moves (c : Cache α) : Process → Cache α → Process → Prop
  | found {r : Request} {bh : Nat} {l : List Nat} (hf : findBuffer c r.dev r.block = some bh) :
    Moves c ⟨.find r, l⟩ (countUp c bh) ⟨.waitHash r bh, l⟩
  | absent {r : Request} {l : List Nat} : Moves c ⟨.find r, l⟩ c ⟨.idle, l⟩
  | search {r : Request} {l : List Nat} : Moves c ⟨.find r, l⟩ c ⟨.scan r c.queues.freeList, l⟩
  | changed {r : Request} {bh : Nat} {l : List Nat} :
    Moves c ⟨.waitHash r bh, l⟩ c ⟨.releaseHash r bh, l⟩
  | got {r : Request} {bh : Nat} {l : List Nat} {c' : Cache α} {P : Process}
    (hl : c.bLock bh = false) (hd : c.bDev bh = r.dev) (hb : c.bBlocknr bh = r.block)
    (hg : Gets c r bh l c' P) : Moves c ⟨.waitHash r bh, l⟩ c' P
  | again {r : Request} {bh : Nat} {l : List Nat} {c' : Cache α} (hc : countDown c bh = some c') :
    Moves c ⟨.releaseHash r bh, l⟩ c' ⟨.find r, l⟩
  | look {r : Request} {tmp : Nat} {l : List Nat} : Moves c ⟨.scan r tmp, l⟩ c ⟨.waitScan r tmp, l⟩
  | skip {r : Request} {tmp : Nat} {l : List Nat} :
    Moves c ⟨.scan r tmp, l⟩ c ⟨scanNext c r tmp, l⟩
  | lost {r : Request} {tmp : Nat} {l : List Nat} :
    Moves c ⟨.waitScan r tmp, l⟩ c ⟨scanNext c r tmp, l⟩
  | take {r : Request} {tmp : Nat} {l : List Nat} (hl : c.bLock tmp = false)
    (hc : c.bCount tmp = 0) :
    Moves c ⟨.waitScan r tmp, l⟩ (takeBuffer c tmp)
      ⟨if c.bDirt tmp then .sync r tmp (c.bDev tmp) 0 else .assign r tmp, l⟩
  | wake {r : Request} {l : List Nat} : Moves c ⟨.sleep r, l⟩ c ⟨.find r, l⟩
  | other {r : Request} {tmp dev i : Nat} {l : List Nat} (hd : c.bDev i ≠ dev) :
    Moves c ⟨.sync r tmp dev i, l⟩ c ⟨.sync r tmp dev (i + 1), l⟩
  | check {r : Request} {tmp dev i : Nat} {l : List Nat} :
    Moves c ⟨.sync r tmp dev i, l⟩ c ⟨.waitSync r tmp dev i, l⟩
  | synced {r : Request} {tmp dev i : Nat} {l : List Nat} (hi : c.nrBuffers ≤ i) :
    Moves c ⟨.sync r tmp dev i, l⟩ c ⟨.assign r tmp, l⟩
  | clean {r : Request} {tmp dev i : Nat} {l : List Nat} (hl : c.bLock i = false)
    (hd : c.bDirt i = false) :
    Moves c ⟨.waitSync r tmp dev i, l⟩ c ⟨.sync r tmp dev (i + 1), l⟩
  | write {r : Request} {tmp dev i : Nat} {l : List Nat} (hl : c.bLock i = false)
    (hd : c.bDirt i = true) (hr : inRange c i) :
    Moves c ⟨.waitSync r tmp dev i, l⟩ { c with bLock := update c.bLock i true }
      ⟨.rwRequest .write i (.syncDev r tmp dev i), l⟩
  | unwritable {r : Request} {tmp dev i : Nat} {l : List Nat} (hl : c.bLock i = false)
    (hd : c.bDirt i = true) (hr : ¬inRange c i) :
    Moves c ⟨.waitSync r tmp dev i, l⟩ c ⟨.sync r tmp dev (i + 1), l⟩
  | request {rw : Rw} {bh : Nat} {k : Return} {l : List Nat} :
    Moves c ⟨.rwRequest rw bh k, l⟩ { c with pending := update c.pending bh (some rw) }
      ⟨.waitRw bh k, l⟩
  | written {bh : Nat} {r : Request} {tmp dev i : Nat} {l : List Nat} (hl : c.bLock bh = false) :
    Moves c ⟨.waitRw bh (.syncDev r tmp dev i), l⟩ c ⟨.sync r tmp dev (i + 1), l⟩
  | done {bh : Nat} {r : Request} {l : List Nat} (hl : c.bLock bh = false)
    (hu : c.bUptodate bh = true) : Moves c ⟨.waitRw bh (.bread r), l⟩ c ⟨.idle, bh :: l⟩
  | failed {bh : Nat} {r : Request} {l : List Nat} :
    Moves c ⟨.waitRw bh (.bread r), l⟩ c ⟨.release bh, l⟩
  | beaten {r : Request} {tmp : Nat} {l : List Nat} :
    Moves c ⟨.assign r tmp, l⟩ (giveUp (assignBuffer c tmp r.dev r.block) tmp) ⟨.find r, l⟩
  | assigned {r : Request} {tmp : Nat} {l : List Nat} {c' : Cache α} {P : Process}
    (hf : findBuffer (assignBuffer c tmp r.dev r.block) r.dev r.block = none)
    (hg : Gets (insertIntoQueues (assignBuffer c tmp r.dev r.block) tmp) r tmp l c' P) :
    Moves c ⟨.assign r tmp, l⟩ c' P
  | released {bh : Nat} {l : List Nat} {c' : Cache α} (hc : countDown c bh = some c') :
    Moves c ⟨.release bh, l⟩ c' ⟨.idle, l⟩

variable {bh : Nat}

theorem afterRw_bread (s : State α) (p : Nat) (hu : s.cache.bUptodate bh = false) :
    afterRw s p bh (.bread r) = s.goto p s.cache (.release bh) := by
  simp [afterRw, hu]

def MovesTo (s : State α) (p : Nat) (t : State α) : Prop :=
  ∃ c P, Moves s.cache (s.process p) c P ∧
    t = { s with cache := c, process := update s.process p P }

theorem afterGet_gets {s t : State α} {p : Nat} {c : Cache α}
    (h : afterGet { s with cache := c } p r bh = some t) :
    ∃ c' P, Gets c r bh (s.process p).refs c' P ∧
      t = { s with cache := c', process := update s.process p P } := by
  unfold afterGet at h
  split at h
  · rename_i hb
    obtain ⟨hc, hu⟩ := hb
    unfold llRwBlock at h
    split at h
    · cases h
    rename_i hd
    split at h
    · rename_i hr
      exact ⟨_, _, .read hc hu (not_not.mp hd) hr, (Option.some.inj h).symm⟩
    · rename_i hr
      rw [afterRw_bread _ _ hu] at h
      exact ⟨_, _, .unreadable hc hu hr, (Option.some.inj h).symm⟩
  · rename_i hb
    refine ⟨_, _, .give fun hc => ?_, (Option.some.inj h).symm⟩
    simpa [hc] using hb

section Inversion

variable {s t : State α} {p : Nat} {pc pc' : Pc} {l : List Nat} {c : Cache α}

theorem movesTo_goto (hP : s.process p = ⟨pc, l⟩) (hm : Moves s.cache ⟨pc, l⟩ c ⟨pc', l⟩)
    (h : some (s.goto p c pc') = some t) : MovesTo s p t := by
  refine ⟨c, ⟨pc', l⟩, hP ▸ hm, ?_⟩
  rw [← Option.some.inj h, State.goto, hP]

theorem movesTo_release (hP : s.process p = ⟨pc, l⟩)
    (hm : ∀ c', countDown s.cache bh = some c' → Moves s.cache ⟨pc, l⟩ c' ⟨pc', l⟩)
    (h : (countDown s.cache bh).map (fun c => s.goto p c pc') = some t) : MovesTo s p t := by
  obtain ⟨c', hc, ht⟩ := Option.map_eq_some_iff.mp h
  exact movesTo_goto hP (hm c' hc) (by rw [ht])

theorem movesTo_gets (hP : s.process p = ⟨pc, l⟩)
    (hm : ∀ c' P, Gets c r bh l c' P → Moves s.cache ⟨pc, l⟩ c' P)
    (h : afterGet { s with cache := c } p r bh = some t) : MovesTo s p t := by
  obtain ⟨c', P, hg, ht⟩ := afterGet_gets h
  rw [hP] at hg
  exact ⟨c', P, hP ▸ hm c' P hg, ht⟩

theorem stepProcess_moves (h : stepProcess s p = some t) : MovesTo s p t := by
  obtain ⟨pc, l, hP⟩ : ∃ pc l, s.process p = ⟨pc, l⟩ := ⟨_, _, rfl⟩
  unfold stepProcess at h
  rw [hP] at h
  cases pc with
  | idle => cases h
  | find r =>
    dsimp only at h
    split at h
    · rename_i bh hf
      exact movesTo_goto hP (.found hf) h
    · split at h
      · exact movesTo_goto hP .absent h
      · exact movesTo_goto hP .search h
  | waitHash r bh =>
    dsimp only at h
    split at h
    · cases h
    rename_i hl
    split at h
    · exact movesTo_goto hP .changed h
    · rename_i hk
      rw [not_or, not_not, not_not] at hk
      exact movesTo_gets hP (fun c' P hg => .got (by simpa using hl) hk.1 hk.2 hg) h
  | releaseHash r bh =>
    dsimp only at h
    split at h
    · cases h
    · exact movesTo_release hP (fun c' hc => .again hc) h
  | scan r tmp =>
    dsimp only at h
    split at h
    · exact movesTo_goto hP .look h
    · exact movesTo_goto hP .skip h
  | waitScan r tmp =>
    dsimp only at h
    split at h
    · cases h
    rename_i hl
    split at h
    · rename_i hc
      have hm := Moves.take (r := r) (l := l) (by simpa using hl) hc
      split at h
      · rename_i hd
        rw [if_pos hd] at hm
        exact movesTo_goto hP hm h
      · rename_i hd
        rw [if_neg hd] at hm
        exact movesTo_goto hP hm h
    · exact movesTo_goto hP .lost h
  | sleep r => exact movesTo_goto hP .wake h
  | sync r tmp dev i =>
    dsimp only at h
    split at h
    · split at h
      · rename_i hd
        exact movesTo_goto hP (.other hd) h
      · exact movesTo_goto hP .check h
    · rename_i hi
      exact movesTo_goto hP (.synced (by omega)) h
  | waitSync r tmp dev i =>
    dsimp only at h
    split at h
    · cases h
    rename_i hl
    have hl : s.cache.bLock i = false := by simpa using hl
    split at h
    · rename_i hd
      unfold llRwBlock at h
      split at h
      · cases h
      split at h
      · rename_i hr
        exact movesTo_goto hP (.write hl hd hr) h
      · rename_i hr
        exact movesTo_goto hP (.unwritable hl hd hr) h
    · rename_i hd
      exact movesTo_goto hP (.clean hl (by simpa using hd)) h
  | rwRequest rw bh k =>
    dsimp only at h
    split at h
    · exact movesTo_goto hP .request h
    · cases h
  | waitRw bh k =>
    dsimp only at h
    split at h
    · cases h
    rename_i hl
    have hl : s.cache.bLock bh = false := by simpa using hl
    cases k with
    | syncDev r tmp dev i => exact movesTo_goto hP (.written hl) h
    | bread r =>
      unfold afterRw at h
      dsimp only at h
      split at h
      · rename_i hu
        have hm : Moves s.cache ⟨.waitRw bh (.bread r), l⟩ s.cache ⟨.idle, bh :: l⟩ := .done hl hu
        refine ⟨_, _, hP ▸ hm, ?_⟩
        rw [← Option.some.inj h, State.give, hP]
      · exact movesTo_goto hP .failed h
  | assign r tmp =>
    dsimp only [assignStep] at h
    split at h
    · exact movesTo_goto hP .beaten h
    · rename_i hf
      exact movesTo_gets hP (fun c' P hg => .assigned (by simpa using hf) hg) h
  | release bh =>
    dsimp only at h
    split at h
    · cases h
    · exact movesTo_release hP (fun c' hc => .released hc) h

end Inversion

def State.become (s : State α) (p : Nat) (c : Cache α) (P : Process) (cur : Option Nat) : State α :=
  ⟨c, update s.process p P, cur⟩

inductive Steps (s : State α) : Event α → State α → Prop
  | call {p : Nat} {r : Request} {cur : Option Nat} (hp : p < nrTasks)
    (hpc : (s.process p).pc = .idle) (hlen : (s.process p).refs.length < maxRefs) :
    Steps s (.call p r) (s.become p s.cache ⟨.find r, (s.process p).refs⟩ cur)
  | brelse {p bh : Nat} {cur : Option Nat} (hp : p < nrTasks) (hpc : (s.process p).pc = .idle)
    (hmem : bh ∈ (s.process p).refs) :
    Steps s (.brelse p bh) (s.become p s.cache ⟨.release bh, (s.process p).refs.erase bh⟩ cur)
  | change {p bh : Nat} {data : α} {uptodate dirt : Bool} {cur : Option Nat} (hp : p < nrTasks)
    (hmem : bh ∈ (s.process p).refs) :
    Steps s (.change p bh data uptodate dirt)
      { s with
        cache := { s.cache with
          bData := update s.cache.bData bh data
          bUptodate := update s.cache.bUptodate bh uptodate
          bDirt := update s.cache.bDirt bh dirt }
        current := cur }
  | run {p : Nat} {c : Cache α} {P : Process} {cur : Option Nat} (hp : p < nrTasks)
    (hm : Moves s.cache (s.process p) c P) : Steps s (.run p) (s.become p c P cur)
  | leave {p : Nat} : Steps s (.leave p) { s with current := none }
  | intr {bh : Nat} {o : Outcome α} {c : Cache α} (hc : endRequest s.cache bh o = some c) :
    Steps s (.intr bh o) { s with cache := c }

theorem step_steps {s t : State α} {e : Event α} (h : step s e = some t) : Steps s e t := by
  cases e with
  | call p r =>
    obtain ⟨hg, ht⟩ := Option.ite_none_right_eq_some.mp h
    cases ht
    exact .call hg.1.1 hg.2.1 hg.2.2.1
  | brelse p bh =>
    obtain ⟨hg, ht⟩ := Option.ite_none_right_eq_some.mp h
    cases ht
    exact .brelse hg.1.1 hg.2.1 hg.2.2
  | change p bh data uptodate dirt =>
    obtain ⟨hg, ht⟩ := Option.ite_none_right_eq_some.mp h
    cases ht
    exact .change hg.1.1 hg.2.2
  | run p =>
    obtain ⟨hg, ht⟩ := Option.ite_none_right_eq_some.mp h
    obtain ⟨u, hu, rfl⟩ := Option.map_eq_some_iff.mp ht
    obtain ⟨c, P, hm, rfl⟩ := stepProcess_moves hu
    exact .run hg.1 hm
  | leave p =>
    obtain ⟨-, ht⟩ := Option.ite_none_right_eq_some.mp h
    cases ht
    exact .leave
  | intr bh o =>
    obtain ⟨c, hc, rfl⟩ := Option.map_eq_some_iff.mp h
    exact .intr hc

end Linux001.Buffer
