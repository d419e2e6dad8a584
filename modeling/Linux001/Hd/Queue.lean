import Linux001.Hd.Transfer
import Linux001.ProofKit.LinkedList
import Linux001.ProofKit.Runs

/-! `rw_abs_hd` and `add_request` as sequences of statements between which interrupts may run, and
the queue of requests that they keep. -/

namespace Linux001.Hd

open Function ProofKit

def inOrder (s1 s2 : Request) : Bool :=
  s1.hd < s2.hd || (s1.hd == s2.hd &&
    (s1.cyl < s2.cyl || (s1.cyl == s2.cyl &&
      (s1.head < s2.head || (s1.head == s2.head && s1.sector < s2.sector)))))

/-- The next statement of `add_request`, with its argument and `tmp`. -/
inductive Pc
  | idle
  | check (req : Nat)
  | setSorting (req : Nat)
  | readThis (req : Nat)
  | setThis (req : Nat)
  | testNext (req tmp : Nat)
  | linkNext (req tmp : Nat)
  | advance (req tmp : Nat)
  | loopTest (req tmp : Nat)
  | testOrder (req tmp : Nat)
  | loopNext (req tmp : Nat)
  | setReqNext (req tmp : Nat)
  | linkTmp (req tmp : Nat)
  | clearSorting
  | testDoHd
  | restart

structure Sys where
  drv : Driver
  pc : Pc

/-- A call of `rw_abs_hd`, a statement of `add_request`, or an interrupt. -/
inductive Label
  | call (cmd : Cmd) (nr sec head cyl bh : Nat)
  | exec (drq : Bool)
  | intr (i : Intr)

def freeRequest (d : Driver) : Option Nat :=
  (List.range nrRequest).find? fun r => (d.request r).hd < 0

/-- `rw_abs_hd` up to its call of `add_request`.  Without a free entry it sleeps. -/
def rwAbsHd (s : Sys) (cmd : Cmd) (nr sec head cyl bh : Nat) : Option Sys :=
  (freeRequest s.drv).map fun r =>
    let d := s.drv.setBuffer bh { s.drv.buffer bh with bLock := true }
    ⟨d.setRequest r ⟨nr, 2, sec, head, cyl, cmd, 0, bh, none⟩, .check r⟩

def setNext (d : Driver) (tmp : Nat) (o : Option Nat) : Driver :=
  d.setRequest tmp { d.request tmp with next := o }

/-- One statement of `add_request`, `none` for a panic or a NULL `tmp`. -/
def exec (s : Sys) (drq : Bool) : Option Sys :=
  let d := s.drv
  match s.pc with
  | .idle => none
  | .check req => if (d.request req).nsector ≠ 2 then none else some ⟨d, .setSorting req⟩
  | .setSorting req => some ⟨{ d with sorting := true }, .readThis req⟩
  | .readThis req =>
    match d.thisRequest with
    | none => some ⟨d, .setThis req⟩
    | some tmp => some ⟨d, .testNext req tmp⟩
  | .setThis req => some ⟨{ d with thisRequest := some req }, .clearSorting⟩
  | .testNext req tmp =>
    match (d.request tmp).next with
    | none => some ⟨d, .linkNext req tmp⟩
    | some _ => some ⟨d, .advance req tmp⟩
  | .linkNext req tmp => some ⟨setNext d tmp (some req), .clearSorting⟩
  | .advance req tmp => (d.request tmp).next.map fun n => ⟨d, .loopTest req n⟩
  | .loopTest req tmp =>
    match (d.request tmp).next with
    | none => some ⟨d, .setReqNext req tmp⟩
    | some _ => some ⟨d, .testOrder req tmp⟩
  | .testOrder req tmp =>
    (d.request tmp).next.map fun n =>
      if (inOrder (d.request tmp) (d.request req) || !inOrder (d.request tmp) (d.request n)) &&
          inOrder (d.request req) (d.request n) then ⟨d, .setReqNext req tmp⟩
      else ⟨d, .loopNext req tmp⟩
  | .loopNext req tmp => (d.request tmp).next.map fun n => ⟨d, .loopTest req n⟩
  | .setReqNext req tmp => some ⟨setNext d req (d.request tmp).next, .linkTmp req tmp⟩
  | .linkTmp req tmp => some ⟨setNext d tmp (some req), .clearSorting⟩
  | .clearSorting => some ⟨{ d with sorting := false }, .testDoHd⟩
  | .testDoHd =>
    match d.doHd with
    | none => some ⟨d, .restart⟩
    | some _ => some ⟨d, .idle⟩
  | .restart => (doRequest d drq).map fun d => ⟨d, .idle⟩

def step (s : Sys) : Label → Option Sys
  | .call cmd nr sec head cyl bh =>
    match s.pc with
    | .idle => rwAbsHd s cmd nr sec head cyl bh
    | _ => none
  | .exec drq => exec s drq
  | .intr i => (hdInterrupt s.drv i).map fun d => ⟨d, s.pc⟩

structure Initial (s : Sys) : Prop where
  free : ∀ r, (s.drv.request r).hd = -1 ∧ (s.drv.request r).next = none
  this : s.drv.thisRequest = none
  sorting : s.drv.sorting = false
  doHd : s.drv.doHd = none
  ctl : s.drv.ctl = none
  pc : s.pc = .idle

def nextOf (d : Driver) (r : Nat) : Option Nat := (d.request r).next

/-- A command for `r` is in the controller, or the reset before it. -/
def Commanded (d : Driver) (r : Nat) : Prop :=
  Resetting d ∨ ∃ lba latch, Issued (d.request r) lba (d.request r).nsector.toNat latch d

structure InService (d : Driver) : Prop where
  linked : ∀ r, 0 ≤ (d.request r).hd → Leads (nextOf d) d.thisRequest r
  command : ∀ r, d.thisRequest = some r → Commanded d r

/-- While `sorting` is set: no `do_request`, and the request to be extended does not end. -/
def Quiet (s : Sys) : Label → Prop
  | .intr i =>
    s.drv.sorting = true →
      match i.status with
      | .ready => False
      | .ok => ∀ r, s.drv.thisRequest = some r → (s.drv.request r).nsector ≠ 1
      | .error _ => ∀ r, s.drv.thisRequest = some r →
        (s.drv.request r).errors < maxErrors ∨ (s.drv.request r).next ≠ none ∨
          ∃ req, s.pc = .readThis req
  | _ => True

/-! ### What an interrupt does to the queue -/

/-- `do_hd` and the controller agree: nothing, a reset, or a transfer. -/
def CtlOk (d : Driver) : Prop :=
  (d.ctl = none ∧ d.doHd = none) ∨ Resetting d ∨
    ∃ r lba latch, d.thisRequest = some r ∧
      Issued (d.request r) lba (d.request r).nsector.toNat latch d

structure Queue (d : Driver) (queue : List Nat) : Prop where
  chain : Chain (nextOf d) d.thisRequest queue
  nodup : queue.Nodup
  sect : ∀ r ∈ queue, (d.request r).nsector = 1 ∨ (d.request r).nsector = 2
  ctl : CtlOk d

theorem Queue.rest {d : Driver} {r : Nat} {rest : List Nat} (hq : Queue d (r :: rest)) :
    Chain (nextOf d) (nextOf d r) rest := by
  obtain ⟨ys, hys, hrest⟩ := (hq.chain.head?_eq ▸ hq.chain).some_inv
  exact (List.cons.inj hys).2 ▸ hrest

/-- `d'` has the links and `sorting` of `d`, and the requests outside `queue`. -/
structure SameLinks (d d' : Driver) (queue : List Nat) : Prop where
  next : ∀ r, (d'.request r).next = (d.request r).next
  sorting : d'.sorting = d.sorting
  other : ∀ r, r ∉ queue → d'.request r = d.request r

section Effect

variable {d d' : Driver} {queue : List Nat} {latch : Sector} {drq : Bool} {r : Nat} {i : Intr}
  {rest : List Nat} {d1 : Driver} {lba : Nat} {left : Nat}

structure Stays (d d' : Driver) (queue : List Nat) : Prop where
  isQueue : Queue d' queue
  hd : ∀ r, (d'.request r).hd = (d.request r).hd
  this : d'.thisRequest = d.thisRequest
  served : queue ≠ [] → d'.ctl ≠ none

structure Pops (d d' : Driver) (r : Nat) (rest : List Nat) : Prop where
  isQueue : Queue d' rest
  hd : ∀ i, (d'.request i).hd = if i = r then -1 else (d.request i).hd
  served : rest ≠ [] → d'.ctl ≠ none
  reset : d.sorting = true → Resetting d'

theorem Resetting.ctl_ne (h : Resetting d) : d.ctl ≠ none := by
  obtain ⟨c, hc, -⟩ := h
  simp [hc]

theorem Issued.ctl_ne {q : Request} (h : Issued q lba left latch d) :
    d.ctl ≠ none := by
  obtain ⟨c, hc, -⟩ := h
  simp [hc]

theorem nextOf_congr (h : ∀ r, (d'.request r).next = (d.request r).next) : nextOf d' = nextOf d :=
  funext h

theorem doRequest_queue (h : doRequest d drq = some d') (hs : d.sorting = false)
    (hctl : d.ctl = none) (hchain : Chain (nextOf d) d.thisRequest queue) (hnd : queue.Nodup)
    (hsect : ∀ r ∈ queue, (d.request r).nsector = 1 ∨ (d.request r).nsector = 2) :
    Queue d' queue ∧ (queue ≠ [] → d'.ctl ≠ none) := by
  have hsame := doRequest_sameBut h
  have hctl' : CtlOk d' ∧ (queue ≠ [] → d'.ctl ≠ none) := by
    cases hthis : d.thisRequest with
    | none =>
      rw [hthis] at hchain
      simp only [doRequest, hs, hthis, Bool.false_eq_true, if_false, Option.some.injEq] at h
      subst h
      exact ⟨.inl ⟨hctl, rfl⟩, fun hne => absurd hchain.eq_nil hne⟩
    | some r =>
      obtain ⟨-, hreset | his⟩ := issue_spec (issue_of_doRequest h hs hthis)
      · exact ⟨.inr (.inl hreset), fun _ => hreset.ctl_ne⟩
      · have his' := his
        rw [← hsame.request] at his'
        exact ⟨.inr (.inr ⟨r, _, _, hsame.this.trans hthis, his'⟩), fun _ => his.ctl_ne⟩
  refine ⟨⟨?_, hnd, ?_, hctl'.1⟩, hctl'.2⟩
  · rw [show nextOf d' = nextOf d from nextOf_congr fun r => by rw [hsame.request], hsame.this]
    exact hchain
  · rw [hsame.request]
    exact hsect

theorem badRwIntr_queue (hb : badRwIntr d r = some d') :
    Resetting d' ∧ SameLinks d d' [r] ∧
      (d'.request r).nsector = (d.request r).nsector ∧
      ((d'.thisRequest = d.thisRequest ∧ (d'.request r).hd = (d.request r).hd) ∨
        (maxErrors ≤ (d.request r).errors ∧ d'.thisRequest = (d.request r).next ∧
          (d'.request r).hd = -1)) := by
  unfold badRwIntr at hb
  simp only at hb
  split at hb
  · rename_i hmax
    obtain ⟨hsame, hreset⟩ := resetHd_spec hb
    have hreq := hsame.request
    simp only [Driver.setRequest_request, Driver.setBuffer_request, update_self, update_idem]
      at hreq
    refine ⟨hreset, ⟨fun i => ?_, hsame.sorting, fun i hi => ?_⟩, ?_, .inr ⟨hmax, hsame.this, ?_⟩⟩
    · rw [hreq]
      by_cases hir : i = r <;> simp [hir]
    · rw [hreq, update_of_ne (by simpa using hi)]
    · simp [hreq]
    · simp [hreq]
  · obtain ⟨hsame, hreset⟩ := resetHd_spec hb
    have hreq := hsame.request
    simp only [Driver.setRequest_request] at hreq
    refine ⟨hreset, ⟨fun i => ?_, hsame.sorting, fun i hi => ?_⟩, ?_, .inl ⟨hsame.this, ?_⟩⟩
    · rw [hreq]
      by_cases hir : i = r <;> simp [hir]
    · rw [hreq, update_of_ne (by simpa using hi)]
    · simp [hreq]
    · simp [hreq]

structure Counts (d d' : Driver) (r : Nat) : Prop where
  request : ∃ e, d'.request =
    update d.request r { d.request r with nsector := (d.request r).nsector - 1, errors := e }
  this : d'.thisRequest = d.thisRequest
  sorting : d'.sorting = d.sorting
  doHd : d'.doHd = d.doHd

/-- A successful sector is counted, and the last one ends the request. -/
def CountsOrEnds (d d' : Driver) (r : Nat) (drq : Bool) : Prop :=
  ((d.request r).nsector ≠ 1 ∧ Counts d d' r ∧
      ∃ latch : Sector → Sector, d'.ctl = d.ctl.map fun c => { c with latch := latch c.latch }) ∨
    ((d.request r).nsector = 1 ∧
      ∃ d₂, endRequest d₂ r drq = some d' ∧ Counts d d₂ r ∧ d₂.ctl = d.ctl)

theorem readIntr_counts {port : Sector}
    (h : readIntr d r port drq = some d') : CountsOrEnds d d' r drq := by
  unfold readIntr at h
  simp only at h
  split at h
  · cases h
    exact Or.inl ⟨by omega, ⟨⟨0, rfl⟩, rfl, rfl, rfl⟩, id, by simp⟩
  · exact Or.inr ⟨by omega, _, h, ⟨⟨0, rfl⟩, rfl, rfl, rfl⟩, rfl⟩

theorem writeIntr_counts (h : writeIntr d r drq = some d') :
    CountsOrEnds d d' r drq := by
  unfold writeIntr at h
  simp only at h
  split at h
  · cases h
    exact Or.inl ⟨by omega, ⟨⟨_, rfl⟩, rfl, rfl, rfl⟩, fun _ => _, rfl⟩
  · exact Or.inr ⟨by omega, _, h, ⟨⟨_, rfl⟩, rfl, rfl, rfl⟩, rfl⟩

/-- An interrupt reaches `bad_rw_intr`, or counts a sector or ends. -/
theorem issued_interrupt (hthis : d.thisRequest = some r)
    (his : Issued (d.request r) lba left latch d) (hi : hdInterrupt d i = some d') :
    ∃ d1, d1.request = d.request ∧ d1.thisRequest = some r ∧ d1.sorting = d.sorting ∧
      d1.doHd = d.doHd ∧
      ((∃ junk, i.status = .error junk ∧ badRwIntr d1 r = some d') ∨
        (i.status = .ok ∧ CountsOrEnds d1 d' r i.drq ∧ ∃ c, d.ctl = some c ∧
          d1.ctl = c.advance)) := by
  obtain ⟨c, hc, hop, -, -, -, -, hdo⟩ := his
  simp only [hdInterrupt, hc, Option.bind_some, hdo] at hi
  obtain ⟨⟨ctl, disk⟩, hraise, hcall⟩ := Option.bind_eq_some_iff.mp hi
  refine ⟨{ d with ctl := ctl, disk := disk }, rfl, hthis, rfl, rfl, ?_⟩
  cases hst : i.status with
  | ready =>
    cases hcmd : (d.request r).cmd <;> simp [Command.raise, hop, hcmd, Cmd.op, hst] at hraise
  | error junk =>
    refine .inl ⟨junk, rfl, ?_⟩
    cases hcmd : (d.request r).cmd <;>
      simpa [hdo, hcmd, Cmd.handler, callHandler, hthis, hst] using hcall
  | ok =>
    refine .inr ⟨rfl, ?_, c, hc, ?_⟩
    · cases hcmd : (d.request r).cmd <;>
        simp only [hcmd, Cmd.handler, callHandler, hthis, Option.bind_some, hst] at hcall
      · exact readIntr_counts (by simpa [hdo, hcmd, Cmd.handler, hthis] using hcall)
      · exact writeIntr_counts (by simpa [hdo, hcmd, Cmd.handler, hthis] using hcall)
    · cases hcmd : (d.request r).cmd <;>
        simp only [Command.raise, hop, hcmd, Cmd.op, hst, Option.some.injEq, Prod.mk.injEq]
          at hraise <;>
        exact hraise.1.symm

theorem endRequest_queue (h : endRequest d r drq = some d') (hs : d.sorting = false)
    (hctl : d.ctl = none) (hchain : Chain (nextOf d) (nextOf d r) rest) (hnd : (r :: rest).Nodup)
    (hsect : ∀ i ∈ rest, (d.request i).nsector = 1 ∨ (d.request i).nsector = 2) :
    Queue d' rest ∧ (rest ≠ [] → d'.ctl ≠ none) ∧
      d'.request = update d.request r { d.request r with hd := -1 } ∧ d'.sorting = d.sorting := by
  have hsame := doRequest_sameBut h
  have hnext : ∀ i, (update d.request r { d.request r with hd := -1 } i).next =
      (d.request i).next := by
    intro i
    by_cases hir : i = r <;> simp [hir]
  obtain ⟨hq, hserved⟩ := doRequest_queue h hs hctl
    (hchain.congr fun i _ => hnext i) hnd.of_cons fun i hi => by
      have hir : i ≠ r := ne_of_mem_of_not_mem hi (List.nodup_cons.mp hnd).1
      simpa [hir] using hsect i hi
  exact ⟨hq, hserved, hsame.request, hsame.sorting⟩

theorem error_effect (hq : Queue d (r :: rest))
    (hreq : d1.request = d.request) (hthis : d1.thisRequest = d.thisRequest)
    (hsort : d1.sorting = d.sorting) (hb : badRwIntr d1 r = some d') :
    SameLinks d d' (r :: rest) ∧ (Stays d d' (r :: rest) ∨
      (Pops d d' r rest ∧ maxErrors ≤ (d.request r).errors)) := by
  obtain ⟨hreset, hlinks, hnsect, hcase⟩ := badRwIntr_queue hb
  rw [hreq] at hnsect hcase
  have hnext : ∀ i, (d'.request i).next = (d.request i).next := by
    intro i
    rw [hlinks.next, hreq]
  have hother : ∀ i, i ≠ r → d'.request i = d.request i := by
    intro i hir
    rw [hlinks.other i (by simpa using hir), hreq]
  have hsect : ∀ i ∈ r :: rest, (d'.request i).nsector = 1 ∨ (d'.request i).nsector = 2 := by
    intro i hmem
    by_cases hir : i = r
    · rw [hir, hnsect]
      exact hq.sect r (by simp)
    · rw [hother i hir]
      exact hq.sect i hmem
  refine ⟨⟨hnext, hlinks.sorting.trans hsort, fun i hi => hother i ?_⟩, ?_⟩
  · rintro rfl
    simp at hi
  rcases hcase with ⟨hthis', hhd⟩ | ⟨hmax, hthis', hhd⟩
  · refine .inl ⟨⟨?_, hq.nodup, hsect, .inr (.inl hreset)⟩, fun i => ?_, hthis'.trans hthis,
      fun _ => hreset.ctl_ne⟩
    · rw [nextOf_congr hnext, hthis', hthis]
      exact hq.chain
    · by_cases hir : i = r
      · rw [hir, hhd]
      · rw [hother i hir]
  · refine .inr ⟨⟨⟨?_, hq.nodup.of_cons, fun i hi => hsect i (by simp [hi]),
      .inr (.inl hreset)⟩, fun i => ?_, fun _ => hreset.ctl_ne, fun _ => hreset⟩, hmax⟩
    · rw [nextOf_congr hnext, hthis']
      exact hq.rest
    · by_cases hir : i = r
      · rw [hir, hhd, if_pos rfl]
      · rw [hother i hir, if_neg hir]

theorem count_effect {c : Command}
    {lat : Sector → Sector} (hq : Queue d (r :: rest)) (hreq : d1.request = d.request)
    (hr : d.thisRequest = some r) (hthis : d1.thisRequest = d.thisRequest)
    (hsort : d1.sorting = d.sorting) (hdo : d1.doHd = d.doHd)
    (his : Issued (d.request r) lba (d.request r).nsector.toNat latch d) (hc : d.ctl = some c)
    (hadv : d1.ctl = c.advance) (hn : (d.request r).nsector ≠ 1) (hcount : Counts d1 d' r)
    (hctl : d'.ctl = d1.ctl.map fun c => { c with latch := lat c.latch }) :
    SameLinks d d' (r :: rest) ∧ Stays d d' (r :: rest) := by
  obtain ⟨⟨e, hreq'⟩, hthis', hsort', hdo'⟩ := hcount
  obtain ⟨c', hc', hop, hdr, hlba, hleft, -, hdoHd⟩ := his
  cases hc.symm.trans hc'
  rw [hreq] at hreq'
  have hn2 : (d.request r).nsector = 2 := (hq.sect r (by simp)).resolve_left hn
  have hnext : ∀ i, (d'.request i).next = (d.request i).next := by
    intro i
    rw [hreq']
    by_cases hir : i = r <;> simp [hir]
  have hctl' : d'.ctl = some { c with lba := c.lba + 1, left := 1, latch := lat c.latch } := by
    rw [hctl, hadv]
    simp [Command.advance, hleft, hn2]
  refine ⟨⟨hnext, hsort'.trans hsort, fun i hi => ?_⟩, ⟨?_, hq.nodup, ?_, ?_⟩, fun i => ?_,
    hthis'.trans hthis, fun _ => by simp [hctl']⟩
  · rw [hreq', update_of_ne (fun hir => hi (by simp [hir]))]
  · rw [nextOf_congr hnext, hthis', hthis]
    exact hq.chain
  · intro i hi
    rw [hreq']
    by_cases hir : i = r
    · simp [hir, hn2]
    · rw [update_of_ne hir]
      exact hq.sect i hi
  · refine .inr
      (.inr ⟨r, c.lba + 1, lat c.latch, hthis'.trans (hthis.trans hr), _, hctl', ?_, ?_, rfl, ?_,
      fun _ => rfl, ?_⟩)
    · simpa [hreq'] using hop
    · simpa [hreq'] using hdr
    · simp [hreq', hn2]
    · rw [hdo', hdo, hdoHd, hreq']
      simp
  · rw [hreq']
    by_cases hir : i = r <;> simp [hir]

theorem end_effect {d2 : Driver} (hq : Queue d (r :: rest)) (hs : d.sorting = false)
    (hreq : d1.request = d.request) (hsort : d1.sorting = d.sorting) (hctl : d1.ctl = none)
    (hcount : Counts d1 d2 r) (hctl2 : d2.ctl = d1.ctl) (hend : endRequest d2 r drq = some d') :
    SameLinks d d' (r :: rest) ∧ Pops d d' r rest := by
  obtain ⟨⟨e, hreq'⟩, hthis', hsort', hdo'⟩ := hcount
  rw [hreq] at hreq'
  have hnext : nextOf d2 = nextOf d := nextOf_congr fun i => by
    rw [hreq']
    by_cases hir : i = r <;> simp [hir]
  obtain ⟨hq', hserved, hreq3, hsort3⟩ := endRequest_queue hend
    (hsort'.trans (hsort.trans hs)) (hctl2.trans hctl) (hnext ▸ hq.rest) hq.nodup fun i hi => by
      have hir : i ≠ r := ne_of_mem_of_not_mem hi (List.nodup_cons.mp hq.nodup).1
      rw [hreq', update_of_ne hir]
      exact hq.sect i (by simp [hi])
  rw [hreq', update_self, update_idem] at hreq3
  refine ⟨⟨fun i => ?_, hsort3.trans (hsort'.trans hsort), fun i hi => ?_⟩, hq', fun i => ?_,
    hserved, fun hsort => absurd hsort (by simp [hs])⟩
  · rw [hreq3]
    by_cases hir : i = r <;> simp [hir]
  · rw [hreq3, update_of_ne (fun hir => hi (by simp [hir]))]
  · rw [hreq3]
    by_cases hir : i = r <;> simp [hir]

theorem intr_effect (hq : Queue d queue) (hi : hdInterrupt d i = some d')
    (hquiet : d.sorting = true → i.status ≠ .ready ∧
      (i.status = .ok → ∀ r, d.thisRequest = some r → (d.request r).nsector ≠ 1)) :
    SameLinks d d' queue ∧ (d.sorting = true → ¬Resetting d) ∧
      (Stays d d' queue ∨ ∃ r rest, queue = r :: rest ∧ Pops d d' r rest ∧
        (d.sorting = true → (∃ junk, i.status = .error junk) ∧
          maxErrors ≤ (d.request r).errors)) := by
  rcases hq.ctl with ⟨hnone, -⟩ | ⟨c, hc, hop, hdo⟩ | ⟨r, lba, latch, hthis, his⟩
  · simp [hdInterrupt, hnone] at hi
  · -- the reset is over: `do_request` issues the command of the first request
    have hready : i.status = .ready := by
      cases hst : i.status <;> simp [hdInterrupt, hc, hdo, Command.raise, hop, hst] at hi ⊢
    have hs : d.sorting = false := by
      by_contra hsort
      exact (hquiet (by simpa using hsort)).1 hready
    simp only [hdInterrupt, hc, Option.bind_some, Command.raise, hop, hready, hdo,
      callHandler] at hi
    obtain ⟨hq', hserved⟩ := doRequest_queue hi hs rfl hq.chain hq.nodup hq.sect
    have hsame := doRequest_sameBut hi
    exact ⟨⟨fun r => by rw [hsame.request], hsame.sorting, fun r _ => by rw [hsame.request]⟩,
      fun hsort => absurd hsort (by simp [hs]), .inl ⟨hq', fun r => by rw [hsame.request],
        hsame.this, hserved⟩⟩
  · have hnr : d.sorting = true → ¬Resetting d := by
      rintro - ⟨c, hc, hop, -⟩
      obtain ⟨c', hc', hop', -⟩ := his
      cases hc.symm.trans hc'
      cases hcmd : (d.request r).cmd <;> simp [hop, hcmd, Cmd.op] at hop'
    obtain ⟨rest, rfl, -⟩ := (hthis ▸ hq.chain).some_inv
    obtain ⟨d1, hreq, hthis1, hsort1, hdo1, ⟨junk, hst, hbad⟩ | ⟨hst, hcount, c, hc, hctl1⟩⟩ :=
      issued_interrupt hthis his hi
    · obtain ⟨hlinks, hstays | ⟨hpops, hmax⟩⟩ :=
        error_effect hq hreq (hthis1.trans hthis.symm) hsort1 hbad
      · exact ⟨hlinks, hnr, .inl hstays⟩
      · exact ⟨hlinks, hnr, .inr ⟨r, rest, rfl, hpops, fun _ => ⟨⟨junk, hst⟩, hmax⟩⟩⟩
    rcases hcount with ⟨hn, hcount, lat, hctl⟩ | ⟨hn, d2, hend, hcount, hctl⟩
    · rw [hreq] at hn
      obtain ⟨hlinks, hstays⟩ :=
        count_effect hq hreq hthis (hthis1.trans hthis.symm) hsort1 hdo1 his hc hctl1 hn hcount hctl
      exact ⟨hlinks, hnr, .inl hstays⟩
    -- the last sector: a quiet interrupt leaves it for `sorting = 0`
    rw [hreq] at hn
    have hs : d.sorting = false := by
      by_contra hsort
      exact (hquiet (by simpa using hsort)).2 hst r hthis hn
    have hadv : c.advance = none := by
      obtain ⟨c', hc', -, -, -, hleft, -⟩ := his
      cases hc.symm.trans hc'
      simp [Command.advance, hleft, hn]
    obtain ⟨hlinks, hpops⟩ :=
      end_effect hq hs hreq hsort1 (hctl1.trans hadv) hcount hctl hend
    exact ⟨hlinks, hnr, .inr ⟨r, rest, rfl, hpops, fun hsort => absurd hsort (by simp [hs])⟩⟩

end Effect

/-! ### The invariant of the queue under `add_request` -/

def Pc.pending : Pc → Option Nat
  | .check req | .setSorting req | .readThis req | .setThis req | .testNext req _ | .linkNext req _
  | .advance req _ | .loopTest req _ | .testOrder req _ | .loopNext req _ | .setReqNext req _
  | .linkTmp req _ => some req
  | _ => none

def Pc.sorts : Pc → Bool
  | .idle | .check _ | .setSorting _ | .testDoHd | .restart => false
  | _ => true

/-- `add_request` has linked its request, and the queue is not served yet. -/
def Pc.mayStart : Pc → Bool
  | .clearSorting | .testDoHd | .restart => true
  | _ => false

/-- `tmp` is in the queue, not first unless the first waits for a reset. -/
structure Inside (d : Driver) (queue : List Nat) (tmp : Nat) : Prop where
  mem : tmp ∈ queue
  safe : tmp ∈ queue.tail ∨ Resetting d

def Local (d : Driver) (queue : List Nat) : Pc → Prop
  | .setThis _ => queue = []
  | .testNext _ tmp => d.thisRequest = some tmp ∨
      (queue ≠ [] ∧ nextOf d tmp = d.thisRequest ∧ Resetting d)
  | .linkNext _ tmp => queue = [tmp]
  | .advance _ tmp => ∃ n, nextOf d tmp = some n ∧ Inside d queue n
  | .loopTest _ tmp | .setReqNext _ tmp => Inside d queue tmp
  | .testOrder _ tmp | .loopNext _ tmp => Inside d queue tmp ∧ nextOf d tmp ≠ none
  | .linkTmp req tmp => Inside d queue tmp ∧ nextOf d req = nextOf d tmp
  | .restart => d.doHd = none
  | _ => True

structure Inv (s : Sys) (queue : List Nat) : Prop where
  isQueue : Queue s.drv queue
  busy : ∀ r, 0 ≤ (s.drv.request r).hd ↔ r ∈ queue ∨ s.pc.pending = some r
  fresh : ∀ r, s.pc.pending = some r → r ∉ queue ∧ (s.drv.request r).nsector = 2
  unlinked : ∀ r, s.pc.pending = some r → (∀ tmp, s.pc ≠ .linkTmp r tmp) → nextOf s.drv r = none
  sorting : s.drv.sorting = s.pc.sorts
  served : s.pc.mayStart = false → queue ≠ [] → s.drv.ctl ≠ none
  localOk : Local s.drv queue s.pc

section Steps

variable {s t : Sys} {d d' : Driver} {queue : List Nat} {r req tmp : Nat} {pc : Pc} {drq : Bool}

theorem Initial.inv (h : Initial s) : Inv s [] where
  isQueue := ⟨by rw [h.this]; exact .nil, List.nodup_nil, by simp, .inl ⟨h.ctl, h.doHd⟩⟩
  busy r := by simp [(h.free r).1, h.pc, Pc.pending]
  fresh r hr := by simp [h.pc, Pc.pending] at hr
  unlinked r hr := by simp [h.pc, Pc.pending] at hr
  sorting := by simp [h.sorting, h.pc, Pc.sorts]
  served _ hne := absurd rfl hne
  localOk := by simp [h.pc, Local]

theorem Queue.congr (h : Queue d queue) (hthis : d'.thisRequest = d.thisRequest)
    (hctl : d'.ctl = d.ctl) (hdo : d'.doHd = d.doHd)
    (hreq : ∀ r ∈ queue, d'.request r = d.request r) : Queue d' queue where
  chain := hthis ▸ h.chain.congr fun r hr => by rw [nextOf, nextOf, hreq r hr]
  nodup := h.nodup
  sect r hr := by rw [hreq r hr]; exact h.sect r hr
  ctl := by
    rcases h.ctl with ⟨hn, hnd⟩ | ⟨c, hc, hop, hdo'⟩ | ⟨r, lba, latch, hr, c, hc, hrest⟩
    · exact .inl ⟨hctl.trans hn, hdo.trans hnd⟩
    · exact .inr (.inl ⟨c, hctl.trans hc, hop, hdo.trans hdo'⟩)
    · have hmem : r ∈ queue := List.mem_of_mem_head? (h.chain.head?_eq.trans hr)
      refine .inr (.inr ⟨r, lba, latch, hthis.trans hr, c, hctl.trans hc, ?_⟩)
      rw [hreq r hmem, hdo]
      exact hrest

theorem freeRequest_free (h : freeRequest d = some r) : (d.request r).hd < 0 := by
  simpa using List.find?_some h

theorem call_inv {cmd : Cmd} {nr sec head cyl bh : Nat} (h : Inv s queue) (hpc : s.pc = .idle)
    (hs : rwAbsHd s cmd nr sec head cyl bh = some t) : Inv t queue := by
  obtain ⟨r, hfree, rfl⟩ := Option.map_eq_some_iff.mp hs
  have hr : r ∉ queue := fun hmem =>
    absurd ((h.busy r).mpr (.inl hmem)) (Int.not_le.mpr (freeRequest_free hfree))
  refine ⟨h.isQueue.congr rfl rfl rfl fun i hi => ?_, fun i => ?_, fun i hi => ?_, fun i hi _ => ?_,
    ?_, fun _ => h.served (by simp [hpc, Pc.mayStart]), trivial⟩
  · simp [ne_of_mem_of_not_mem hi hr]
  · by_cases hir : i = r
    · simp [hir, Pc.pending]
    · have hb := h.busy i
      simp only [hpc, Pc.pending] at hb
      simpa [hir, Pc.pending, Ne.symm hir] using hb
  · obtain rfl : r = i := by simpa [Pc.pending] using hi
    exact ⟨hr, by simp⟩
  · obtain rfl : r = i := by simpa [Pc.pending] using hi
    simp [nextOf]
  · have hs := h.sorting
    simp only [hpc, Pc.sorts] at hs
    simpa [Pc.sorts] using hs

@[simp] theorem nextOf_setNext (o : Option Nat) :
    nextOf (setNext d tmp o) = update (nextOf d) tmp o := by
  funext i
  by_cases hi : i = tmp <;> simp [nextOf, setNext, hi]

theorem setNext_request (o : Option Nat) (i : Nat) :
    ((setNext d tmp o).request i).hd = (d.request i).hd ∧
      ((setNext d tmp o).request i).nsector = (d.request i).nsector := by
  by_cases hi : i = tmp <;> simp [setNext, hi]

theorem CtlOk.setNext (h : CtlOk d) (o : Option Nat) : CtlOk (setNext d tmp o) := by
  rcases h with hn | hr | ⟨r, lba, latch, hr, c, hc, hop, hdr, hlba, hleft, hlat, hdo⟩
  · exact .inl hn
  · exact .inr (.inl hr)
  · refine .inr (.inr ⟨r, lba, latch, hr, c, hc, ?_⟩)
    by_cases hrt : r = tmp
    · subst hrt
      simpa [Hd.setNext] using ⟨hop, hdr, hlba, hleft, hlat, hdo⟩
    · simpa [Hd.setNext, hrt] using ⟨hop, hdr, hlba, hleft, hlat, hdo⟩

theorem link_queue (h : Queue d queue) (hmem : tmp ∈ queue) (hreq : req ∉ queue)
    (hsect : (d.request req).nsector = 2) (hnext : nextOf d req = nextOf d tmp) :
    ∃ queue', Queue (setNext d tmp (some req)) queue' ∧
      ∀ r, r ∈ queue' ↔ r ∈ queue ∨ req = r := by
  obtain ⟨xs, ys, rfl⟩ := List.append_of_mem hmem
  refine ⟨xs ++ tmp :: req :: ys, ⟨?_, ?_, fun r hr => ?_, h.ctl.setNext _⟩, fun r => ?_⟩
  · rw [nextOf_setNext]
    exact h.chain.insert_after h.nodup hreq hnext
  · have hperm : (xs ++ tmp :: req :: ys).Perm (req :: (xs ++ tmp :: ys)) := by
      simpa using @List.perm_middle _ req (xs ++ [tmp]) ys
    exact hperm.nodup_iff.mpr (List.nodup_cons.mpr ⟨hreq, h.nodup⟩)
  · rw [(setNext_request _ r).2]
    by_cases hrr : r = req
    · exact .inr (hrr ▸ hsect)
    · exact h.sect r (by grind)
  · grind

section
variable (h : Inv s queue)
include h

theorem Inv.goto (hlocal : Local s.drv queue pc) (hpend : pc.pending = s.pc.pending := by rfl)
    (hlink : ∀ r tmp, s.pc ≠ .linkTmp r tmp := by nofun) (hsorts : pc.sorts = s.pc.sorts := by rfl)
    (hstart : s.pc.mayStart = pc.mayStart := by rfl) : Inv ⟨s.drv, pc⟩ queue where
  isQueue := h.isQueue
  busy r := by rw [hpend]; exact h.busy r
  fresh r hr := h.fresh r (hpend ▸ hr)
  unlinked r hr _ := h.unlinked r (hpend ▸ hr) fun tmp => hlink r tmp
  sorting := h.sorting.trans hsorts.symm
  served hst := h.served (hstart.trans hst)
  localOk := hlocal

theorem Inv.linked {queue' : List Nat} (hpend : s.pc.pending = some req)
    (hsorts : s.pc.sorts = true) (hq : Queue d queue')
    (hmem : ∀ r, r ∈ queue' ↔ r ∈ queue ∨ req = r)
    (hhd : ∀ r, (d.request r).hd = (s.drv.request r).hd) (hs : d.sorting = s.drv.sorting) :
    Inv ⟨d, .clearSorting⟩ queue' where
  isQueue := hq
  busy r := by
    have hb := h.busy r
    rw [hpend, Option.some.injEq] at hb
    simp [hhd, hb, hmem, Pc.pending]
  fresh r hr := by simp [Pc.pending] at hr
  unlinked r hr := by simp [Pc.pending] at hr
  sorting := by rw [hs, h.sorting, hsorts]; rfl
  served hst := by simp [Pc.mayStart] at hst
  localOk := trivial

theorem setThis_inv (hpc : s.pc = .setThis req) :
    Inv ⟨{ s.drv with thisRequest := some req }, .clearSorting⟩ [req] := by
  obtain rfl : queue = [] := by simpa [hpc, Local] using h.localOk
  have hpend : s.pc.pending = some req := by simp [hpc, Pc.pending]
  have hnone : s.drv.thisRequest = none := h.isQueue.chain.head?_eq.symm
  refine h.linked hpend (by simp [hpc, Pc.sorts]) ⟨.cons ?_, by simp, ?_, ?_⟩ (by simp [eq_comm])
    (fun _ => rfl) rfl
  · have hnext : nextOf s.drv req = none := h.unlinked req hpend (by simp [hpc])
    exact hnext ▸ .nil
  · simpa using .inr (h.fresh req hpend).2
  · rcases h.isQueue.ctl with hn | hr | ⟨r, lba, latch, hr, -⟩
    · exact .inl hn
    · exact .inr (.inl hr)
    · simp [hnone] at hr

theorem testNext_inv (hpc : s.pc = .testNext req tmp) :
    (nextOf s.drv tmp = none → queue = [tmp]) ∧
      ∀ n, nextOf s.drv tmp = some n → Inside s.drv queue n := by
  have hl := h.localOk
  have hchain := h.isQueue.chain
  simp only [hpc, Local] at hl
  rcases hl with hthis | ⟨hne, hnext, hreset⟩
  · obtain ⟨ys, rfl, hys⟩ := (hthis ▸ hchain).some_inv
    refine ⟨fun hn => ?_, fun n hn => ?_⟩
    · rw [hn] at hys
      rw [hys.eq_nil]
    · have hmem : n ∈ ys := List.mem_of_mem_head? (hys.head?_eq.trans hn)
      exact ⟨by simp [hmem], .inl hmem⟩
  · refine ⟨fun hn => ?_, fun n hn => ?_⟩
    · rw [← hnext, hn] at hchain
      exact absurd hchain.eq_nil hne
    · exact ⟨List.mem_of_mem_head? (hchain.head?_eq.trans (hnext.symm.trans hn)), .inr hreset⟩

theorem setReqNext_inv (hpc : s.pc = .setReqNext req tmp) :
    Inv ⟨setNext s.drv req (s.drv.request tmp).next, .linkTmp req tmp⟩ queue := by
  have hin : Inside s.drv queue tmp := by simpa [hpc, Local] using h.localOk
  obtain ⟨hreq, hsect⟩ := h.fresh req (by simp [hpc, Pc.pending])
  have hne : tmp ≠ req := ne_of_mem_of_not_mem hin.mem hreq
  refine ⟨h.isQueue.congr rfl rfl rfl fun r hr => ?_, fun r => ?_, fun r hr => ?_,
    fun r hr hlink => ?_, ?_, fun _ => h.served (by simp [hpc, Pc.mayStart]),
    ⟨hin.mem, hin.safe⟩, ?_⟩
  · simp [setNext, ne_of_mem_of_not_mem hr hreq]
  · rw [(setNext_request _ r).1]
    have hb := h.busy r
    simpa only [hpc, Pc.pending] using hb
  · obtain rfl : req = r := by simpa [Pc.pending] using hr
    exact ⟨hreq, (setNext_request _ req).2.trans hsect⟩
  · obtain rfl : req = r := by simpa [Pc.pending] using hr
    exact absurd rfl (hlink tmp)
  · have hs := h.sorting
    rw [hpc] at hs
    exact hs
  · rw [nextOf_setNext, update_self, update_of_ne hne]
    rfl

theorem linkTmp_inv (hpend : s.pc.pending = some req) (hsorts : s.pc.sorts = true)
    (hmem : tmp ∈ queue) (hnext : nextOf s.drv req = nextOf s.drv tmp) :
    ∃ queue', Inv ⟨setNext s.drv tmp (some req), .clearSorting⟩ queue' := by
  obtain ⟨hreq, hsect⟩ := h.fresh req hpend
  obtain ⟨queue', hq, hmem'⟩ := link_queue h.isQueue hmem hreq hsect hnext
  exact ⟨queue', h.linked hpend hsorts hq hmem' (fun r => (setNext_request _ r).1) rfl⟩

end

theorem Queue.idle (h : Queue d queue) (hdo : d.doHd = none) : d.ctl = none := by
  rcases h.ctl with ⟨hn, -⟩ | ⟨c, -, -, hdo'⟩ | ⟨r, lba, latch, -, c, -, -, -, -, -, -, hdo'⟩
  · exact hn
  · simp [hdo] at hdo'
  · simp [hdo] at hdo'

theorem Queue.ctl_ne {r : Handler} (h : Queue d queue) (hdo : d.doHd = some r) : d.ctl ≠ none := by
  rcases h.ctl with ⟨-, hn⟩ | hr | ⟨r, lba, latch, -, hi⟩
  · simp [hdo] at hn
  · exact hr.ctl_ne
  · exact hi.ctl_ne

theorem restart_inv (h : Inv s queue) (hpc : s.pc = .restart)
    (hd : doRequest s.drv drq = some d) : Inv ⟨d, .idle⟩ queue := by
  have hs : s.drv.sorting = false := by simp [h.sorting, hpc, Pc.sorts]
  have hdo : s.drv.doHd = none := by simpa [hpc, Local] using h.localOk
  obtain ⟨hq, hserved⟩ := doRequest_queue hd hs (h.isQueue.idle hdo) h.isQueue.chain
    h.isQueue.nodup h.isQueue.sect
  have hsame := doRequest_sameBut hd
  refine ⟨hq, fun r => ?_, fun r hr => ?_, fun r hr => ?_, ?_, fun _ => hserved, trivial⟩
  · have hb := h.busy r
    simp only [hpc, Pc.pending] at hb
    simpa [hsame.request, Pc.pending] using hb
  · simp [Pc.pending] at hr
  · simp [Pc.pending] at hr
  · simp [hsame.sorting, hs, Pc.sorts]

theorem exec_inv (h : Inv s queue) (hs : exec s drq = some t) :
    ∃ queue', Inv t queue' := by
  obtain ⟨d, pc⟩ := s
  have hl := h.localOk
  have hlinked := h.isQueue.chain
  cases pc with
  | idle => simp [exec] at hs
  | check req =>
    have hsect : (d.request req).nsector = 2 := (h.fresh req rfl).2
    simp only [exec, hsect, ne_eq, not_true, if_false, Option.some.injEq] at hs
    exact ⟨queue, hs ▸ h.goto trivial⟩
  | setSorting req =>
    cases hs
    exact ⟨queue, h.isQueue.congr rfl rfl rfl fun _ _ => rfl, h.busy, h.fresh,
      fun r hr _ => h.unlinked r hr nofun, rfl, h.served, trivial⟩
  | readThis req =>
    cases hthis : d.thisRequest with
    | none =>
      simp only [exec, hthis, Option.some.injEq] at hs
      have hnil : queue = [] := (hthis ▸ hlinked).eq_nil
      exact ⟨queue, hs ▸ h.goto hnil⟩
    | some tmp =>
      simp only [exec, hthis, Option.some.injEq] at hs
      exact ⟨queue, hs ▸ h.goto (.inl hthis)⟩
  | setThis req =>
    cases hs
    exact ⟨_, setThis_inv h rfl⟩
  | testNext req tmp =>
    obtain ⟨hlast, hmore⟩ := testNext_inv h rfl
    cases hnext : (d.request tmp).next with
    | none =>
      simp only [exec, hnext, Option.some.injEq] at hs
      exact ⟨queue, hs ▸ h.goto (hlast hnext)⟩
    | some n =>
      simp only [exec, hnext, Option.some.injEq] at hs
      exact ⟨queue, hs ▸ h.goto ⟨n, hnext, hmore n hnext⟩⟩
  | linkNext req tmp =>
    cases hs
    obtain rfl : queue = [tmp] := hl
    have hlast : nextOf d tmp = none :=
      @Chain.next_eq_none _ (nextOf d) d.thisRequest tmp [] hlinked
    exact linkTmp_inv h rfl rfl (by simp) ((h.unlinked req rfl nofun).trans hlast.symm)
  | advance req tmp =>
    obtain ⟨n, hnext, hin⟩ := hl
    simp only [exec, show (d.request tmp).next = some n from hnext, Option.map_some,
      Option.some.injEq] at hs
    exact ⟨queue, hs ▸ h.goto hin⟩
  | loopTest req tmp =>
    cases hnext : (d.request tmp).next with
    | none =>
      simp only [exec, hnext, Option.some.injEq] at hs
      exact ⟨queue, hs ▸ h.goto hl⟩
    | some n =>
      simp only [exec, hnext, Option.some.injEq] at hs
      exact ⟨queue, hs ▸ h.goto ⟨hl, by simp [nextOf, hnext]⟩⟩
  | testOrder req tmp =>
    obtain ⟨n, -, hs⟩ := Option.map_eq_some_iff.mp hs
    split at hs
    · exact ⟨queue, hs ▸ h.goto hl.1⟩
    · exact ⟨queue, hs ▸ h.goto hl⟩
  | loopNext req tmp =>
    obtain ⟨n, hnext, hs⟩ := Option.map_eq_some_iff.mp hs
    have htail : n ∈ queue.tail := hlinked.next_mem hl.1.mem hnext
    exact ⟨queue, hs ▸ h.goto ⟨List.mem_of_mem_tail htail, .inl htail⟩⟩
  | setReqNext req tmp =>
    cases hs
    exact ⟨queue, setReqNext_inv h rfl⟩
  | linkTmp req tmp =>
    cases hs
    exact linkTmp_inv h rfl rfl hl.1.mem hl.2
  | clearSorting =>
    cases hs
    exact ⟨queue, h.isQueue.congr rfl rfl rfl fun _ _ => rfl, h.busy, nofun, nofun, rfl, nofun,
      trivial⟩
  | testDoHd =>
    cases hdo : d.doHd with
    | none =>
      simp only [exec, hdo, Option.some.injEq] at hs
      exact ⟨queue, hs ▸ h.goto hdo⟩
    | some r =>
      simp only [exec, hdo, Option.some.injEq] at hs
      subst hs
      exact ⟨queue, h.isQueue, h.busy, nofun, nofun, h.sorting,
        fun _ _ => h.isQueue.ctl_ne hdo, trivial⟩
  | restart =>
    obtain ⟨d', hd, rfl⟩ := Option.map_eq_some_iff.mp hs
    exact ⟨queue, restart_inv h rfl hd⟩

theorem Inside.tail (h : Inside d queue tmp) (hreset : ¬Resetting d) : tmp ∈ queue.tail :=
  h.safe.resolve_right hreset

theorem stays_local (hl : Local d queue pc) (hlinks : SameLinks d d' queue)
    (hstays : Stays d d' queue) (hreset : pc.sorts = true → ¬Resetting d) (hpc : pc ≠ .restart) :
    Local d' queue pc := by
  have hnext : nextOf d' = nextOf d := nextOf_congr hlinks.next
  have hin : pc.sorts = true → ∀ n, Inside d queue n → Inside d' queue n :=
    fun hs n hn => ⟨hn.mem, .inl (hn.tail (hreset hs))⟩
  cases pc with
  | setThis req => exact hl
  | testNext req tmp =>
    rcases hl with hthis | ⟨-, -, hr⟩
    · exact .inl (hstays.this.trans hthis)
    · exact absurd hr (hreset rfl)
  | linkNext req tmp => exact hl
  | advance req tmp =>
    obtain ⟨n, hn, hl⟩ := hl
    exact ⟨n, hnext ▸ hn, hin rfl n hl⟩
  | loopTest req tmp => exact hin rfl tmp hl
  | testOrder req tmp => exact ⟨hin rfl tmp hl.1, hnext ▸ hl.2⟩
  | loopNext req tmp => exact ⟨hin rfl tmp hl.1, hnext ▸ hl.2⟩
  | setReqNext req tmp => exact hin rfl tmp hl
  | linkTmp req tmp => exact ⟨hin rfl tmp hl.1, hnext ▸ hl.2⟩
  | restart => exact absurd rfl hpc
  | _ => trivial

theorem pops_local {rest : List Nat} (hq : Queue d (r :: rest))
    (hl : Local d (r :: rest) pc) (hlinks : SameLinks d d' (r :: rest)) (hpops : Pops d d' r rest)
    (hsorts : d.sorting = pc.sorts) (hreset : pc.sorts = true → ¬Resetting d)
    (hlast : pc.sorts = true → nextOf d r ≠ none ∨ ∃ req, pc = .readThis req)
    (hpc : pc ≠ .restart) : Local d' rest pc := by
  have hnext : nextOf d' = nextOf d := nextOf_congr hlinks.next
  have hin : pc.sorts = true → ∀ n, Inside d (r :: rest) n → Inside d' rest n :=
    fun hs n hn => ⟨hn.tail (hreset hs), .inr (hpops.reset (hsorts.trans hs))⟩
  have hthis : d.thisRequest = some r := hq.chain.head?_eq.symm
  have hrest := hq.rest
  cases pc with
  | setThis req => exact absurd hl (List.cons_ne_nil _ _)
  | testNext req tmp =>
    rcases hl with hthis' | ⟨-, -, hr⟩
    · obtain rfl : r = tmp := Option.some.inj (hthis.symm.trans hthis')
      refine .inr ⟨fun hnil => ?_, ?_, hpops.reset hsorts⟩
      · have hn : nextOf d r = none := by simpa [hnil] using hrest.head?_eq.symm
        simpa [hn] using hlast rfl
      · rw [hnext, ← hrest.head?_eq]
        exact hpops.isQueue.chain.head?_eq
    · exact absurd hr (hreset rfl)
  | linkNext req tmp =>
    obtain ⟨rfl, rfl⟩ := List.cons.inj hl
    have hn : nextOf d r = none := hrest.head?_eq.symm
    simpa [hn] using hlast rfl
  | advance req tmp =>
    obtain ⟨n, hn, hl⟩ := hl
    exact ⟨n, hnext ▸ hn, hin rfl n hl⟩
  | loopTest req tmp => exact hin rfl tmp hl
  | testOrder req tmp => exact ⟨hin rfl tmp hl.1, hnext ▸ hl.2⟩
  | loopNext req tmp => exact ⟨hin rfl tmp hl.1, hnext ▸ hl.2⟩
  | setReqNext req tmp => exact hin rfl tmp hl
  | linkTmp req tmp => exact ⟨hin rfl tmp hl.1, hnext ▸ hl.2⟩
  | restart => exact absurd rfl hpc
  | _ => trivial

theorem intr_inv {i : Intr} (h : Inv s queue) (hquiet : Quiet s (.intr i))
    (hi : hdInterrupt s.drv i = some d') : ∃ queue', Inv ⟨d', s.pc⟩ queue' := by
  have hsorting := h.sorting
  obtain ⟨hlinks, hreset, heffect⟩ := intr_effect h.isQueue hi fun hsort => by
    have hq := hquiet hsort
    cases hst : i.status <;> simp_all
  rw [hsorting] at hreset
  have hpc : s.pc ≠ .restart := by
    intro hpc
    have hl := h.localOk
    simp only [hpc, Local] at hl
    simp [hdInterrupt, h.isQueue.idle hl] at hi
  rcases heffect with hstays | ⟨r, rest, rfl, hpops, hend⟩
  · refine ⟨queue, hstays.isQueue, fun r => ?_, fun r hr => ?_, fun r hr hne => ?_,
      hlinks.sorting.trans hsorting, fun _ => hstays.served,
      stays_local h.localOk hlinks hstays hreset hpc⟩
    · rw [hstays.hd]
      exact h.busy r
    · rw [hlinks.other r (h.fresh r hr).1]
      exact h.fresh r hr
    · exact (hlinks.next r).trans (h.unlinked r hr hne)
  · have hnot : r ∉ rest := (List.nodup_cons.mp h.isQueue.nodup).1
    have hpend : s.pc.pending ≠ some r := fun hp => (h.fresh r hp).1 (by simp)
    refine ⟨rest, hpops.isQueue, fun j => ?_, fun j hj => ?_, fun j hj hne => ?_,
      hlinks.sorting.trans hsorting, fun _ => hpops.served,
      pops_local h.isQueue h.localOk hlinks hpops hsorting hreset (fun hs => ?_) hpc⟩
    · rw [hpops.hd]
      have hb := h.busy j
      by_cases hjr : j = r
      · simp [hjr, hnot, hpend]
      · simpa [hjr] using hb
    · rw [hlinks.other j (h.fresh j hj).1]
      exact ⟨fun hmem => (h.fresh j hj).1 (by simp [hmem]), (h.fresh j hj).2⟩
    · exact (hlinks.next j).trans (h.unlinked j hj hne)
    · -- a quiet error ends only a request with another one behind it
      obtain ⟨⟨junk, hst⟩, hmax⟩ := hend (hsorting.trans hs)
      have hthis : s.drv.thisRequest = some r := h.isQueue.chain.head?_eq.symm
      have hq := hquiet (hsorting.trans hs)
      simp only [hst] at hq
      exact (hq r hthis).resolve_left (Nat.not_lt.mpr hmax)

theorem step_inv {e : Label} (h : ∃ queue, Inv s queue) (hquiet : Quiet s e)
    (hs : step s e = some t) : ∃ queue, Inv t queue := by
  obtain ⟨queue, h⟩ := h
  cases e with
  | call cmd nr sec head cyl bh =>
    cases hpc : s.pc <;> simp only [step, hpc, reduceCtorEq] at hs
    exact ⟨queue, call_inv h hpc hs⟩
  | exec drq => exact exec_inv h hs
  | intr i =>
    obtain ⟨d', hi, rfl⟩ := Option.map_eq_some_iff.mp hs
    exact intr_inv h hquiet hi

theorem Inv.inService (h : Inv s queue) (hpc : s.pc = .idle) : InService s.drv where
  linked r hr := by
    have hmem : r ∈ queue := by simpa [hpc, Pc.pending] using (h.busy r).mp hr
    exact h.isQueue.chain.leads hmem
  command r hr := by
    have hne : queue ≠ [] := by
      rintro rfl
      simpa [hr] using h.isQueue.chain.head?_eq
    have hctl := h.served (by simp [hpc, Pc.mayStart]) hne
    rcases h.isQueue.ctl with ⟨hn, -⟩ | hreset | ⟨r', lba, latch, hr', his⟩
    · exact absurd hn hctl
    · exact .inl hreset
    · obtain rfl : r = r' := Option.some.inj (hr.symm.trans hr')
      exact .inr ⟨lba, latch, his⟩

end Steps

/-- Where every interrupt is quiet, no request is lost or stalled. -/
theorem inService_of_quiet {s₀ s : Sys} (h₀ : Initial s₀) (h : Reaches step Quiet s₀ s)
    (hpc : s.pc = .idle) : InService s.drv := by
  obtain ⟨queue, hinv⟩ := h.invariant (P := fun s => ∃ queue, Inv s queue)
    (fun _ _ _ hi hq hs => step_inv hi hq hs) ⟨[], h₀.inv⟩
  exact hinv.inService hpc

def booted : Sys where
  drv := {
    request := fun _ => ⟨-1, 0, 0, 0, 0, .winRead, 0, 0, none⟩
    thisRequest := none
    sorting := false
    doHd := none
    buffer := fun _ => ⟨fun _ _ => 0, false, false, false⟩
    disk := fun _ _ _ => 0
    ctl := none }
  pc := .idle

theorem booted_initial : Initial booted := ⟨fun _ => ⟨rfl, rfl⟩, rfl, rfl, rfl, rfl, rfl⟩

/-- A read that finds the queue empty, with its `add_request`. -/
def readAlone : List Label :=
  .call .winRead 0 1 0 0 0 :: List.replicate 7 (.exec true)

/-- A second read is linked behind the first, whose interrupts then come. -/
def readBehind : List Label :=
  readAlone ++ .call .winRead 0 3 0 0 1 :: List.replicate 7 (.exec true) ++
    [.intr ⟨.ok, true⟩, .intr ⟨.ok, true⟩]

/-- The interrupts come while no request is being linked. -/
def unsorted (s : Sys) : Label → Bool
  | .intr _ => !s.drv.sorting
  | _ => true

theorem unsorted_quiet (s : Sys) (l : Label) (h : unsorted s l = true) : Quiet s l := by
  cases l with
  | intr i =>
    intro hsorting
    simp [unsorted, hsorting] at h
  | _ => trivial

/-- The second request is in service once the first is done. -/
theorem inService_of_quiet_readBehind :
    ∃ s, Reaches step Quiet booted s ∧ s.drv.thisRequest = some 1 ∧ InService s.drv := by
  obtain ⟨s, hrun, hpc, hthis⟩ : ∃ s, run (fun s l => if unsorted s l then step s l else none)
      readBehind booted = some s ∧ s.pc = .idle ∧ s.drv.thisRequest = some 1 := ⟨_, rfl, rfl, rfl⟩
  have hreach := reaches_of_checked unsorted_quiet hrun
  exact ⟨s, hreach, hthis, inService_of_quiet booted_initial hreach hpc⟩

/-- Both interrupts of a read come as `add_request` is about to link another. -/
def readDuringSorting : List Label :=
  readAlone ++ .call .winRead 0 3 0 0 1 :: List.replicate 4 (.exec true) ++
    [.intr ⟨.ok, true⟩, .intr ⟨.ok, true⟩] ++ List.replicate 3 (.exec true)

/-- The second request is linked behind one that has left the queue. -/
theorem not_inService_after_sorting :
    ∃ s, Initial booted ∧ Reaches step (fun _ _ => True) booted s ∧ s.pc = .idle ∧
      ¬InService s.drv := by
  obtain ⟨s, hrun, hpc, hthis, hhd⟩ : ∃ s, run step readDuringSorting booted = some s ∧
      s.pc = .idle ∧ s.drv.thisRequest = none ∧ (s.drv.request 1).hd = 0 :=
    ⟨_, rfl, rfl, rfl, rfl⟩
  refine ⟨s, booted_initial, reaches_of_run hrun, hpc, fun h => ?_⟩
  have hleads := h.linked 1 (by simp [hhd])
  rw [hthis] at hleads
  exact not_leads_none 1 hleads

end Linux001.Hd
