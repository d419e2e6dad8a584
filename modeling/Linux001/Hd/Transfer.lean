import Linux001.Hd.Driver

/-! One request from `do_request` to its last interrupt: which sectors end up in which halves of the
buffer, for every sequence of success and error interrupts. -/

namespace Linux001.Hd

open Function

def Request.first (q : Request) : Nat := startSector q.sector q.head q.cyl

def Cmd.op : Cmd → Op
  | .winRead => .read
  | .winWrite => .write

def Cmd.handler : Cmd → Handler
  | .winRead => .readIntr
  | .winWrite => .writeIntr

theorem hdOut_eq_some {s t : Driver} {drive nsect : Int} {sect head cyl : Nat} {op : Op}
    {intr : Handler} :
    hdOut s drive nsect sect head cyl op intr = some t ↔
      (0 ≤ drive ∧ drive ≤ 1 ∧ head ≤ 15) ∧
        t = { s with
          doHd := some intr
          ctl := some ⟨op, drive, startSector sect head cyl, nsect.toNat, fun _ => 0⟩ } := by
  unfold hdOut
  split
  · rename_i bad
    simp only [reduceCtorEq, false_iff, not_and]
    omega
  rename_i good
  rw [Option.some.injEq]
  constructor
  · intro h
    exact ⟨by omega, h.symm⟩
  · rintro ⟨_, rfl⟩
    rfl

theorem resetHd_eq_some {s t : Driver} {nr : Int} :
    resetHd s nr = some t ↔ (0 ≤ nr ∧ nr ≤ 1) ∧
      t = { s with
        doHd := some .doRequest
        ctl := some ⟨.specify, nr, startSector nrSect (nrHead - 1) 977, 17, fun _ => 0⟩ } := by
  unfold resetHd
  rw [hdOut_eq_some]
  simp [nrHead, nrSect]

def Resetting (s : Driver) : Prop :=
  ∃ c, s.ctl = some c ∧ c.op = .specify ∧ s.doHd = some .doRequest

/-- A transfer command of `q` with `left` sectors to go from `lba` on. -/
def Issued (q : Request) (lba left : Nat) (latch : Sector) (s : Driver) : Prop :=
  ∃ c, s.ctl = some c ∧ c.op = q.cmd.op ∧ c.drive = q.hd ∧ c.lba = lba ∧ c.left = left ∧
    (q.cmd = .winWrite → c.latch = latch) ∧ s.doHd = some q.cmd.handler

structure SameBut (s t : Driver) : Prop where
  request : t.request = s.request
  this : t.thisRequest = s.thisRequest
  sorting : t.sorting = s.sorting
  buffer : t.buffer = s.buffer
  disk : t.disk = s.disk

theorem resetHd_spec {s t : Driver} {nr : Int} (h : resetHd s nr = some t) :
    SameBut s t ∧ Resetting t := by
  obtain ⟨_, rfl⟩ := resetHd_eq_some.mp h
  exact ⟨⟨rfl, rfl, rfl, rfl, rfl⟩, _, rfl, rfl, rfl⟩

theorem issue_spec {s t : Driver} {q : Request} {drq : Bool} (h : issue s q drq = some t) :
    SameBut s t ∧ (Resetting t ∨ Issued q q.first q.nsector.toNat
      ((s.buffer q.bh).bData (q.nsector % 2).toNat) t) := by
  unfold issue at h
  cases hcmd : q.cmd with
  | winRead =>
    simp only [hcmd] at h
    obtain ⟨_, rfl⟩ := hdOut_eq_some.mp h
    exact ⟨⟨rfl, rfl, rfl, rfl, rfl⟩, .inr ⟨_, rfl, by simp [hcmd, Cmd.op], rfl, rfl, rfl,
      by simp [hcmd], by simp [hcmd, Cmd.handler]⟩⟩
  | winWrite =>
    simp only [hcmd] at h
    obtain ⟨u, hu, hrest⟩ := Option.bind_eq_some_iff.mp h
    obtain ⟨_, rfl⟩ := hdOut_eq_some.mp hu
    cases drq with
    | true =>
      cases hrest
      exact ⟨⟨rfl, rfl, rfl, rfl, rfl⟩, .inr ⟨_, rfl, by simp [hcmd, Cmd.op], rfl, rfl, rfl,
        fun _ => rfl, by simp [portWrite, hcmd, Cmd.handler]⟩⟩
    | false =>
      obtain ⟨hsame, hreset⟩ := resetHd_spec hrest
      exact ⟨⟨hsame.request, hsame.this, hsame.sorting, hsame.buffer, hsame.disk⟩, .inl hreset⟩

theorem doRequest_sameBut {s t : Driver} {drq : Bool} (h : doRequest s drq = some t) :
    SameBut s t := by
  unfold doRequest at h
  split at h
  · cases h
    exact ⟨rfl, rfl, rfl, rfl, rfl⟩
  split at h
  · cases h
    exact ⟨rfl, rfl, rfl, rfl, rfl⟩
  · exact (issue_spec h).1

theorem issue_of_doRequest {s t : Driver} {r : Nat} {drq : Bool} (h : doRequest s drq = some t)
    (hs : s.sorting = false) (hr : s.thisRequest = some r) :
    issue s (s.request r) drq = some t := by
  simpa [doRequest, hs, hr] using h

def serve (r : Nat) : List Intr → Driver → Option Driver
  | [], s => some s
  | i :: is, s => if (s.request r).hd < 0 then none else (hdInterrupt s i).bind (serve r is)

structure Fresh (s : Driver) (r : Nat) : Prop where
  this : s.thisRequest = some r
  sorting : s.sorting = false
  hd : 0 ≤ (s.request r).hd
  nsector : (s.request r).nsector = 2
  errors : (s.request r).errors = 0

/-- From `s`, the interrupts `is` complete `r` with `b_uptodate` set. -/
structure Served (s : Driver) (r : Nat) (drq : Bool) (is : List Intr) (t : Driver) : Prop where
  run : (doRequest s drq).bind (serve r is) = some t
  done : (t.request r).hd < 0
  uptodate : (t.buffer (s.request r).bh).bUptodate = true

def Transferred (s t : Driver) (r : Nat) : Prop :=
  let q := s.request r
  match q.cmd with
  | .winRead => ∀ k < 2, (t.buffer q.bh).bData k = s.disk q.hd (q.first + k)
  | .winWrite => ∀ k < 2, t.disk q.hd (q.first + k) = (s.buffer q.bh).bData k

section Phases

variable {s0 s t : Driver} {r : Nat} {n : Int} {i : Intr} {lba : Nat} {latch : Sector} {left : Nat}

/-- `r` is in service with `n` sectors to go, and source data as before. -/
structure Active (s₀ : Driver) (r : Nat) (n : Int) (s : Driver) : Prop where
  this : s.thisRequest = some r
  sorting : s.sorting = false
  hd : 0 ≤ (s₀.request r).hd
  req : ∃ e, s.request r = { s₀.request r with nsector := n, errors := e }
  read : (s₀.request r).cmd = .winRead → s.disk = s₀.disk
  write : (s₀.request r).cmd = .winWrite →
    (s.buffer (s₀.request r).bh).bData = (s₀.buffer (s₀.request r).bh).bData

theorem Active.sameBut (h : Active s0 r n s) (hst : SameBut s t) : Active s0 r n t where
  this := hst.this.trans h.this
  sorting := hst.sorting.trans h.sorting
  hd := h.hd
  req := by rw [hst.request]; exact h.req
  read hc := hst.disk.trans (h.read hc)
  write hc := by rw [hst.buffer]; exact h.write hc

theorem Active.notDone (h : Active s0 r n s) : ¬(s.request r).hd < 0 := by
  obtain ⟨e, he⟩ := h.req
  rw [he]
  exact Int.not_lt.mpr h.hd

/-- The command for `left` sectors is in the controller, or a reset. -/
def Pending (s₀ : Driver) (r : Nat) (left : Nat) (s : Driver) : Prop :=
  let q := s₀.request r
  Resetting s ∨ Issued q q.first left ((s₀.buffer q.bh).bData (left % 2)) s

structure FirstDone (s₀ : Driver) (r : Nat) (s : Driver) : Prop where
  read : (s₀.request r).cmd = .winRead →
    (s.buffer (s₀.request r).bh).bData 0 = s₀.disk (s₀.request r).hd (s₀.request r).first
  write : (s₀.request r).cmd = .winWrite →
    s.disk (s₀.request r).hd (s₀.request r).first = (s₀.buffer (s₀.request r).bh).bData 0

structure Split (s₀ : Driver) (r : Nat) (left : Sector) (s : Driver) : Prop where
  read : (s₀.request r).cmd = .winRead →
    (s.buffer (s₀.request r).bh).bData 0 = s₀.disk (s₀.request r).hd (s₀.request r).first
  write : (s₀.request r).cmd = .winWrite →
    s.disk (s₀.request r).hd ((s₀.request r).first + 1) = left

structure Failed (s₀ : Driver) (r : Nat) (s : Driver) : Prop where
  hd : (s.request r).hd < 0
  uptodate : (s.buffer (s₀.request r).bh).bUptodate = false

/-- After the reset, `do_request` issues the command again. -/
theorem resetting_step {n : Nat} (h : Active s0 r n s) (hr : Resetting s)
    (hi : hdInterrupt s i = some t) :
    i.status = .ready ∧ SameBut s t ∧ Pending s0 r n t := by
  obtain ⟨c, hc, hop, hdo⟩ := hr
  obtain ⟨e, he⟩ := h.req
  simp only [hdInterrupt, hc, Option.bind_some, hdo] at hi
  cases hst : i.status with
  | ok => simp [Command.raise, hop, hst] at hi
  | error left => simp [Command.raise, hop, hst] at hi
  | ready =>
    simp only [Command.raise, hop, hst, Option.bind_some, callHandler] at hi
    obtain ⟨hsame, hpend⟩ := issue_spec (issue_of_doRequest hi h.sorting h.this)
    refine ⟨rfl, ⟨hsame.request, hsame.this, hsame.sorting, hsame.buffer, hsame.disk⟩, ?_⟩
    rcases hpend with hreset | ⟨c', hc', hop', hdr, hlba, hleft, hlatch, hdo'⟩
    · exact .inl hreset
    · simp only [he] at hop' hdr hlba hleft hlatch hdo'
      refine .inr ⟨c', hc', hop', hdr, hlba, by simpa using hleft, fun hw => ?_, hdo'⟩
      rw [hlatch hw, h.write hw]
      congr 1

theorem badRwIntr_step (h : Active s0 r n s) (hb : badRwIntr s r = some t) :
    (SameBut { s with request := t.request } t ∧ Active s0 r n t ∧ Resetting t) ∨
    Failed s0 r t := by
  obtain ⟨e, he⟩ := h.req
  unfold badRwIntr at hb
  simp only [he] at hb
  split at hb
  · obtain ⟨hsame, _⟩ := resetHd_spec hb
    refine .inr ⟨?_, ?_⟩
    · rw [hsame.request]
      simp
    · rw [hsame.buffer]
      simp
  · obtain ⟨hsame, hreset⟩ := resetHd_spec hb
    refine .inl ⟨⟨rfl, hsame.this, hsame.sorting, hsame.buffer, hsame.disk⟩, ?_, hreset⟩
    exact {
      this := hsame.this.trans h.this
      sorting := hsame.sorting.trans h.sorting
      hd := h.hd
      req := ⟨e + 1, by rw [hsame.request]; simp⟩
      read := fun hc => hsame.disk.trans (h.read hc)
      write := fun hc => by rw [hsame.buffer]; exact h.write hc }

/-- An error interrupt leaves the sector being written with `junk`. -/
theorem issued_error {junk : Sector}
    (h : Active s0 r n s) (his : Issued (s0.request r) lba left latch s)
    (hst : i.status = .error junk) (hi : hdInterrupt s i = some t) :
    (Active s0 r n t ∧ Resetting t ∧ t.buffer = s.buffer ∧
      ((s0.request r).cmd = .winWrite →
        t.disk (s0.request r).hd = update (s.disk (s0.request r).hd) lba junk)) ∨
      Failed s0 r t := by
  obtain ⟨c, hc, hop, hdr, hlba, -, -, hdo⟩ := his
  simp only [hdInterrupt, hc, Option.bind_some, hdo, hst] at hi
  cases hcmd : (s0.request r).cmd with
  | winRead =>
    simp only [Command.raise, hop, hcmd, Cmd.op, Cmd.handler, Option.bind_some, callHandler,
      h.this, hst] at hi
    have hact : Active s0 r n
        { s with ctl := none, doHd := some .readIntr, thisRequest := some r } :=
      ⟨rfl, h.sorting, h.hd, h.req, h.read, h.write⟩
    rcases badRwIntr_step hact hi with ⟨hsame, hact', hreset⟩ | hfail
    · exact .inl ⟨hact', hreset, hsame.buffer, by simp⟩
    · exact .inr hfail
  | winWrite =>
    simp only [Command.raise, hop, hcmd, Cmd.op, Cmd.handler, Option.bind_some, callHandler,
      h.this, hst] at hi
    have hact : Active s0 r n
        { s with
          ctl := none
          doHd := some .writeIntr
          thisRequest := some r
          disk := update s.disk c.drive (update (s.disk c.drive) c.lba junk) } :=
      ⟨rfl, h.sorting, h.hd, h.req, by simp [hcmd], h.write⟩
    rcases badRwIntr_step hact hi with ⟨hsame, hact', hreset⟩ | hfail
    · refine .inl ⟨hact', hreset, hsame.buffer, fun _ => ?_⟩
      rw [hsame.disk]
      simp [hdr, hlba]
    · exact .inr hfail

theorem first_ok (h : Active s0 r 2 s) (his : Issued (s0.request r) (s0.request r).first 2
      ((s0.buffer (s0.request r).bh).bData 0) s) (hst : i.status = .ok)
    (hi : hdInterrupt s i = some t) :
    Active s0 r 1 t ∧ FirstDone s0 r t ∧
      Issued (s0.request r) ((s0.request r).first + 1) 1
        ((s0.buffer (s0.request r).bh).bData 1) t := by
  obtain ⟨c, hc, hop, hdr, hlba, hleft, hlatch, hdo⟩ := his
  obtain ⟨e, he⟩ := h.req
  have hadv : c.advance = some { c with lba := (s0.request r).first + 1, left := 1 } := by
    simp [Command.advance, hleft, hlba]
  simp only [hdInterrupt, hc, Option.bind_some, hdo, hst] at hi
  cases hcmd : (s0.request r).cmd with
  | winRead =>
    simp only [Command.raise, hop, hcmd, Cmd.op, Cmd.handler, Option.bind_some, callHandler,
      h.this, hst, readIntr, he, hadv] at hi
    rw [if_pos (by decide), Option.some.injEq] at hi
    subst hi
    refine ⟨⟨rfl, h.sorting, h.hd, ⟨0, by simp [hcmd]⟩, h.read, by simp [hcmd]⟩,
      ⟨fun _ => ?_, by simp [hcmd]⟩,
      ⟨_, rfl, by simp [hcmd, Cmd.op], hdr, rfl, rfl, by simp [hcmd], by simp [hcmd, Cmd.handler]⟩⟩
    simp [h.read hcmd, hdr, hlba]
  | winWrite =>
    simp only [Command.raise, hop, hcmd, Cmd.op, Cmd.handler, Option.bind_some, callHandler,
      h.this, hst, writeIntr, he, hadv] at hi
    rw [if_pos (by decide), Option.some.injEq] at hi
    subst hi
    refine ⟨⟨rfl, h.sorting, h.hd, ⟨e, by simp [portWrite, hcmd]⟩, by simp [hcmd], h.write⟩,
      ⟨by simp [hcmd], fun _ => ?_⟩,
      ⟨_, rfl, by simp [hcmd, Cmd.op], hdr, rfl, rfl, fun _ => ?_,
        by simp [portWrite, hcmd, Cmd.handler]⟩⟩
    · simp [portWrite, hdr, hlba, hlatch hcmd]
    · simp [h.write hcmd]

/-- The interrupt of the last sector ends the request and its half. -/
theorem last_ok (h : Active s0 r 1 s) (his : Issued (s0.request r) lba 1 latch s)
    (hst : i.status = .ok) (hi : hdInterrupt s i = some t) :
    (t.request r).hd < 0 ∧
      ((s0.request r).cmd = .winRead →
        (t.buffer (s0.request r).bh).bData =
          update (s.buffer (s0.request r).bh).bData 1 (s0.disk (s0.request r).hd lba)) ∧
      ((s0.request r).cmd = .winWrite →
        t.disk (s0.request r).hd = update (s.disk (s0.request r).hd) lba latch) := by
  obtain ⟨c, hc, hop, hdr, hlba, hleft, hlatch, hdo⟩ := his
  obtain ⟨e, he⟩ := h.req
  have hadv : c.advance = none := by simp [Command.advance, hleft]
  simp only [hdInterrupt, hc, Option.bind_some, hdo, hst] at hi
  cases hcmd : (s0.request r).cmd with
  | winRead =>
    simp only [Command.raise, hop, hcmd, Cmd.op, Cmd.handler, Option.bind_some, callHandler,
      h.this, hst, readIntr, he, hadv, endRequest] at hi
    have hsame := doRequest_sameBut hi
    refine ⟨by rw [hsame.request]; simp, fun _ => ?_, by simp⟩
    rw [hsame.buffer]
    simp [hdr, hlba, h.read hcmd]
  | winWrite =>
    simp only [Command.raise, hop, hcmd, Cmd.op, Cmd.handler, Option.bind_some, callHandler,
      h.this, hst, writeIntr, he, hadv, endRequest] at hi
    have hsame := doRequest_sameBut hi
    refine ⟨by rw [hsame.request]; simp, by simp, fun _ => ?_⟩
    rw [hsame.disk]
    simp [hdr, hlba, hlatch hcmd]

theorem issued_not_ready {q : Request}
    (his : Issued q lba left latch s) (hi : hdInterrupt s i = some t) : i.status ≠ .ready := by
  intro hst
  obtain ⟨c, hc, hop, -⟩ := his
  cases hcmd : q.cmd <;> simp [hdInterrupt, hc, hst, Command.raise, hop, hcmd, Cmd.op] at hi

end Phases

def firstError : List Intr → Option Sector
  | [] => none
  | i :: is =>
    match i.status with
    | .error left => some left
    | _ => firstError is

/-- What the first error interrupt after a success interrupt leaves in its sector. -/
def splitError : List Intr → Option Sector
  | [] => none
  | i :: is =>
    match i.status with
    | .ok => firstError is
    | _ => splitError is

/-- The first sector was transferred twice, in place of the second. -/
def Doubled (s t : Driver) (r : Nat) (left : Sector) : Prop :=
  let q := s.request r
  match q.cmd with
  | .winRead => ∀ k < 2, (t.buffer q.bh).bData k = s.disk q.hd q.first
  | .winWrite => t.disk q.hd q.first = (s.buffer q.bh).bData 1 ∧ t.disk q.hd (q.first + 1) = left

/-- What has become of the transfer, given the error between its two sectors. -/
def Outcome (s t : Driver) (r : Nat) : Option Sector → Prop
  | none => Transferred s t r
  | some left => Doubled s t r left

section Runs

variable {s0 s t : Driver} {r : Nat} {is : List Intr}

theorem serve_done (hd : (s.request r).hd < 0) (h : serve r is s = some t) :
    is = [] ∧ s = t := by
  cases is with
  | nil => simpa [serve] using h
  | cons i is => simp [serve, hd] at h

theorem serve_split {left : Sector} (h : Active s0 r 1 s) (hp : Pending s0 r 1 s)
    (hsplit : Split s0 r left s) (hrun : serve r is s = some t) (hdone : (t.request r).hd < 0)
    (hup : (t.buffer (s0.request r).bh).bUptodate = true) : Doubled s0 t r left := by
  induction is generalizing s with
  | nil =>
    cases hrun
    exact absurd hdone h.notDone
  | cons i is ih =>
    simp only [serve, if_neg h.notDone] at hrun
    obtain ⟨u, hu, hrest⟩ := Option.bind_eq_some_iff.mp hrun
    rcases hp with hreset | his
    · obtain ⟨-, hsame, hp'⟩ := resetting_step (n := 1) h hreset hu
      refine ih (h.sameBut hsame) hp' ⟨fun hc => ?_, fun hc => ?_⟩ hrest
      · rw [hsame.buffer]
        exact hsplit.read hc
      · rw [hsame.disk]
        exact hsplit.write hc
    · cases hst : i.status with
      | ready => exact absurd hst (issued_not_ready his hu)
      | error junk =>
        rcases issued_error h his hst hu with ⟨hact, hreset, hbuf, hdisk⟩ | hfail
        · refine ih hact (.inl hreset) ⟨fun hc => ?_, fun hc => ?_⟩ hrest
          · rw [hbuf]
            exact hsplit.read hc
          · rw [hdisk hc, update_of_ne (by omega)]
            exact hsplit.write hc
        · obtain ⟨-, rfl⟩ := serve_done hfail.hd hrest
          exact absurd hup (by simp [hfail.uptodate])
      | ok =>
        obtain ⟨hdone', hread, hwrite⟩ := last_ok h his hst hu
        obtain ⟨-, rfl⟩ := serve_done hdone' hrest
        cases hcmd : (s0.request r).cmd with
        | winRead =>
          simp only [Doubled, hcmd]
          intro k hk
          rw [hread hcmd]
          obtain rfl | rfl : k = 0 ∨ k = 1 := by omega
          · simpa using hsplit.read hcmd
          · simp
        | winWrite =>
          simp only [Doubled, hcmd]
          rw [hwrite hcmd]
          exact ⟨by simp, by rw [update_of_ne (by omega)]; exact hsplit.write hcmd⟩

theorem serve_second (h : Active s0 r 1 s) (his : Issued (s0.request r) ((s0.request r).first + 1) 1
      ((s0.buffer (s0.request r).bh).bData 1) s) (hfirst : FirstDone s0 r s)
    (hrun : serve r is s = some t) (hdone : (t.request r).hd < 0)
    (hup : (t.buffer (s0.request r).bh).bUptodate = true) : Outcome s0 t r (firstError is) := by
  cases is with
  | nil =>
    cases hrun
    exact absurd hdone h.notDone
  | cons i is =>
    simp only [serve, if_neg h.notDone] at hrun
    obtain ⟨u, hu, hrest⟩ := Option.bind_eq_some_iff.mp hrun
    cases hst : i.status with
    | ready => exact absurd hst (issued_not_ready his hu)
    | error junk =>
      rcases issued_error h his hst hu with ⟨hact, hreset, hbuf, hdisk⟩ | hfail
      · simp only [firstError, hst]
        refine serve_split hact (.inl hreset) ⟨fun hc => ?_, fun hc => ?_⟩ hrest hdone hup
        · rw [hbuf]
          exact hfirst.read hc
        · rw [hdisk hc]
          simp
      · obtain ⟨-, rfl⟩ := serve_done hfail.hd hrest
        exact absurd hup (by simp [hfail.uptodate])
    | ok =>
      obtain ⟨hdone', hread, hwrite⟩ := last_ok h his hst hu
      obtain ⟨rfl, rfl⟩ := serve_done hdone' hrest
      simp only [firstError, hst, Outcome, Transferred]
      cases hcmd : (s0.request r).cmd with
      | winRead =>
        intro k hk
        rw [hread hcmd]
        obtain rfl | rfl : k = 0 ∨ k = 1 := by omega
        · simpa using hfirst.read hcmd
        · simp
      | winWrite =>
        intro k hk
        rw [hwrite hcmd]
        obtain rfl | rfl : k = 0 ∨ k = 1 := by omega
        · rw [update_of_ne (by omega)]
          exact hfirst.write hcmd
        · simp

theorem serve_first (h : Active s0 r 2 s) (hp : Pending s0 r 2 s)
    (hrun : serve r is s = some t) (hdone : (t.request r).hd < 0)
    (hup : (t.buffer (s0.request r).bh).bUptodate = true) : Outcome s0 t r (splitError is) := by
  induction is generalizing s with
  | nil =>
    cases hrun
    exact absurd hdone h.notDone
  | cons i is ih =>
    simp only [serve, if_neg h.notDone] at hrun
    obtain ⟨u, hu, hrest⟩ := Option.bind_eq_some_iff.mp hrun
    rcases hp with hreset | his
    · obtain ⟨hst, hsame, hp'⟩ := resetting_step (n := 2) h hreset hu
      simp only [splitError, hst]
      exact ih (h.sameBut hsame) hp' hrest
    cases hst : i.status with
    | ready => exact absurd hst (issued_not_ready his hu)
    | error junk =>
      simp only [splitError, hst]
      rcases issued_error h his hst hu with ⟨hact, hreset, -⟩ | hfail
      · exact ih hact (.inl hreset) hrest
      · obtain ⟨-, rfl⟩ := serve_done hfail.hd hrest
        exact absurd hup (by simp [hfail.uptodate])
    | ok =>
      simp only [splitError, hst]
      obtain ⟨hact, hfirst, his'⟩ := first_ok h his hst hu
      exact serve_second hact his' hfirst hrest hdone hup

theorem served_outcome {drq : Bool} (hf : Fresh s r)
    (h : Served s r drq is t) : Outcome s t r (splitError is) := by
  obtain ⟨u, hu, hrest⟩ := Option.bind_eq_some_iff.mp h.run
  obtain ⟨hsame, hpend⟩ := issue_spec (issue_of_doRequest hu hf.sorting hf.this)
  have hact : Active s r 2 s :=
    ⟨hf.this, hf.sorting, hf.hd, ⟨0, by rw [← hf.nsector, ← hf.errors]⟩, fun _ => rfl, fun _ => rfl⟩
  refine serve_first (hact.sameBut hsame) ?_ hrest h.done h.uptodate
  rcases hpend with hreset | his
  · exact .inl hreset
  · exact .inr (by simpa [hf.nsector] using his)

end Runs

/-- The data for which a second transfer of the first sector goes unnoticed. -/
def RetryMatches (s : Driver) (r : Nat) (left : Sector) : Prop :=
  let q := s.request r
  match q.cmd with
  | .winRead => s.disk q.hd q.first = s.disk q.hd (q.first + 1)
  | .winWrite => (s.buffer q.bh).bData 1 = (s.buffer q.bh).bData 0 ∧ left = (s.buffer q.bh).bData 1

/-- A request that completes up to date was transferred exactly when no error came between its
sectors, or the data hide it. -/
theorem transferred_iff {s t : Driver} {r : Nat} {drq : Bool} {is : List Intr} (hf : Fresh s r)
    (h : Served s r drq is t) :
    Transferred s t r ↔ ∀ left, splitError is = some left → RetryMatches s r left := by
  have hout := served_outcome hf h
  cases hsplit : splitError is with
  | none =>
    rw [hsplit] at hout
    simpa [Outcome] using hout
  | some left =>
    rw [hsplit] at hout
    simp only [Option.some.injEq, forall_eq']
    simp only [Outcome, Doubled] at hout
    unfold Transferred RetryMatches
    cases hcmd : (s.request r).cmd with
    | winRead =>
      simp only [hcmd] at hout ⊢
      constructor
      · intro htr
        rw [← htr 1 (by omega), hout 1 (by omega)]
      · intro heq k hk
        obtain rfl | rfl : k = 0 ∨ k = 1 := by omega
        · exact hout 0 (by omega)
        · rw [hout 1 (by omega), heq]
    | winWrite =>
      simp only [hcmd] at hout ⊢
      constructor
      · intro htr
        exact ⟨hout.1.symm.trans (htr 0 (by omega)), hout.2.symm.trans (htr 1 (by omega))⟩
      · rintro ⟨hhalf, hleft⟩ k hk
        obtain rfl | rfl : k = 0 ∨ k = 1 := by omega
        · exact hout.1.trans hhalf
        · exact hout.2.trans hleft

/-- The first request reads two sectors; sector `n` has the bytes `n`. -/
def readingTwo : Driver where
  request _ := ⟨0, 2, 1, 0, 0, .winRead, 0, 0, none⟩
  thisRequest := some 0
  sorting := false
  doHd := none
  buffer _ := ⟨fun _ _ => 0, false, false, true⟩
  disk _ n _ := UInt8.ofNat n
  ctl := none

theorem readingTwo_fresh : Fresh readingTwo 0 := ⟨rfl, rfl, by decide, rfl, rfl⟩

/-- An error before the first sector, after which both sectors are transferred. -/
theorem transferred_iff_readingTwo : ∃ t, Served readingTwo 0 true
    [⟨.error fun _ => 0, true⟩, ⟨.ready, true⟩, ⟨.ok, true⟩, ⟨.ok, true⟩] t ∧
      Transferred readingTwo t 0 := by
  have hs : ∃ t, Served readingTwo 0 true
      [⟨.error fun _ => 0, true⟩, ⟨.ready, true⟩, ⟨.ok, true⟩, ⟨.ok, true⟩] t :=
    ⟨_, ⟨rfl, by decide, rfl⟩⟩
  obtain ⟨t, ht⟩ := hs
  refine ⟨t, ht, (transferred_iff readingTwo_fresh ht).mpr fun left hleft => ?_⟩
  cases hleft

/-- An error in the second sector: the retry puts the first one there. -/
theorem not_transferred_after_split : ¬∀ (s t : Driver) (r : Nat) (drq : Bool) (is : List Intr),
    Fresh s r → Served s r drq is t → Transferred s t r := by
  intro hall
  have hs : ∃ t, Served readingTwo 0 true
      [⟨.ok, true⟩, ⟨.error fun _ => 0, true⟩, ⟨.ready, true⟩, ⟨.ok, true⟩] t :=
    ⟨_, ⟨rfl, by decide, rfl⟩⟩
  obtain ⟨t, ht⟩ := hs
  have hsecond := (served_outcome readingTwo_fresh ht) 1 (by decide)
  have hwanted := (hall _ _ _ _ _ readingTwo_fresh ht) 1 (by decide)
  have hbyte := congrFun (hsecond.symm.trans hwanted) 0
  exact absurd hbyte (by decide)

end Linux001.Hd
