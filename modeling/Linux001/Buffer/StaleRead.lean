import Linux001.Buffer.Freshness

/-! What `bread` returns. `getblk` takes a dirty buffer out of the queues before `sync_dev` writes
it; until then the block is neither in the cache nor on the disk, and another `bread` reads its old
contents. -/

namespace Linux001.Buffer

open Function ProofKit

variable {α : Type} {e : Event α}

structure Tracked (α : Type) where
  state : State α
  latest : Nat × Nat → α

/-- One event, the latest modification of a block if it changes a buffer. -/
def track (x : Tracked α) (e : Event α) : Option (Tracked α) :=
  (step x.state e).map fun s =>
    ⟨s, match e with
      | .change _ bh data _ _ => update x.latest (x.state.cache.key bh) data
      | _ => x.latest⟩

/-- A buffer from `bread` is changed while no transfer is under way; no disk errors. -/
def Uses (s : State α) : Event α → Prop
  | .change _ bh _ uptodate dirt =>
    uptodate = true ∧ dirt = true ∧ s.cache.bLock bh = false ∧ s.cache.bUptodate bh = true
  | .intr _ o => o = .ok
  | _ => True

def StartsRead (s : State α) (e : Event α) (k : Nat × Nat) : Prop :=
  ∃ p t bh r, e = .run p ∧ step s e = some t ∧
    (t.process p).pc = .rwRequest .read bh (.bread r) ∧ k = (r.dev, r.block)

def Undisturbed (s : State α) (e : Event α) : Prop :=
  ∀ k, StartsRead s e k → ∀ b, Private s b → s.cache.bDirt b = true → s.cache.key b ≠ k

def Pc.request : Pc → Option Request
  | .find r | .waitHash r _ | .releaseHash r _ | .scan r _ | .waitScan r _ | .sleep r
  | .sync r _ _ _ | .waitSync r _ _ _ | .assign r _ => some r
  | .rwRequest _ _ k | .waitRw _ k =>
    match k with
    | .syncDev r _ _ _ | .bread r => some r
  | .idle | .release _ => none

def BreadReturns (s t : State α) (p bh : Nat) (r : Request) : Prop :=
  (s.process p).pc.request = some r ∧ r.call = .bread ∧
    t.process p = ⟨.idle, bh :: (s.process p).refs⟩

structure Start (x : Tracked α) : Prop where
  inv : Inv x.state
  idle : ∀ p, x.state.process p = ⟨.idle, []⟩
  unlocked : ∀ b, x.state.cache.pending b = none
  uptodate : ∀ b, x.state.cache.bUptodate b = true →
    b < x.state.cache.nrBuffers ∧ Valid x.state.cache x.latest b
  dirty : ∀ b, x.state.cache.bDirt b = true → x.state.cache.bUptodate b = true
  disk : ∀ k, (∀ b, x.state.cache.bDirt b = true → x.state.cache.key b ≠ k) →
    x.state.cache.disk k.1 k.2 = x.latest k

theorem Start.fresh {x : Tracked α} (h : Start x) : Fresh x.state x.latest := by
  have hbusy : ∀ rw b, ¬Busy x.state rw b := by
    rintro rw b (hb | ⟨p, -, k, hk⟩)
    · rw [h.unlocked] at hb
      cases hb
    · rw [h.idle] at hk
      cases hk
  have hcached : ∀ b, x.state.cache.bUptodate b = true → Cached x.state b := by
    refine fun b hb => ⟨(h.uptodate b hb).1, ?_⟩
    rintro ⟨p, -, hv⟩
    rw [h.idle] at hv
    cases hv
  constructor
  · exact fun b _ hu => (h.uptodate b hu).2
  · exact fun b hd =>
      ⟨(h.uptodate b (h.dirty b hd)).1, h.dirty b hd, (h.uptodate b (h.dirty b hd)).2⟩
  · exact h.disk
  · intro a b ha hab hk
    have hua := h.dirty a ha
    have hub : x.state.cache.bUptodate b = false := by
      by_contra hub
      have hub : x.state.cache.bUptodate b = true := by simpa using hub
      exact hab (h.inv.key_unique (hcached a hua) (hcached b hub) (h.uptodate a hua).2.dev hk)
    refine ⟨?_, fun _ => hub⟩
    by_contra hd
    rw [h.dirty b (by simpa using hd)] at hub
    cases hub
  · exact fun rw b hb => absurd hb (hbusy rw b)
  · exact fun b hb => absurd hb (hbusy _ b)
  · exact fun b hb => absurd hb (hbusy _ b)
  · intro p _ rw b k hk
    rw [h.idle] at hk
    cases hk
  · intro p _
    rw [h.idle]
    trivial

theorem start_boot (c : Cache α) {n : Nat} (hn : nrTasks < n) (hp : ∀ b, c.pending b = none) :
    Start ⟨boot c n, fun k => c.disk k.1 k.2⟩ where
  inv := boot_inv c hn
  idle _ := rfl
  unlocked := hp
  uptodate _ := nofun
  dirty _ := nofun
  disk _ _ := rfl

theorem track_fresh {x y : Tracked α} (hx : Inv x.state ∧ Fresh x.state x.latest)
    (hok : Uses x.state e ∧ Undisturbed x.state e) (h : track x e = some y) :
    Inv y.state ∧ Fresh y.state y.latest := by
  obtain ⟨t, ht, rfl⟩ := Option.map_eq_some_iff.mp h
  obtain ⟨hs, hf⟩ := hx
  refine ⟨step_inv hs ht, ?_⟩
  cases step_steps ht with
  | call hp hpc hlen =>
    exact hf.keep hp rfl trivial rfl nofun (by rw [hpc]; exact nofun) (by rw [hpc]; rfl)
  | brelse hp hpc hmem =>
    exact hf.keep hp rfl trivial rfl nofun (by rw [hpc]; exact nofun) (by rw [hpc]; rfl)
  | change hp hmem =>
    obtain ⟨⟨rfl, rfl, hl, hu⟩, -⟩ := hok
    exact hf.change hs hp hmem hl hu rfl
  | @run p c P cur hp hm =>
    refine hf.moves hs hp hm fun b r hpc a ha hd => ?_
    exact hok.2 _ ⟨p, _, b, r, rfl, ht, by simpa [State.become] using hpc, rfl⟩ a ha hd
  | leave => exact ⟨hf.cached, hf.dirty, hf.disk, hf.alone, hf.locked, hf.reading, hf.writing,
      hf.single, hf.pcs⟩
  | intr hc =>
    obtain rfl := hok.1
    exact hf.endRequest hc

theorem Moves.of_bread {c c' : Cache α} {P P' : Process} (hm : Moves c P c' P') {r : Request}
    (hr : P.pc.request = some r) (hcall : r.call = .bread) {bh : Nat}
    (hP : P' = ⟨.idle, bh :: P.refs⟩) :
    c' = c ∧ c.bUptodate bh = true ∧ (P.pc = .waitHash r bh ∧ c.key bh = (r.dev, r.block) ∨
      P.pc = .waitRw bh (.bread r)) := by
  cases hm with
  | got hl hd hb hg =>
    cases hr
    cases hg with
    | give hu =>
      obtain rfl : _ = bh := by simpa using hP
      exact ⟨rfl, hu hcall, .inl ⟨rfl, Prod.ext hd hb⟩⟩
    | _ => simp at hP
  | done hl hu =>
    cases hr
    obtain rfl : _ = bh := by simpa using hP
    exact ⟨rfl, hu, .inr rfl⟩
  | assigned hf hg =>
    cases hr
    cases hg with
    | give hu => simpa [insertIntoQueues, assignBuffer] using hu hcall
    | _ => simp at hP
  | released hc => cases hr
  | skip =>
    simp only [Process.mk.injEq] at hP
    exact absurd hP.2 (List.cons_ne_self _ _).symm
  | lost =>
    simp only [Process.mk.injEq] at hP
    exact absurd hP.2 (List.cons_ne_self _ _).symm
  | _ => simp at hP

theorem Steps.process_eq {s t : State α} (h : Steps s e t) {p : Nat}
    (he : e ≠ .run p) (hpc : (s.process p).pc ≠ .idle) : t.process p = s.process p := by
  cases h with
  | call hq hidle hlen => exact update_of_ne (by rintro rfl; exact hpc hidle) _ _
  | brelse hq hidle hmem => exact update_of_ne (by rintro rfl; exact hpc hidle) _ _
  | run hq hm => exact update_of_ne (by rintro rfl; exact he rfl) _ _
  | _ => rfl

/-- Where no `bread` reads a dirty private block, each returns the latest contents. -/
theorem bread_latest {x y z : Tracked α} (hx : Start x)
    (h : Reaches track (fun x e => Uses x.state e ∧ Undisturbed x.state e) x y) {e : Event α}
    (he : track y e = some z) {p bh : Nat} {r : Request}
    (hret : BreadReturns y.state z.state p bh r) :
    z.state.cache.key bh = (r.dev, r.block) ∧
      z.state.cache.bData bh = z.latest (r.dev, r.block) := by
  obtain ⟨hs, hf⟩ := h.invariant (P := fun x => Inv x.state ∧ Fresh x.state x.latest)
    (fun _ _ _ hx hok hxy => track_fresh hx hok hxy) ⟨hx.inv, hx.fresh⟩
  obtain ⟨t, ht, rfl⟩ := Option.map_eq_some_iff.mp he
  obtain ⟨hr, hcall, hP⟩ := hret
  have hidle : (y.state.process p).pc ≠ .idle := by
    intro hidle
    rw [hidle] at hr
    cases hr
  have hrun : e = .run p := by
    by_contra hne
    rw [(step_steps ht).process_eq hne hidle] at hP
    exact hidle (congrArg Process.pc hP)
  subst hrun
  cases step_steps ht with
  | @run _ c P cur hp hm =>
    obtain ⟨rfl, hu, hpc⟩ := hm.of_bread hr hcall (by simpa [State.become] using hP)
    have hholds : (y.state.process p).pc.holds = some bh ∧
      (y.state.process p).pc.victim = none := by
      rcases hpc with ⟨hpc, -⟩ | hpc <;> rw [hpc] <;> exact ⟨rfl, rfl⟩
    have hkey : y.state.cache.key bh = (r.dev, r.block) := by
      rcases hpc with ⟨-, hk⟩ | hpc
      · exact hk
      · have hok := hf.pcs p hp
        rw [hpc] at hok
        exact hok
    have hcb : Cached y.state bh := hs.cached_of_refs hp (Process.one_le_refsTo hholds.1)
      (by rw [hholds.2]; rintro ⟨⟩)
    refine ⟨hkey, ?_⟩
    rw [← hkey]
    exact (hf.cached bh hcb hu).data

instance decidableUses (s : State α) : (e : Event α) → Decidable (Uses s e)
  | .change .. => inferInstanceAs (Decidable (_ ∧ _ ∧ _ ∧ _))
  | .intr _ .ok => isTrue rfl
  | .intr _ (.failed _) => isFalse nofun
  | .call .. | .brelse .. | .run _ | .leave _ => isTrue trivial

def calm (x : Tracked α) (e : Event α) : Bool :=
  decide (Uses x.state e) && (List.range nrTasks).all fun p =>
    match (x.state.process p).pc.victim with
    | some b => !x.state.cache.bDirt b
    | none => true

theorem calm_ok (x : Tracked α) (e : Event α) (h : calm x e = true) :
    Uses x.state e ∧ Undisturbed x.state e := by
  obtain ⟨he, hall⟩ := Bool.and_eq_true_iff.mp h
  refine ⟨of_decide_eq_true he, ?_⟩
  rintro k - b ⟨p, hp, hv⟩ hd
  have hb := List.all_eq_true.mp hall p (List.mem_range.mpr hp)
  rw [hv] at hb
  simp [hd] at hb

/-- A process reads and changes a block, and another reads it. -/
def breadChanged : List (Event Bool) :=
  .call 0 ⟨.bread, 0x301, 5⟩ :: List.replicate 5 (.run 0) ++ [.intr 0 .ok, .run 0,
    .change 0 0 false true true, .leave 0, .call 1 ⟨.bread, 0x301, 5⟩, .run 1]

theorem bread_latest_changed :
    ∃ y z : Tracked Bool, BreadReturns y.state z.state 1 0 ⟨.bread, 0x301, 5⟩ ∧
      z.latest (0x301, 5) = false ∧ z.state.cache.bData 0 = false := by
  have hrun : ((run (fun x e => if calm x e then track x e else none) breadChanged
      ⟨boot (blank true) 65, fun _ => true⟩).bind fun y => (track y (.run 1)).map fun z =>
        (y.state.process 1, z.state.process 1, z.latest (0x301, 5))) =
      some (⟨.waitHash ⟨.bread, 0x301, 5⟩ 0, []⟩, ⟨.idle, [0]⟩, false) := by decide +kernel
  obtain ⟨y, hy, hz⟩ := Option.bind_eq_some_iff.mp hrun
  obtain ⟨z, hz, hP⟩ := Option.map_eq_some_iff.mp hz
  simp only [Prod.mk.injEq] at hP
  obtain ⟨hPy, hPz, hlatest⟩ := hP
  have hret : BreadReturns y.state z.state 1 0 ⟨.bread, 0x301, 5⟩ :=
    ⟨by rw [hPy]; rfl, rfl, by rw [hPy, hPz]⟩
  exact ⟨y, z, hret, hlatest, (bread_latest (start_boot (blank true) (by decide) fun _ => rfl)
    (reaches_of_checked calm_ok hy) hz hret).2.trans hlatest⟩

/-- Buffers 0 and 1 are dirty with blocks 10 and 20; contents are `true` once modified. -/
def dirtyVictim : Tracked Bool where
  state :=
    { cache := { bufferInit (blank false) 65 with
        queues := { (bufferInit (blank false) 65).queues with
          hashTable := fun h =>
            if h = hashfn 0x301 10 then some 0 else if h = hashfn 0x301 20 then some 1 else none
          freeList := 1 }
        bDev := fun b => if b < 2 then 0x301 else 0
        bBlocknr := fun b => if b = 0 then 10 else 20
        bUptodate := fun b => decide (b < 2)
        bDirt := fun b => decide (b < 2)
        bData := fun b => decide (b < 2) }
      process := fun _ => ⟨.idle, []⟩
      current := none }
  latest := fun k => decide (k = (0x301, 10) ∨ k = (0x301, 20))

theorem dirtyVictim_dev {b : Nat} (h : dirtyVictim.state.cache.bDev b ≠ 0) : b = 0 ∨ b = 1 := by
  have hb : b < 2 := by
    by_contra hb
    exact h (if_neg hb)
  omega

theorem wf_dirtyVictim : Wf dirtyVictim.state.cache
    (fun h => if h = hashfn 0x301 10 then [0] else if h = hashfn 0x301 20 then [1] else [])
    (List.range 65) := by
  refine ⟨⟨fun h => ?_, fun h => ?_, fun h b => ?_, fun _ _ _ => ⟨rfl, rfl⟩,
    Ring.range (by decide), List.nodup_range, by decide⟩,
    fun b hb => List.mem_range.mp hb, fun a _ b _ hd hdev hblk => ?_⟩
  · show DList _ _ none (if _ then _ else if _ then _ else _) _
    split
    · exact ⟨rfl, rfl, rfl⟩
    · split
      · exact ⟨rfl, rfl, rfl⟩
      · rfl
  · split
    · simp
    · split <;> simp
  · constructor
    · intro hb
      split at hb
      · rename_i hh
        obtain rfl := List.mem_singleton.mp hb
        exact ⟨by decide, by decide, hh.symm⟩
      · split at hb
        · rename_i hh
          obtain rfl := List.mem_singleton.mp hb
          exact ⟨by decide, by decide, hh.symm⟩
        · cases hb
    · rintro ⟨-, hd, rfl⟩
      rcases dirtyVictim_dev hd with rfl | rfl <;> decide
  · rcases dirtyVictim_dev hd with rfl | rfl <;>
      rcases dirtyVictim_dev (hdev ▸ hd) with rfl | rfl <;>
        first | rfl | exact absurd hblk (by decide)

theorem start_dirtyVictim : Start dirtyVictim where
  inv := .of_idle (by decide) (fun _ => rfl) (fun _ => rfl) _ wf_dirtyVictim
    fun b hb => bufferInit_links (blank false) hb
  idle _ := rfl
  unlocked _ := rfl
  uptodate b hb := by
    have hb : b < 2 := of_decide_eq_true hb
    obtain rfl | rfl : b = 0 ∨ b = 1 := by omega
    · exact ⟨by decide, by decide, by decide, rfl⟩
    · exact ⟨by decide, by decide, by decide, rfl⟩
  dirty _ hb := hb
  disk k hk := by
    refine (decide_eq_false ?_).symm
    rintro (rfl | rfl)
    · exact hk 0 rfl rfl
    · exact hk 1 rfl rfl

/-- Process 0 takes buffer 1 and sleeps in `sync_dev`; process 1 reads block 20. -/
def readsEvicted : List (Event Bool) :=
  .call 0 ⟨.bread, 0x301, 30⟩ :: List.replicate 6 (.run 0) ++
    .call 1 ⟨.bread, 0x301, 20⟩ :: List.replicate 5 (.run 1) ++ [.intr 2 .ok]

theorem bread_stale :
    Start dirtyVictim ∧ ∃ y z : Tracked Bool,
      Reaches track (fun x e => Uses x.state e) dirtyVictim y ∧
      track y (.run 1) = some z ∧ BreadReturns y.state z.state 1 2 ⟨.bread, 0x301, 20⟩ ∧
      z.state.cache.bData 2 ≠ z.latest (0x301, 20) := by
  have hrun : ((run (fun x e => if decide (Uses x.state e) then track x e else none) readsEvicted
      dirtyVictim).bind fun y => (track y (.run 1)).map fun z =>
        (y.state.process 1, z.state.process 1, z.state.cache.bData 2, z.latest (0x301, 20))) =
      some (⟨.waitRw 2 (.bread ⟨.bread, 0x301, 20⟩), []⟩, ⟨.idle, [2]⟩, false, true) := by
    decide +kernel
  obtain ⟨y, hy, hz⟩ := Option.bind_eq_some_iff.mp hrun
  obtain ⟨z, hz, hP⟩ := Option.map_eq_some_iff.mp hz
  simp only [Prod.mk.injEq] at hP
  obtain ⟨hPy, hPz, hdata, hlatest⟩ := hP
  exact ⟨start_dirtyVictim, y, z, reaches_of_checked (fun _ _ => of_decide_eq_true) hy, hz,
    ⟨by rw [hPy]; rfl, rfl, by rw [hPy, hPz]⟩, by rw [hdata, hlatest]; decide⟩

end Linux001.Buffer
