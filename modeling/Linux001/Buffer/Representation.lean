import Linux001.Buffer.Moves
import Linux001.Buffer.Queues
import Linux001.ProofKit.Runs

/-! The representation invariant of the buffer cache, for any interleaving: each reference of a
process is counted in `b_count`, and a buffer out of the queues has that of its `getblk` only. -/

namespace Linux001.Buffer

open Function ProofKit

variable {α : Type} {b q n : Nat} {P : Process} {c : Cache α} {free : List Nat} {r : Request}
  {s : State α} {e : Event α} {c' : Cache α} {t : State α}

def Pc.holds : Pc → Option Nat
  | .waitHash _ bh | .releaseHash _ bh | .release bh => some bh
  | .sync _ tmp _ _ | .waitSync _ tmp _ _ | .assign _ tmp => some tmp
  | .rwRequest _ bh k | .waitRw bh k =>
    match k with
    | .syncDev _ tmp _ _ => some tmp
    | .bread _ => some bh
  | _ => none

/-- The buffer that a process has taken out of the queues. -/
def Pc.victim : Pc → Option Nat
  | .sync _ tmp _ _ | .waitSync _ tmp _ _ | .assign _ tmp => some tmp
  | .rwRequest _ _ k | .waitRw _ k =>
    match k with
    | .syncDev _ tmp _ _ => some tmp
    | .bread _ => none
  | _ => none

def Pc.cursor : Pc → Option Nat
  | .scan _ tmp | .waitScan _ tmp => some tmp
  | _ => none

theorem Pc.holds_of_victim {pc : Pc} (h : pc.victim = some b) : pc.holds = some b := by
  cases pc with
  | rwRequest rw bh k => cases k <;> first | exact h | cases h
  | waitRw bh k => cases k <;> first | exact h | cases h
  | sync | waitSync | assign => exact h
  | _ => cases h

namespace Process

def refsTo (P : Process) (b : Nat) : Nat :=
  P.refs.count b + if P.pc.holds = some b then 1 else 0

def load (P : Process) : Nat :=
  P.refs.length + if P.pc = .idle then 0 else 1

theorem refsTo_le_load (P : Process) (b : Nat) : P.refsTo b ≤ P.load := by
  have hcount : P.refs.count b ≤ P.refs.length := List.count_le_length
  have hpc : (if P.pc.holds = some b then 1 else 0) ≤ if P.pc = .idle then 0 else 1 := by
    split
    · rename_i hb
      rw [if_neg (by rintro hidle; simp [hidle, Pc.holds] at hb)]
    · omega
  unfold refsTo load
  omega

theorem one_le_refsTo (h : P.pc.holds = some b) : 1 ≤ P.refsTo b := by
  simp [refsTo, h]

end Process

def State.refsTo (s : State α) (b : Nat) : Nat :=
  ∑ p ∈ Finset.range nrTasks, (s.process p).refsTo b

def Private (s : State α) (b : Nat) : Prop :=
  ∃ p < nrTasks, (s.process p).pc.victim = some b

structure Inv (s : State α) : Prop where
  room : nrTasks < s.cache.nrBuffers
  wf : ∃ chain free, Wf s.cache chain free ∧
    ∀ b, b ∈ free ↔ b < s.cache.nrBuffers ∧ ¬Private s b
  counted : ∀ b, s.cache.bCount b = s.refsTo b
  alone : ∀ b, Private s b → s.cache.bCount b = 1
  known : ∀ p < nrTasks, ∀ b, 1 ≤ (s.process p).refsTo b → b < s.cache.nrBuffers
  load : ∀ p < nrTasks, (s.process p).load ≤ maxRefs
  cursor : ∀ p < nrTasks, ∀ b, (s.process p).pc.cursor = some b → b < s.cache.nrBuffers
  links : ∀ b < s.cache.nrBuffers, s.cache.queues.bNextFree b < s.cache.nrBuffers

theorem become_become (s : State α) (p : Nat) (c c' : Cache α) (P P' : Process)
    (cur cur' : Option Nat) :
    (s.become p c P cur).become p c' P' cur' = s.become p c' P' cur' := by
  simp [State.become]

section Counting

variable {s : State α} {p b : Nat} {c : Cache α} {P : Process} {cur : Option Nat}

theorem refsTo_become (s : State α) (c : Cache α) (P : Process) (cur : Option Nat) (b : Nat)
    (hp : p < nrTasks) :
    (s.become p c P cur).refsTo b + (s.process p).refsTo b = s.refsTo b + P.refsTo b := by
  have hmem : p ∈ Finset.range nrTasks := Finset.mem_range.mpr hp
  have hrest : ∑ q ∈ (Finset.range nrTasks).erase p, ((s.become p c P cur).process q).refsTo b =
      ∑ q ∈ (Finset.range nrTasks).erase p, (s.process q).refsTo b :=
    Finset.sum_congr rfl fun q hq => by
      simp only [State.become, update_of_ne (Finset.ne_of_mem_erase hq)]
  have hself : ((s.become p c P cur).process p).refsTo b = P.refsTo b := by
    simp only [State.become, update_self]
  simp only [State.refsTo]
  rw [← Finset.add_sum_erase _ _ hmem,
    ← Finset.add_sum_erase _ (fun q => (s.process q).refsTo b) hmem,
    hrest, hself]
  omega

theorem private_become (hp : p < nrTasks) :
    Private (s.become p c P cur) b ↔
      P.pc.victim = some b ∨ ∃ q < nrTasks, q ≠ p ∧ (s.process q).pc.victim = some b := by
  constructor
  · rintro ⟨q, hq, hv⟩
    by_cases hqp : q = p
    · subst hqp
      exact .inl (by simpa [State.become] using hv)
    · exact .inr ⟨q, hq, hqp, by simpa [State.become, hqp] using hv⟩
  · rintro (hv | ⟨q, hq, hqp, hv⟩)
    · exact ⟨p, hp, by simpa [State.become] using hv⟩
    · exact ⟨q, hq, by simpa [State.become, hqp] using hv⟩

theorem refsTo_le (hl : ∀ p < nrTasks, (s.process p).load ≤ maxRefs) (b : Nat) :
    s.refsTo b ≤ nrTasks * maxRefs := by
  have hsum := Finset.sum_le_card_nsmul (Finset.range nrTasks) (fun q => (s.process q).refsTo b)
    maxRefs fun q hq => ((s.process q).refsTo_le_load b).trans (hl q (Finset.mem_range.mp hq))
  simpa [State.refsTo] using hsum

theorem le_refsTo (hp : p < nrTasks) : (s.process p).refsTo b ≤ s.refsTo b :=
  Finset.single_le_sum (f := fun q => (s.process q).refsTo b) (fun _ _ => Nat.zero_le _)
    (Finset.mem_range.mpr hp)

theorem add_le_refsTo (hp : p < nrTasks) (hq : q < nrTasks) (hpq : p ≠ q) :
    (s.process p).refsTo b + (s.process q).refsTo b ≤ s.refsTo b := by
  have hmem : p ∈ Finset.range nrTasks := Finset.mem_range.mpr hp
  have hrest := Finset.single_le_sum (f := fun q => (s.process q).refsTo b)
    (s := (Finset.range nrTasks).erase p) (fun _ _ => Nat.zero_le _)
    (Finset.mem_erase.mpr ⟨hpq.symm, Finset.mem_range.mpr hq⟩)
  simp only [State.refsTo]
  rw [← Finset.add_sum_erase _ _ hmem]
  omega

end Counting

structure Same (c c' : Cache α) : Prop where
  nrBuffers : c'.nrBuffers = c.nrBuffers
  queues : c'.queues = c.queues
  bDev : c'.bDev = c.bDev
  bBlocknr : c'.bBlocknr = c.bBlocknr
  bCount : c'.bCount = c.bCount

theorem Same.refl (c : Cache α) : Same c c := ⟨rfl, rfl, rfl, rfl, rfl⟩

theorem Wf.same {chain : Nat → List Nat} (w : Wf c chain free) (h : Same c c') : Wf c' chain free :=
  w.congr h.queues h.nrBuffers fun _ _ => ⟨by rw [h.bDev], by rw [h.bBlocknr]⟩

namespace Inv

variable {s : State α} {p b : Nat} {c c' : Cache α} {P : Process} {cur : Option Nat}

/-- A reference to `b` keeps other processes from having it privately. -/
theorem not_private (hs : Inv s) (hp : p < nrTasks) (hr : 1 ≤ (s.process p).refsTo b)
    (hv : (s.process p).pc.victim ≠ some b) : ¬Private s b := by
  rintro ⟨q, hq, hvq⟩
  have hpq : p ≠ q := by
    rintro rfl
    exact hv hvq
  have hsum := add_le_refsTo (s := s) (b := b) hp hq hpq
  have hone := Process.one_le_refsTo (Pc.holds_of_victim hvq)
  have hcount := hs.counted b
  rw [hs.alone b ⟨q, hq, hvq⟩] at hcount
  omega

theorem owner_eq (hs : Inv s) (hp : p < nrTasks) (hq : q < nrTasks)
    (hvp : (s.process p).pc.victim = some b) (hvq : (s.process q).pc.victim = some b) : p = q := by
  by_contra hpq
  have hsum := add_le_refsTo (s := s) (b := b) hp hq hpq
  have hone := Process.one_le_refsTo (Pc.holds_of_victim hvp)
  have hone' := Process.one_le_refsTo (Pc.holds_of_victim hvq)
  have hcount := hs.counted b
  rw [hs.alone b ⟨q, hq, hvq⟩] at hcount
  omega

theorem victim_lt (hs : Inv s) (hp : p < nrTasks) (hv : (s.process p).pc.victim = some b) :
    b < s.cache.nrBuffers :=
  hs.known p hp b (Process.one_le_refsTo (Pc.holds_of_victim hv))

theorem known_of_le (hs : Inv s) (hp : p < nrTasks) (hb : b < s.cache.nrBuffers)
    (hr : ∀ a, P.refsTo a ≤ (s.process p).refsTo a + if a = b then 1 else 0) (a : Nat)
    (ha : 1 ≤ P.refsTo a) : a < s.cache.nrBuffers := by
  by_cases hab : a = b
  · exact hab ▸ hb
  · have hra := hr a
    rw [if_neg hab] at hra
    exact hs.known p hp a (ha.trans hra)

theorem become (hs : Inv s) (hp : p < nrTasks) (hn : c'.nrBuffers = s.cache.nrBuffers)
    (hwf : ∃ chain free, Wf c' chain free ∧
      ∀ b, b ∈ free ↔ b < s.cache.nrBuffers ∧ ¬Private (s.become p c' P cur) b)
    (hcount : ∀ b, c'.bCount b + (s.process p).refsTo b = s.cache.bCount b + P.refsTo b)
    (halone : ∀ b, Private (s.become p c' P cur) b → c'.bCount b = 1)
    (hknown : ∀ b, 1 ≤ P.refsTo b → b < s.cache.nrBuffers)
    (hload : P.load ≤ maxRefs) (hcur : ∀ b, P.pc.cursor = some b → b < s.cache.nrBuffers)
    (hlinks : ∀ b < s.cache.nrBuffers, c'.queues.bNextFree b < s.cache.nrBuffers) :
    Inv (s.become p c' P cur) := by
  refine ⟨?_, ?_, ?_, halone, ?_, ?_, ?_, ?_⟩
  · exact hn ▸ hs.room
  · simpa only [State.become, hn] using hwf
  · intro b
    have hsum := refsTo_become s c' P cur b hp
    have hold := hs.counted b
    have hnew := hcount b
    show c'.bCount b = _
    omega
  · intro q hq b hb
    show b < c'.nrBuffers
    rw [hn]
    by_cases hqp : q = p
    · subst hqp
      exact hknown b (by simpa [State.become] using hb)
    · exact hs.known q hq b (by simpa [State.become, hqp] using hb)
  · intro q hq
    by_cases hqp : q = p
    · subst hqp
      simpa [State.become] using hload
    · simpa [State.become, hqp] using hs.load q hq
  · intro q hq b hb
    show b < c'.nrBuffers
    rw [hn]
    by_cases hqp : q = p
    · subst hqp
      exact hcur b (by simpa [State.become] using hb)
    · exact hs.cursor q hq b (by simpa [State.become, hqp] using hb)
  · simpa only [State.become, hn] using hlinks

theorem private_iff (hp : p < nrTasks) (hv : P.pc.victim = (s.process p).pc.victim) :
    Private (s.become p c P cur) b ↔ Private s b := by
  rw [private_become hp, hv]
  constructor
  · rintro (hv | ⟨q, hq, -, hv⟩)
    · exact ⟨p, hp, hv⟩
    · exact ⟨q, hq, hv⟩
  · rintro ⟨q, hq, hv⟩
    by_cases hqp : q = p
    · exact .inl (hqp ▸ hv)
    · exact .inr ⟨q, hq, hqp, hv⟩

theorem keep (hs : Inv s) (hp : p < nrTasks) (hc : Same s.cache c')
    (hv : P.pc.victim = (s.process p).pc.victim) (hr : ∀ b, P.refsTo b = (s.process p).refsTo b)
    (hload : P.load ≤ maxRefs) (hcur : ∀ b, P.pc.cursor = some b → b < s.cache.nrBuffers) :
    Inv (s.become p c' P cur) := by
  obtain ⟨chain, free, hw, hfree⟩ := hs.wf
  refine hs.become hp hc.nrBuffers ⟨chain, free, hw.same hc, fun b => ?_⟩ (fun b => ?_)
    (fun b hb => ?_) (fun b hb => hs.known p hp b (hr b ▸ hb)) hload hcur ?_
  · rw [hfree, private_iff hp hv]
  · rw [hr b, hc.bCount]
  · rw [hc.bCount]
    exact hs.alone b ((private_iff hp hv).mp hb)
  · rw [hc.queues]
    exact hs.links

theorem acquire (hs : Inv s) (hp : p < nrTasks) (hb : b < s.cache.nrBuffers) (hpriv : ¬Private s b)
    (hv : P.pc.victim = (s.process p).pc.victim)
    (hr : ∀ a, P.refsTo a = (s.process p).refsTo a + if a = b then 1 else 0)
    (hload : P.load ≤ maxRefs) (hcur : P.pc.cursor = none) :
    Inv (s.become p (countUp s.cache b) P cur) := by
  obtain ⟨chain, free, hw, hfree⟩ := hs.wf
  refine hs.become hp rfl ⟨chain, free, ⟨hw.queues, hw.bound, hw.unique⟩, fun a => ?_⟩ (fun a => ?_)
    (fun a ha => ?_) (hs.known_of_le hp hb fun a => (hr a).le) hload
    (fun a ha => by rw [hcur] at ha; cases ha) hs.links
  · rw [hfree, private_iff hp hv]
  · have hle := refsTo_le hs.load b
    have hcount := hs.counted b
    rw [hr a]
    by_cases hab : a = b
    · subst hab
      simp only [countUp, update_self, if_pos, nrTasks, maxRefs] at hle ⊢
      omega
    · simp only [countUp, update_of_ne hab, if_neg hab]
      omega
  · have ha' := (private_iff hp hv).mp ha
    have hab : a ≠ b := fun hab => hpriv (hab ▸ ha')
    simp only [countUp, update_of_ne hab]
    exact hs.alone a ha'

theorem release (hs : Inv s) (hp : p < nrTasks) (hd : countDown s.cache b = some c')
    (hv : P.pc.victim = none) (hv' : (s.process p).pc.victim = none)
    (hr : ∀ a, (s.process p).refsTo a = P.refsTo a + if a = b then 1 else 0)
    (hload : P.load ≤ maxRefs) (hcur : P.pc.cursor = none) :
    Inv (s.become p c' P cur) := by
  obtain ⟨chain, free, hw, hfree⟩ := hs.wf
  have hvv : P.pc.victim = (s.process p).pc.victim := hv.trans hv'.symm
  have hpriv : ¬Private s b :=
    hs.not_private hp (by rw [hr b, if_pos rfl]; omega) (by rw [hv']; simp)
  unfold countDown at hd
  split at hd
  · cases hd
  rename_i hne
  cases hd
  refine hs.become hp rfl ⟨chain, free, ⟨hw.queues, hw.bound, hw.unique⟩, fun a => ?_⟩ (fun a => ?_)
    (fun a ha => ?_) (fun a ha => hs.known p hp a (by rw [hr a]; omega)) hload
    (fun a ha => by rw [hcur] at ha; cases ha) hs.links
  · rw [hfree, private_iff hp hvv]
  · rw [hr a]
    by_cases hab : a = b
    · subst hab
      simp only [update_self, if_pos]
      omega
    · simp only [update_of_ne hab, if_neg hab]
      omega
  · have ha' := (private_iff hp hvv).mp ha
    have hab : a ≠ b := fun hab => hpriv (hab ▸ ha')
    simp only [update_of_ne hab]
    exact hs.alone a ha'

theorem two_le_length (hs : Inv s) (hp : p < nrTasks) (hv : (s.process p).pc.victim = none)
    (hfree : ∀ b, b ∈ free ↔ b < s.cache.nrBuffers ∧ ¬Private s b) :
    2 ≤ free.length := by
  let victims := ((List.range nrTasks).erase p).filterMap fun q => (s.process q).pc.victim
  have hsub : List.range s.cache.nrBuffers ⊆ free ++ victims := by
    intro b hb
    have hbn := List.mem_range.mp hb
    by_cases hpriv : Private s b
    · obtain ⟨q, hq, hvq⟩ := hpriv
      have hqp : q ≠ p := by
        rintro rfl
        rw [hv] at hvq
        cases hvq
      refine List.mem_append_right _ (List.mem_filterMap.mpr ⟨q, ?_, hvq⟩)
      exact (List.mem_erase_of_ne hqp).mpr (List.mem_range.mpr hq)
    · exact List.mem_append_left _ ((hfree b).mpr ⟨hbn, hpriv⟩)
  have hlen := (List.subperm_of_subset List.nodup_range hsub).length_le
  have hvic : victims.length ≤ nrTasks - 1 := by
    refine (List.length_filterMap_le _ _).trans ?_
    rw [List.length_erase_of_mem (List.mem_range.mpr hp), List.length_range]
  have hroom := hs.room
  simp only [List.length_range, List.length_append] at hlen
  omega

theorem take (hs : Inv s) (hp : p < nrTasks) (hb : b < s.cache.nrBuffers)
    (hc : s.cache.bCount b = 0) (hv : P.pc.victim = some b) (hv' : (s.process p).pc.victim = none)
    (hr : ∀ a, P.refsTo a = (s.process p).refsTo a + if a = b then 1 else 0)
    (hload : P.load ≤ maxRefs) (hcur : P.pc.cursor = none) :
    Inv (s.become p (takeBuffer s.cache b) P cur) := by
  obtain ⟨chain, free, hw, hfree⟩ := hs.wf
  have hpriv : ¬Private s b := fun hpriv => by
    rw [hs.alone b hpriv] at hc
    cases hc
  have hbf : b ∈ free := (hfree b).mpr ⟨hb, hpriv⟩
  have hw' : Wf (countUp s.cache b) chain free := ⟨hw.queues, hw.bound, hw.unique⟩
  obtain ⟨chain', free', hperm, hw'⟩ := hw'.remove hbf (hs.two_le_length hp hv' hfree)
  have hnd := List.nodup_cons.mp (hperm.nodup_iff.mpr hw.queues.nodup)
  have hiff : ∀ a, Private (s.become p (takeBuffer s.cache b) P cur) a ↔ a = b ∨ Private s a := by
    intro a
    rw [private_become hp, hv, Option.some.injEq]
    refine or_congr eq_comm ⟨fun ⟨q, hq, _, hvq⟩ => ⟨q, hq, hvq⟩, fun ⟨q, hq, hvq⟩ => ?_⟩
    refine ⟨q, hq, ?_, hvq⟩
    rintro rfl
    rw [hv'] at hvq
    cases hvq
  refine hs.become hp rfl ⟨chain', free', hw', fun a => ?_⟩ (fun a => ?_) (fun a ha => ?_)
    (hs.known_of_le hp hb fun a => (hr a).le) hload
    (fun a ha => by rw [hcur] at ha; cases ha) (fun a ha => ?_)
  · rw [hiff, not_or, ← and_assoc, and_right_comm, ← hfree, ← hperm.mem_iff, List.mem_cons]
    constructor
    · exact fun ha => ⟨.inr ha, fun hab => hnd.1 (hab ▸ ha)⟩
    · exact fun ⟨ha, hab⟩ => ha.resolve_left hab
  · rw [hr a]
    show update s.cache.bCount b ((s.cache.bCount b + 1) % 256) a + _ = _
    by_cases hab : a = b
    · subst hab
      rw [update_self, hc, if_pos rfl]
      omega
    · rw [update_of_ne hab, if_neg hab]
      omega
  · exact update_of (p := fun _ n => n = 1) (by rw [hc]) fun hab =>
      hs.alone a (((hiff a).mp ha).resolve_left hab)
  · exact update_of (p := fun _ n => n < s.cache.nrBuffers) (hs.links b hb) fun _ => hs.links a ha

/-- `getblk` puts its private buffer back under a block that no other has. -/
theorem insert (hs : Inv s) (hp : p < nrTasks) (hv' : (s.process p).pc.victim = some b)
    (hq : c.queues = s.cache.queues) (hn : c.nrBuffers = s.cache.nrBuffers)
    (hkeep : ∀ a ≠ b, c.bDev a = s.cache.bDev a ∧ c.bBlocknr a = s.cache.bBlocknr a)
    (hnew : c.bDev b ≠ 0 → ∀ chain free, Wf c chain free → ∀ a ∈ free,
      ¬(c.bDev a = c.bDev b ∧ c.bBlocknr a = c.bBlocknr b)) (hv : P.pc.victim = none)
    (hcount : ∀ a, c.bCount a + (s.process p).refsTo a = s.cache.bCount a + P.refsTo a)
    (hsame : ∀ a ≠ b, c.bCount a = s.cache.bCount a)
    (hle : ∀ a, P.refsTo a ≤ (s.process p).refsTo a) (hload : P.load ≤ maxRefs)
    (hcur : P.pc.cursor = none) :
    Inv (s.become p (insertIntoQueues c b) P cur) := by
  obtain ⟨chain, free, hw, hfree⟩ := hs.wf
  have hpriv : Private s b := ⟨p, hp, hv'⟩
  have hbf : b ∉ free := fun hb => ((hfree b).mp hb).2 hpriv
  have hbn := hs.victim_lt hp hv'
  have hne : ∀ a ∈ free, a ≠ b := fun a ha => ne_of_mem_of_not_mem ha hbf
  have hwc : Wf c chain free := hw.congr hq hn fun a ha => hkeep a (hne a ha)
  obtain ⟨chain', free', hperm, hw'⟩ := hwc.insert hbf (hn ▸ hbn) fun hd => hnew hd chain free hwc
  have hiff : ∀ a, Private (s.become p (insertIntoQueues c b) P cur) a ↔ a ≠ b ∧ Private s a := by
    intro a
    rw [private_become hp, hv, or_iff_right nofun]
    constructor
    · rintro ⟨q, hq, hqp, hvq⟩
      refine ⟨?_, q, hq, hvq⟩
      rintro rfl
      exact hqp (hs.owner_eq hq hp hvq hv')
    · rintro ⟨hab, q, hq, hvq⟩
      refine ⟨q, hq, ?_, hvq⟩
      rintro rfl
      rw [hv'] at hvq
      exact hab (Option.some.inj hvq).symm
  refine hs.become hp hn ⟨chain', free', hw', fun a => ?_⟩ hcount (fun a ha => ?_)
    (fun a ha => hs.known p hp a (ha.trans (hle a))) hload
    (fun a ha => by rw [hcur] at ha; cases ha) (fun a ha => ?_)
  · rw [hperm.mem_iff, List.mem_cons, hfree, hiff, not_and_or, not_not]
    constructor
    · rintro (rfl | ⟨ha, hpa⟩)
      · exact ⟨hbn, .inl rfl⟩
      · exact ⟨ha, .inr hpa⟩
    · rintro ⟨ha, hab | hpa⟩
      · exact .inl hab
      · exact .inr ⟨ha, hpa⟩
  · obtain ⟨hab, ha⟩ := (hiff a).mp ha
    show c.bCount a = 1
    rw [hsame a hab]
    exact hs.alone a ha
  · have hentry := hw.queues.entry
    rw [insertIntoQueues, Queues.Wf.insertHash_bNextFree, hq,
      Queues.Wf.insertFree_eq (hne _ hentry)]
    have hlt {a b : Nat} {f : Nat → Nat} (hb : b < s.cache.nrBuffers) (hf : f a < s.cache.nrBuffers)
      {i} :
        update f i b a < s.cache.nrBuffers := update_of (p := fun _ n => n < _) hb fun _ => hf
    exact hlt hbn (hlt (hw.bound _ hentry) (hs.links a ha))

variable {pc pc' : Pc} {l : List Nat}

section
variable (hs : Inv s)
include hs

theorem load_le (hp : p < nrTasks) (hP : s.process p = ⟨pc, l⟩) (hidle : pc ≠ .idle) :
    Process.load ⟨pc', l⟩ ≤ maxRefs := by
  have hload := hs.load p hp
  rw [hP] at hload
  simp only [Process.load, if_neg hidle] at hload ⊢
  split <;> omega

theorem keep_pc (hp : p < nrTasks) (hP : s.process p = ⟨pc, l⟩) (hidle : pc ≠ .idle := by nofun)
    (hv : pc'.victim = pc.victim := by rfl) (hh : pc'.holds = pc.holds := by rfl)
    (hcur : ∀ b, pc'.cursor = some b → b < s.cache.nrBuffers := by nofun)
    (hc : Same s.cache c' := by exact ⟨rfl, rfl, rfl, rfl, rfl⟩) :
    Inv (s.become p c' ⟨pc', l⟩ cur) := by
  refine hs.keep hp hc (by rw [hP, hv]) (fun b => ?_) (hs.load_le hp hP hidle) hcur
  rw [hP]
  simp only [Process.refsTo, hh]

theorem give (hp : p < nrTasks) (hP : s.process p = ⟨pc, l⟩) (hidle : pc ≠ .idle)
    (hv : pc.victim = none) (hh : pc.holds = some b) :
    Inv (s.become p s.cache ⟨.idle, b :: l⟩ cur) := by
  refine hs.keep hp (.refl _) (by rw [hP, hv]; rfl) (fun a => ?_) ?_ nofun
  · rw [hP]
    have hnone : Pc.idle.holds = none := rfl
    by_cases hab : b = a <;> simp [Process.refsTo, hh, hnone, hab]
  · have hload := hs.load p hp
    rw [hP] at hload
    simpa [Process.load, hidle] using hload

theorem scanNext (hp : p < nrTasks) (hP : s.process p = ⟨pc, l⟩) (hidle : pc ≠ .idle)
    (hcursor : pc.cursor = some b) (hv : pc.victim = none) (hh : pc.holds = none) :
    Inv (s.become p s.cache ⟨Buffer.scanNext s.cache r b, l⟩ cur) := by
  have hb := hs.links b (hs.cursor p hp b (by rw [hP, hcursor]))
  unfold Buffer.scanNext
  split
  · exact hs.keep_pc hp hP hidle hv.symm hh.symm
  · refine hs.keep_pc hp hP hidle hv.symm hh.symm fun a ha => ?_
    cases ha
    exact hb

theorem gets (hp : p < nrTasks) (hP : s.process p = ⟨.waitHash r b, l⟩)
    (hg : Gets s.cache r b l c' P) : Inv (s.become p c' P cur) := by
  cases hg with
  | give hu => exact hs.give hp hP nofun rfl rfl
  | read hc hu hd hr => exact hs.keep_pc hp hP
  | unreadable hc hu hr => exact hs.keep_pc hp hP

theorem beaten (hp : p < nrTasks) (hP : s.process p = ⟨.assign r b, l⟩) :
    Inv (s.become p (giveUp (assignBuffer s.cache b r.dev r.block) b) ⟨.find r, l⟩ cur) := by
  have halone := hs.alone b ⟨p, hp, by rw [hP]; rfl⟩
  refine hs.insert hp (by rw [hP]; rfl) rfl rfl (fun a ha => ?_) (fun hd => ?_) rfl (fun a => ?_)
    (fun a ha => update_of_ne ha _ _) (fun a => ?_) (hs.load_le hp hP nofun) rfl
  · simp [assignBuffer, ha]
  · simp at hd
  · rw [hP]
    by_cases ha : a = b
    · subst ha
      simp [Process.refsTo, Pc.holds, halone, Nat.add_comm]
    · simp [Process.refsTo, Pc.holds, assignBuffer, ha, Ne.symm ha]
  · rw [hP]
    simp [Process.refsTo, Pc.holds]

theorem assigned (hp : p < nrTasks) (hP : s.process p = ⟨.assign r b, l⟩)
    (hf : findBuffer (assignBuffer s.cache b r.dev r.block) r.dev r.block = none) :
    Inv (s.become p (insertIntoQueues (assignBuffer s.cache b r.dev r.block) b) ⟨.waitHash r b, l⟩
      cur) := by
  refine hs.insert hp (by rw [hP]; rfl) rfl rfl (fun a ha => ?_) (fun hd chain free hw a ha => ?_)
    rfl (fun a => ?_) (fun _ _ => rfl) (fun a => ?_) (hs.load_le hp hP nofun) rfl
  · simp [assignBuffer, ha]
  · simp only [assignBuffer, update_self] at hd ⊢
    exact hw.findBuffer_none hf ha hd
  · rw [hP]
    rfl
  · rw [hP]
    rfl

theorem moves (hp : p < nrTasks) (hm : Moves s.cache (s.process p) c' P) :
    Inv (s.become p c' P cur) := by
  obtain ⟨chain, free, hw, hfree⟩ := hs.wf
  generalize hP : s.process p = Q at hm
  cases hm with
  | @found r bh l hf =>
    obtain ⟨hb, hpriv⟩ := (hfree bh).mp (hw.findBuffer_some hf).1
    refine hs.acquire hp hb hpriv (by rw [hP]; rfl) (fun a => ?_) (hs.load_le hp hP nofun) rfl
    rw [hP]
    simp [Process.refsTo, Pc.holds, eq_comm]
  | absent => exact hs.keep_pc hp hP
  | search =>
    refine hs.keep_pc hp hP nofun rfl rfl fun b hb => ?_
    cases hb
    exact ((hfree _).mp hw.queues.entry).1
  | changed => exact hs.keep_pc hp hP
  | got hl hd hb hg => exact hs.gets hp hP hg
  | again hc =>
    refine hs.release hp hc rfl (by rw [hP]; rfl) (fun a => ?_) (hs.load_le hp hP nofun) rfl
    rw [hP]
    simp [Process.refsTo, Pc.holds, eq_comm]
  | look =>
    refine hs.keep_pc hp hP nofun rfl rfl fun b hb => ?_
    exact hs.cursor p hp b (by rw [hP]; exact hb)
  | skip => exact hs.scanNext hp hP nofun rfl rfl rfl
  | lost => exact hs.scanNext hp hP nofun rfl rfl rfl
  | @take r tmp l hl hc =>
    have hb := hs.cursor p hp tmp (by rw [hP]; rfl)
    refine hs.take hp hb hc ?_ (by rw [hP]; rfl) (fun a => ?_) (hs.load_le hp hP nofun) ?_
    · split <;> rfl
    · rw [hP]
      split <;> simp [Process.refsTo, Pc.holds, eq_comm]
    · split <;> rfl
  | wake => exact hs.keep_pc hp hP
  | other hd => exact hs.keep_pc hp hP
  | check => exact hs.keep_pc hp hP
  | synced hi => exact hs.keep_pc hp hP
  | clean hl hd => exact hs.keep_pc hp hP
  | write hl hd hr => exact hs.keep_pc hp hP
  | unwritable hl hd hr => exact hs.keep_pc hp hP
  | @request rw bh k l =>
    refine hs.keep_pc hp hP nofun ?_ ?_
    · cases k <;> rfl
    · cases k <;> rfl
  | written hl => exact hs.keep_pc hp hP
  | done hl hu => exact hs.give hp hP nofun rfl rfl
  | failed => exact hs.keep_pc hp hP
  | beaten => exact hs.beaten hp hP
  | assigned hf hg =>
    rw [← become_become s p _ c' _ P cur cur]
    exact (hs.assigned hp hP hf).gets hp (update_self ..) hg
  | released hc =>
    refine hs.release hp hc rfl (by rw [hP]; rfl) (fun a => ?_) (hs.load_le hp hP nofun) rfl
    rw [hP]
    simp [Process.refsTo, Pc.holds, eq_comm]

end

end Inv

theorem Inv.same {cur : Option Nat} (hs : Inv s)
    (hc : Same s.cache c) : Inv ⟨c, s.process, cur⟩ := by
  have hp : 0 < nrTasks := by decide
  have hself : (s.become 0 c (s.process 0) cur) = ⟨c, s.process, cur⟩ := by
    simp [State.become]
  rw [← hself]
  exact hs.keep hp hc rfl (fun _ => rfl) (hs.load 0 hp) (hs.cursor 0 hp)

theorem endRequest_same {o : Outcome α} (h : endRequest c b o = some c') : Same c c' := by
  obtain ⟨rw, -, rfl⟩ := Option.map_eq_some_iff.mp h
  cases o <;> cases rw <;> exact ⟨rfl, rfl, rfl, rfl, rfl⟩

theorem step_inv (hs : Inv s) (h : step s e = some t) : Inv t := by
  cases step_steps h with
  | @call p r cur hp hpc hlen =>
    refine hs.keep hp (.refl _) (by rw [hpc]; rfl) (fun b => ?_) ?_ nofun
    · simp [Process.refsTo, hpc, Pc.holds]
    · exact hlen
  | @brelse p bh cur hp hpc hmem =>
    have hpos : 0 < (s.process p).refs.length := List.length_pos_of_mem hmem
    refine hs.keep hp (.refl _) (by rw [hpc]; rfl) (fun b => ?_) ?_ nofun
    · by_cases hb : bh = b
      · subst hb
        have hone : 0 < (s.process p).refs.count bh := List.count_pos_iff.mpr hmem
        simp only [Process.refsTo, hpc, Pc.holds, List.count_erase_self, if_pos, reduceCtorEq,
          if_false]
        omega
      · simp [Process.refsTo, hpc, Pc.holds, List.count_erase_of_ne (Ne.symm hb), hb]
    · have hload := hs.load p hp
      simp only [Process.load, hpc, List.length_erase_of_mem hmem, if_pos, reduceCtorEq,
        if_false] at hload ⊢
      omega
  | change => exact hs.same ⟨rfl, rfl, rfl, rfl, rfl⟩
  | run hp hm => exact hs.moves hp hm
  | leave => exact hs.same (.refl _)
  | intr hc => exact hs.same (endRequest_same hc)

def boot (c : Cache α) (n : Nat) : State α := ⟨bufferInit c n, fun _ => ⟨.idle, []⟩, none⟩

theorem Inv.of_idle (hroom : nrTasks < s.cache.nrBuffers)
    (hidle : ∀ p, s.process p = ⟨.idle, []⟩) (hcount : ∀ b, s.cache.bCount b = 0)
    (chain : Nat → List Nat) (hw : Wf s.cache chain (List.range s.cache.nrBuffers))
    (hlinks : ∀ b < s.cache.nrBuffers, s.cache.queues.bNextFree b < s.cache.nrBuffers) : Inv s := by
  have hpriv : ∀ b, ¬Private s b := by
    rintro b ⟨p, -, hv⟩
    rw [hidle] at hv
    cases hv
  refine ⟨hroom, ⟨chain, _, hw, fun b => ?_⟩, fun b => ?_, fun b hb => absurd hb (hpriv b),
    fun p _ b hb => ?_, fun p _ => ?_, fun p _ b hb => ?_, hlinks⟩
  · rw [List.mem_range]
    exact (and_iff_left (hpriv b)).symm
  · rw [hcount]
    exact (Finset.sum_eq_zero fun p _ => by rw [hidle]; rfl).symm
  · rw [hidle] at hb
    cases hb
  · rw [hidle]
    exact Nat.zero_le _
  · rw [hidle] at hb
    cases hb

theorem bufferInit_links (c : Cache α) (hb : b < n) :
    (bufferInit c n).queues.bNextFree b < n := by
  simp only [bufferInit]
  split <;> omega

theorem boot_inv (c : Cache α) (hn : nrTasks < n) : Inv (boot c n) := by
  refine .of_idle hn (fun _ => rfl) (fun _ => rfl) (fun _ => []) ?_
    fun b hb => bufferInit_links c hb
  refine ⟨⟨fun _ => rfl, fun _ => List.nodup_nil, fun h b => ?_, fun _ _ _ => ⟨rfl, rfl⟩,
    Ring.range (by omega), List.nodup_range, List.mem_range.mpr (by omega : 0 < n)⟩,
    fun b hb => List.mem_range.mp hb, fun a _ b _ hd => absurd rfl hd⟩
  exact iff_of_false List.not_mem_nil fun hb => hb.2.1 rfl

def OnQueue (c : Cache α) (h b : Nat) : Prop :=
  Leads c.queues.bNext (c.queues.hashTable h) b

/-- The free list is one ring with every buffer that is not private. -/
structure Represented (s : State α) : Prop where
  unique : ∀ h k a b, OnQueue s.cache h a → OnQueue s.cache k b → s.cache.bDev a = s.cache.bDev b →
    s.cache.bBlocknr a = s.cache.bBlocknr b → a = b
  ownQueue : ∀ h b, OnQueue s.cache h b ↔
    b < s.cache.nrBuffers ∧ ¬Private s b ∧ s.cache.bDev b ≠ 0 ∧ s.cache.hashOf b = h
  inverse : ∀ h a b, OnQueue s.cache h a → OnQueue s.cache h b →
    (s.cache.queues.bNext a = some b ↔ s.cache.queues.bPrev b = some a)
  first : ∀ h b, s.cache.queues.hashTable h = some b → s.cache.queues.bPrev b = none
  free : ∃ xs, Ring s.cache.queues.bNextFree s.cache.queues.bPrevFree xs ∧ xs.Nodup ∧
    s.cache.queues.freeList ∈ xs ∧ ∀ b, b ∈ xs ↔ b < s.cache.nrBuffers ∧ ¬Private s b

theorem Inv.represented (hs : Inv s) : Represented s := by
  obtain ⟨chain, free, hw, hfree⟩ := hs.wf
  have hon : ∀ h b, OnQueue s.cache h b ↔ b ∈ chain h := fun h b => (hw.queues.linked h).leads_iff
  constructor
  · intro h k a b ha hb hd hblk
    obtain ⟨haf, hda, -⟩ := (hw.queues.hashed _ _).mp ((hon h a).mp ha)
    obtain ⟨hbf, -, -⟩ := (hw.queues.hashed _ _).mp ((hon k b).mp hb)
    exact hw.unique a haf b hbf hda hd hblk
  · intro h b
    rw [hon, hw.queues.hashed, hfree, and_assoc]
  · intro h a b ha hb
    constructor
    · exact fun hn => ((hw.queues.linked h).prev_eq_of_next ((hon h a).mp ha) hn).2
    · exact fun hp => ((hw.queues.linked h).next_eq_of_prev ((hon h b).mp hb) hp).2
  · intro h b hb
    have hl := hw.queues.linked h
    rw [hb] at hl
    exact hl.prev_of_entry
  · exact ⟨free, hw.queues.ring, hw.queues.nodup, hw.queues.entry, hfree⟩

theorem Gets.same {l : List Nat} (hg : Gets c r b l c' P) : Same c c' := by
  cases hg <;> exact ⟨rfl, rfl, rfl, rfl, rfl⟩

theorem countDown_eq (h : countDown c b = some c') :
    c' = { c with bCount := update c.bCount b (c.bCount b - 1) } := by
  unfold countDown at h
  split at h
  · cases h
  · exact (Option.some.inj h).symm

theorem Moves.key_eq {P' : Process} (hm : Moves c P c' P')
    (hv : P.pc.victim ≠ some b) : c'.bDev b = c.bDev b ∧ c'.bBlocknr b = c.bBlocknr b := by
  cases hm with
  | got hl hd hb hg => rw [hg.same.bDev, hg.same.bBlocknr]; exact ⟨rfl, rfl⟩
  | again hc => rw [countDown_eq hc]; exact ⟨rfl, rfl⟩
  | released hc => rw [countDown_eq hc]; exact ⟨rfl, rfl⟩
  | @beaten r tmp l =>
    have hb : b ≠ tmp := fun hb => hv (by rw [hb]; rfl)
    simp [giveUp, insertIntoQueues, assignBuffer, hb]
  | @assigned r tmp l c' P hf hg =>
    have hb : b ≠ tmp := fun hb => hv (by rw [hb]; rfl)
    rw [hg.same.bDev, hg.same.bBlocknr]
    simp [insertIntoQueues, assignBuffer, hb]
  | _ => exact ⟨rfl, rfl⟩

theorem Inv.refs_of_victim (hs : Inv s) {p : Nat} (hp : p < nrTasks)
    (hv : (s.process p).pc.victim = some b) (hq : q < nrTasks) :
    b ∉ (s.process q).refs ∧ (q ≠ p → (s.process q).pc.holds ≠ some b) := by
  have hcount := hs.counted b
  rw [hs.alone b ⟨p, hp, hv⟩] at hcount
  have hone := Process.one_le_refsTo (Pc.holds_of_victim hv)
  by_cases hqp : q = p
  · subst hqp
    have hle := le_refsTo (s := s) (b := b) hq
    refine ⟨fun hmem => ?_, fun hne => absurd rfl hne⟩
    have hpos : 0 < (s.process q).refs.count b := List.count_pos_iff.mpr hmem
    rw [Process.refsTo, if_pos (Pc.holds_of_victim hv)] at hle
    omega
  · have hsum := add_le_refsTo (s := s) (b := b) hp hq (Ne.symm hqp)
    have hzero : (s.process q).refsTo b = 0 := by omega
    rw [Process.refsTo, Nat.add_eq_zero_iff, List.count_eq_zero] at hzero
    exact ⟨hzero.1, fun _ hh => by simp [hh] at hzero⟩

theorem victim_of_reassigned (h : step s e = some t)
    (hne : (t.cache.bDev b, t.cache.bBlocknr b) ≠ (s.cache.bDev b, s.cache.bBlocknr b)) :
    ∃ p < nrTasks, e = .run p ∧ (s.process p).pc.victim = some b := by
  cases step_steps h with
  | @run p c P cur hp hm =>
    refine ⟨p, hp, rfl, ?_⟩
    by_contra hv
    obtain ⟨hd, hb⟩ := hm.key_eq hv
    exact hne (by rw [← hd, ← hb]; rfl)
  | intr hc =>
    have hsame := endRequest_same hc
    exact absurd (by rw [hsame.bDev, hsame.bBlocknr]) hne
  | _ => exact absurd rfl hne

/-- In every interleaving the cache is well formed, and buffers in use keep their blocks. -/
theorem represented_of_reaches (c : Cache α) {n : Nat} (hn : nrTasks < n) {s : State α}
    (h : Reaches step (fun _ _ => True) (boot c n) s) :
    Represented s ∧ ∀ e t, step s e = some t → ∀ b,
      (t.cache.bDev b, t.cache.bBlocknr b) ≠ (s.cache.bDev b, s.cache.bBlocknr b) →
      ∃ p, e = .run p ∧ (s.process p).pc.victim = some b ∧ ∀ q < nrTasks,
        b ∉ (s.process q).refs ∧ (q ≠ p → (s.process q).pc.holds ≠ some b) := by
  have hs : Inv s := h.invariant (fun _ _ _ hs _ hst => step_inv hs hst) (boot_inv c hn)
  refine ⟨hs.represented, fun e t hst b hne => ?_⟩
  obtain ⟨p, hp, he, hv⟩ := victim_of_reassigned hst hne
  exact ⟨p, he, hv, fun q hq => hs.refs_of_victim hp hv hq⟩

/-- A cache before `buffer_init`, over one hard disk of 200 sectors. -/
def blank (data : α) : Cache α where
  nrBuffers := 0
  queues := ⟨fun _ => none, fun _ => none, fun _ => none, fun _ => 0, fun _ => 0, 0⟩
  bDev := fun _ => 0
  bBlocknr := fun _ => 0
  bUptodate := fun _ => false
  bDirt := fun _ => false
  bCount := fun _ => 0
  bLock := fun _ => false
  bData := fun _ => data
  pending := fun _ => none
  disk := fun _ _ => data
  nrSects := fun minor => if minor = 1 then 200 else 0

/-- Two processes get the same block, and the first takes another buffer. -/
def sharedRun : List (Event Unit) :=
  .call 0 ⟨.getblk, 0x301, 5⟩ :: List.replicate 4 (.run 0) ++
    [.leave 0, .call 1 ⟨.getblk, 0x301, 5⟩, .run 1, .run 1, .leave 1, .call 0 ⟨.getblk, 0x301, 6⟩,
      .run 0, .run 0, .run 0]

theorem sharedRun_runs : ∃ s, run step sharedRun (boot (blank ()) 65) = some s ∧
    (s.process 0).refs = [0] ∧ (s.process 1).refs = [0] ∧ (step s (.run 0)).map (fun t =>
      decide ((t.cache.bDev 1, t.cache.bBlocknr 1) ≠ (s.cache.bDev 1, s.cache.bBlocknr 1))) =
        some true := by
  have hrun : (run step sharedRun (boot (blank ()) 65)).map (fun s =>
      decide ((s.process 0).refs = [0] ∧ (s.process 1).refs = [0] ∧ (step s (.run 0)).map (fun t =>
        decide ((t.cache.bDev 1, t.cache.bBlocknr 1) ≠ (s.cache.bDev 1, s.cache.bBlocknr 1))) =
          some true)) = some true := by decide
  obtain ⟨s, hs, hrefs⟩ := Option.map_eq_some_iff.mp hrun
  exact ⟨s, hs, of_decide_eq_true hrefs⟩

/-- Block 5 is shared; the buffer that gets block 6 is one that nobody has. -/
theorem represented_of_reaches_getblk : ∃ s t, run step sharedRun (boot (blank ()) 65) = some s ∧
    (s.process 0).refs = [0] ∧ (s.process 1).refs = [0] ∧ Represented s ∧
      step s (.run 0) = some t ∧ ∀ q < nrTasks, 1 ∉ (s.process q).refs := by
  obtain ⟨s, hs, h0, h1, htaken⟩ := sharedRun_runs
  obtain ⟨t, ht, hne⟩ := Option.map_eq_some_iff.mp htaken
  obtain ⟨hrep, hvictim⟩ := represented_of_reaches (blank ()) (by decide) (reaches_of_run hs)
  obtain ⟨p, -, -, hq⟩ := hvictim _ t ht 1 (of_decide_eq_true hne)
  exact ⟨s, t, hs, h0, h1, hrep, ht, fun q hlt => (hq q hlt).1⟩

/-- In every interleaving `b_count` is the number of references, fits, and is not 0 at a `brelse`.
-/
theorem count_of_reaches (c : Cache α) {n : Nat} (hn : nrTasks < n) {s : State α}
    (h : Reaches step (fun _ _ => True) (boot c n) s) (b : Nat) :
    s.cache.bCount b = s.refsTo b ∧ s.refsTo b < 256 ∧
      ∀ p < nrTasks, (s.process p).pc.holds = some b → (countDown s.cache b).isSome = true := by
  have hs : Inv s := h.invariant (fun _ _ _ hs _ hst => step_inv hs hst) (boot_inv c hn)
  refine ⟨hs.counted b, (refsTo_le hs.load b).trans_lt (by decide), fun p hp hh => ?_⟩
  have hone := (Process.one_le_refsTo hh).trans (le_refsTo hp)
  rw [← hs.counted b] at hone
  simp [countDown, Nat.ne_of_gt hone]

/-- Two processes refer to the buffer of a block, so its `b_count` is at least 2. -/
theorem count_of_reaches_shared : ∃ s, run step sharedRun (boot (blank ()) 65) = some s ∧
    (s.process 0).refs = [0] ∧ (s.process 1).refs = [0] ∧ s.cache.bCount 0 = s.refsTo 0 ∧
      s.refsTo 0 < 256 := by
  obtain ⟨s, hs, h0, h1, -⟩ := sharedRun_runs
  obtain ⟨hcount, hlt, -⟩ := count_of_reaches (blank ()) (by decide) (reaches_of_run hs) 0
  exact ⟨s, hs, h0, h1, hcount, hlt⟩

end Linux001.Buffer
