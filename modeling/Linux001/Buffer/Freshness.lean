import Linux001.Buffer.Representation

/-! The contents of the buffers. A `bread` returns the latest contents as long as none starts to
read a block of which a `getblk` has a dirty buffer privately. -/

namespace Linux001.Buffer

open Function ProofKit

variable {α : Type} {s : State α} {qs : Queues} {m : Nat → Nat} {k : Return} {l : List Nat}
  {r : Request}

def Cache.key (c : Cache α) (b : Nat) : Nat × Nat := (c.bDev b, c.bBlocknr b)

def Cached (s : State α) (b : Nat) : Prop := b < s.cache.nrBuffers ∧ ¬Private s b

def Busy (s : State α) (rw : Rw) (b : Nat) : Prop :=
  s.cache.pending b = some rw ∨ ∃ p < nrTasks, ∃ k, (s.process p).pc = .rwRequest rw b k

def Clean (c : Cache α) (b : Nat) : Prop := c.bDirt b = false ∧ c.bLock b = false

/-- A private buffer is clean after `sync_dev`; a buffer being read has its block. -/
def PcOk (c : Cache α) : Pc → Prop
  | .sync _ tmp dev i | .waitSync _ tmp dev i => c.bDev tmp = dev ∧ (tmp < i → Clean c tmp)
  | .rwRequest rw bh (.syncDev _ tmp dev i) =>
    rw = .write ∧ bh = i ∧ c.bDev tmp = dev ∧ (tmp < i → Clean c tmp)
  | .waitRw bh (.syncDev _ tmp dev i) =>
    bh = i ∧ c.bDev tmp = dev ∧ (tmp < i → Clean c tmp) ∧
      (tmp = i → c.bLock tmp = true ∨ c.bDirt tmp = false)
  | .assign _ tmp => Clean c tmp
  | .rwRequest rw bh (.bread r) => rw = .read ∧ c.key bh = (r.dev, r.block)
  | .waitRw bh (.bread r) => c.key bh = (r.dev, r.block)
  | _ => True

structure Valid (c : Cache α) (latest : Nat × Nat → α) (b : Nat) : Prop where
  dev : c.bDev b ≠ 0
  range : inRange c b
  data : c.bData b = latest (c.key b)

theorem Valid.congr {c c' : Cache α} {latest : Nat × Nat → α} {b : Nat} (h : Valid c latest b)
    (hk : c'.key b = c.key b) (hn : c'.nrSects = c.nrSects) (hdata : c'.bData b = c.bData b) :
    Valid c' latest b := by
  have hd : c'.bDev b = c.bDev b := congrArg Prod.fst hk
  have hb : c'.bBlocknr b = c.bBlocknr b := congrArg Prod.snd hk
  refine ⟨hd ▸ h.dev, ?_, ?_⟩
  · rw [inRange, hd, hb, hn]
    exact h.range
  · rw [hdata, hk]
    exact h.data

structure Fresh (s : State α) (latest : Nat × Nat → α) : Prop where
  cached : ∀ b, Cached s b → s.cache.bUptodate b = true → Valid s.cache latest b
  dirty : ∀ b, s.cache.bDirt b = true →
    b < s.cache.nrBuffers ∧ s.cache.bUptodate b = true ∧ Valid s.cache latest b
  disk : ∀ k, (∀ b, s.cache.bDirt b = true → s.cache.key b ≠ k) → s.cache.disk k.1 k.2 = latest k
  alone : ∀ a b, s.cache.bDirt a = true → a ≠ b → s.cache.key a = s.cache.key b →
    s.cache.bDirt b = false ∧ (Cached s b → s.cache.bUptodate b = false)
  locked : ∀ rw b, Busy s rw b → s.cache.bLock b = true
  reading : ∀ b, Busy s .read b → Cached s b ∧ s.cache.bDev b ≠ 0 ∧ inRange s.cache b ∧
    ∀ a, s.cache.bDirt a = true → s.cache.key a ≠ s.cache.key b
  writing : ∀ b, Busy s .write b → s.cache.bDirt b = true
  single : ∀ p < nrTasks, ∀ rw b k, (s.process p).pc = .rwRequest rw b k →
    s.cache.pending b = none ∧
      ∀ q < nrTasks, ∀ rw' k', (s.process q).pc = .rwRequest rw' b k' → q = p
  pcs : ∀ p < nrTasks, PcOk s.cache (s.process p).pc

theorem PcOk.mono {c c' : Cache α} {pc : Pc} (h : PcOk c pc)
    (hkey : ∀ b, pc.holds = some b → c'.key b = c.key b)
    (hclean : ∀ b, pc.victim = some b → Clean c b → Clean c' b)
    (hlock : ∀ b, pc.victim = some b → c.bLock b = true ∨ c.bDirt b = false →
      c'.bLock b = true ∨ c'.bDirt b = false) : PcOk c' pc := by
  have hdev : ∀ b, pc.holds = some b → c'.bDev b = c.bDev b := fun b hb =>
    congrArg Prod.fst (hkey b hb)
  cases pc with
  | sync r tmp dev i =>
    exact ⟨(hdev tmp rfl).trans h.1, fun hi => hclean tmp rfl (h.2 hi)⟩
  | waitSync r tmp dev i =>
    exact ⟨(hdev tmp rfl).trans h.1, fun hi => hclean tmp rfl (h.2 hi)⟩
  | assign r tmp => exact hclean tmp rfl h
  | rwRequest rw bh k =>
    cases k with
    | syncDev r tmp dev i =>
      obtain ⟨hrw, hbh, hd, hc⟩ := h
      exact ⟨hrw, hbh, (hdev tmp rfl).trans hd, fun hi => hclean tmp rfl (hc hi)⟩
    | bread r => exact ⟨h.1, (hkey bh rfl).trans h.2⟩
  | waitRw bh k =>
    cases k with
    | syncDev r tmp dev i =>
      obtain ⟨hbh, hd, hc, hl⟩ := h
      exact ⟨hbh, (hdev tmp rfl).trans hd, fun hi => hclean tmp rfl (hc hi),
        fun hi => hlock tmp rfl (hl hi)⟩
    | bread r => exact (hkey bh rfl).trans h
  | _ => trivial

theorem Inv.key_unique (hs : Inv s) {a b : Nat} (ha : Cached s a) (hb : Cached s b)
    (hd : s.cache.bDev a ≠ 0) (hk : s.cache.key a = s.cache.key b) : a = b := by
  obtain ⟨chain, free, hw, hfree⟩ := hs.wf
  exact hw.unique a ((hfree a).mpr ha) b ((hfree b).mpr hb) hd (congrArg Prod.fst hk)
    (congrArg Prod.snd hk)

theorem Inv.cached_of_refs (hs : Inv s) {p b : Nat} (hp : p < nrTasks)
    (hr : 1 ≤ (s.process p).refsTo b) (hv : (s.process p).pc.victim ≠ some b) : Cached s b :=
  ⟨hs.known p hp b hr, hs.not_private hp hr hv⟩

section Become

variable {s : State α} {latest : Nat × Nat → α} {p b : Nat} {c : Cache α} {P : Process}
  {cur : Option Nat} {rw : Rw}

theorem busy_become (hp : p < nrTasks) :
    Busy (s.become p c P cur) rw b ↔
      c.pending b = some rw ∨ (∃ k, P.pc = .rwRequest rw b k) ∨
        ∃ q < nrTasks, q ≠ p ∧ ∃ k, (s.process q).pc = .rwRequest rw b k := by
  refine or_congr Iff.rfl ?_
  constructor
  · rintro ⟨q, hq, k, hk⟩
    by_cases hqp : q = p
    · subst hqp
      exact .inl ⟨k, by simpa [State.become] using hk⟩
    · exact .inr ⟨q, hq, hqp, k, by simpa [State.become, hqp] using hk⟩
  · rintro (⟨k, hk⟩ | ⟨q, hq, hqp, k, hk⟩)
    · exact ⟨p, hp, k, by simpa [State.become] using hk⟩
    · exact ⟨q, hq, k, by simpa [State.become, hqp] using hk⟩

theorem forall_become {Q : Nat → Pc → Prop} (hP : Q p P.pc)
    (hother : ∀ q < nrTasks, q ≠ p → Q q (s.process q).pc) :
    ∀ q < nrTasks, Q q ((s.become p c P cur).process q).pc := by
  intro q hq
  by_cases hqp : q = p
  · subst hqp
    simpa [State.become] using hP
  · simpa [State.become, hqp] using hother q hq hqp

theorem busy_iff (hp : p < nrTasks) (hn : ∀ rw b k, P.pc ≠ .rwRequest rw b k)
    (hn' : ∀ rw b k, (s.process p).pc ≠ .rwRequest rw b k)
    (hpend : c.pending b = s.cache.pending b) :
    Busy (s.become p c P cur) rw b ↔ Busy s rw b := by
  rw [busy_become hp, hpend]
  refine or_congr Iff.rfl ?_
  constructor
  · rintro (⟨k, hk⟩ | ⟨q, hq, -, hk⟩)
    · exact absurd hk (hn rw b k)
    · exact ⟨q, hq, hk⟩
  · rintro ⟨q, hq, k, hk⟩
    refine .inr ⟨q, hq, ?_, k, hk⟩
    rintro rfl
    exact hn' rw b k hk

section
variable (hf : Fresh s latest)
include hf

theorem Fresh.single_become (hn : ∀ rw b k, P.pc ≠ .rwRequest rw b k)
    (hpend : ∀ q < nrTasks, ∀ rw b k, (s.process q).pc = .rwRequest rw b k →
      q ≠ p → c.pending b = none) :
    ∀ q < nrTasks, ∀ rw b k, ((s.become p c P cur).process q).pc = .rwRequest rw b k →
      c.pending b = none ∧ ∀ q' < nrTasks, ∀ rw' k',
        ((s.become p c P cur).process q').pc = .rwRequest rw' b k' → q' = q := by
  intro q hq rw b k hk
  have hother : ∀ q rw b k, ((s.become p c P cur).process q).pc = .rwRequest rw b k →
      q ≠ p ∧ (s.process q).pc = .rwRequest rw b k := by
    intro q rw b k hk
    have hqp : q ≠ p := by
      rintro rfl
      exact hn rw b k (by simpa [State.become] using hk)
    exact ⟨hqp, by simpa [State.become, hqp] using hk⟩
  obtain ⟨hqp, hk⟩ := hother q rw b k hk
  refine ⟨hpend q hq rw b k hk hqp, fun q' hq' rw' k' hk' => ?_⟩
  exact (hf.single q hq rw b k hk).2 q' hq' rw' k' (hother q' rw' b k' hk').2

theorem Fresh.quiet (hp : p < nrTasks) (hc : c = { s.cache with queues := qs, bCount := m })
    (hn : ∀ rw b k, P.pc ≠ .rwRequest rw b k) (hn' : ∀ rw b k, (s.process p).pc ≠ .rwRequest rw b k)
    (hcached : ∀ b, Cached (s.become p c P cur) b → Cached s b)
    (hread : ∀ b, Busy s .read b → Cached s b → Cached (s.become p c P cur) b)
    (hpc : PcOk s.cache P.pc) : Fresh (s.become p c P cur) latest := by
  subst hc
  have hbusy : ∀ rw b, Busy (s.become p _ P cur) rw b ↔ Busy s rw b := fun rw b =>
    busy_iff hp hn hn' (c := { s.cache with queues := qs, bCount := m }) rfl
  constructor
  · exact fun b hb hu => (hf.cached b (hcached b hb) hu).congr rfl rfl rfl
  · intro b hb
    obtain ⟨hn, hu, hv⟩ := hf.dirty b hb
    exact ⟨hn, hu, hv.congr rfl rfl rfl⟩
  · exact hf.disk
  · intro a b ha hab hk
    exact ⟨(hf.alone a b ha hab hk).1, fun hb => (hf.alone a b ha hab hk).2 (hcached b hb)⟩
  · exact fun rw b hb => hf.locked rw b ((hbusy rw b).mp hb)
  · intro b hb
    have hb := (hbusy _ b).mp hb
    obtain ⟨hcb, hrest⟩ := hf.reading b hb
    exact ⟨hread b hb hcb, hrest⟩
  · exact fun b hb => hf.writing b ((hbusy _ b).mp hb)
  · exact hf.single_become hn fun q hq rw b k hk _ => (hf.single q hq rw b k hk).1
  · exact forall_become hpc fun q hq _ => hf.pcs q hq

theorem Fresh.start (hp : p < nrTasks) (hP : P.pc = .rwRequest rw b k)
    (hn' : ∀ rw b k, (s.process p).pc ≠ .rwRequest rw b k)
    (hv : P.pc.victim = (s.process p).pc.victim) (hl : s.cache.bLock b = false)
    (hw : rw = .write → s.cache.bDirt b = true)
    (hr : rw = .read → Cached s b ∧ s.cache.bDev b ≠ 0 ∧ inRange s.cache b ∧
      ∀ a, s.cache.bDirt a = true → s.cache.key a ≠ s.cache.key b) (hpc : PcOk s.cache P.pc) :
    Fresh (s.become p { s.cache with bLock := update s.cache.bLock b true } P cur) latest := by
  have hnot : ∀ rw, ¬Busy s rw b := fun rw hb => by
    rw [hf.locked rw b hb] at hl
    cases hl
  have hcached :
    ∀ a, Cached (s.become p { s.cache with bLock := update s.cache.bLock b true } P cur) a
      ↔ Cached s a := fun a => and_congr_right fun _ => not_congr (Inv.private_iff hp hv)
  have hbusy :
    ∀ rw' a, Busy (s.become p { s.cache with bLock := update s.cache.bLock b true } P cur)
      rw' a ↔ (rw' = rw ∧ a = b) ∨ Busy s rw' a := by
    intro rw' a
    rw [busy_become hp, hP]
    constructor
    · rintro (h | ⟨k', hk'⟩ | ⟨q, hq, -, h⟩)
      · exact .inr (.inl h)
      · cases hk'
        exact .inl ⟨rfl, rfl⟩
      · exact .inr (.inr ⟨q, hq, h⟩)
    · rintro (⟨rfl, rfl⟩ | h | ⟨q, hq, k', hk'⟩)
      · exact .inr (.inl ⟨k, rfl⟩)
      · exact .inl h
      · refine .inr (.inr ⟨q, hq, ?_, k', hk'⟩)
        rintro rfl
        exact hn' rw' a k' hk'
  constructor
  · exact fun a ha hu => (hf.cached a ((hcached a).mp ha) hu).congr rfl rfl rfl
  · intro a ha
    obtain ⟨hn, hu, hv⟩ := hf.dirty a ha
    exact ⟨hn, hu, hv.congr rfl rfl rfl⟩
  · exact hf.disk
  · intro a a' ha haa hk
    exact ⟨(hf.alone a a' ha haa hk).1,
      fun hb => (hf.alone a a' ha haa hk).2 ((hcached a').mp hb)⟩
  · intro rw' a ha
    exact update_eq fun hab =>
      hf.locked rw' a (((hbusy rw' a).mp ha).resolve_left fun h => hab h.2)
  · intro a ha
    rcases (hbusy _ a).mp ha with ⟨rfl, rfl⟩ | ha
    · obtain ⟨hca, hrest⟩ := hr rfl
      exact ⟨(hcached a).mpr hca, hrest⟩
    · obtain ⟨hca, hrest⟩ := hf.reading a ha
      exact ⟨(hcached a).mpr hca, hrest⟩
  · intro a ha
    rcases (hbusy _ a).mp ha with ⟨rfl, rfl⟩ | ha
    · exact hw rfl
    · exact hf.writing a ha
  · have hother : ∀ q < nrTasks, ∀ rw' k', (s.process q).pc ≠ .rwRequest rw' b k' :=
      fun q hq rw' k' hk' => hnot rw' (.inr ⟨q, hq, k', hk'⟩)
    have hnone : s.cache.pending b = none := by
      cases hpend : s.cache.pending b with
      | none => rfl
      | some rw' => exact absurd (.inl hpend) (hnot rw')
    refine forall_become (Q := fun q pc => ∀ rw' a k', pc = .rwRequest rw' a k' →
      s.cache.pending a = none ∧ ∀ q' < nrTasks, ∀ rw'' k'',
        ((s.become p _ P cur).process q').pc = .rwRequest rw'' a k'' → q' = q) ?_ ?_
    · intro rw' a k' hk'
      rw [hP] at hk'
      cases hk'
      refine ⟨hnone, forall_become (Q := fun q pc => ∀ rw'' k'', pc = .rwRequest rw'' b k'' → q = p)
        (fun _ _ _ => rfl) fun q hq _ rw'' k'' hk'' => absurd hk'' (hother q hq rw'' k'')⟩
    · intro q hq hqp rw' a k' hk'
      have hab : a ≠ b := by
        rintro rfl
        exact hother q hq rw' k' hk'
      obtain ⟨hnone, hone⟩ := hf.single q hq rw' a k' hk'
      refine ⟨hnone,
        forall_become (Q := fun q' pc => ∀ rw'' k'', pc = .rwRequest rw'' a k'' → q' = q)
        (fun rw'' k'' hk'' => ?_) fun q' hq' _ => hone q' hq'⟩
      rw [hP] at hk''
      cases hk''
      exact absurd rfl hab
  · -- A buffer that a process has cleaned is not the one that is locked here.
    have hmono : ∀ pc, PcOk s.cache pc → (∀ a, pc.victim = some a → Private s a) →
        PcOk { s.cache with bLock := update s.cache.bLock b true } pc := by
      intro pc hpc hpriv
      refine hpc.mono (fun _ _ => rfl) (fun a ha hca => ?_) (fun a ha hla => ?_)
      · have hab : a ≠ b := by
          rintro rfl
          cases rw with
          | read => exact (hr rfl).1.2 (hpriv a ha)
          | write =>
            have hd := hw rfl
            rw [hca.1] at hd
            cases hd
        exact ⟨hca.1, (update_of_ne hab _ _).trans hca.2⟩
      · exact hla.imp_left fun hla => update_eq fun _ => hla
    refine forall_become (hmono _ hpc fun a ha => ⟨p, hp, hv ▸ ha⟩) fun q hq _ => ?_
    exact hmono _ (hf.pcs q hq) fun a ha => ⟨q, hq, ha⟩

theorem Fresh.request (hp : p < nrTasks) (hP : s.process p = ⟨.rwRequest rw b k, l⟩) :
    Fresh (s.become p { s.cache with pending := update s.cache.pending b (some rw) }
      ⟨.waitRw b k, l⟩ cur) latest := by
  have hpcp : (s.process p).pc = .rwRequest rw b k := by rw [hP]
  have hlock : s.cache.bLock b = true := hf.locked rw b (.inr ⟨p, hp, k, hpcp⟩)
  have hcached :
    ∀ a, Cached (s.become p { s.cache with pending := update s.cache.pending b (some rw) }
      ⟨.waitRw b k, l⟩ cur) a ↔ Cached s a := fun a =>
    and_congr_right fun _ => not_congr (Inv.private_iff hp (by rw [hpcp]; cases k <;> rfl))
  have hbusy :
    ∀ rw' a, Busy (s.become p { s.cache with pending := update s.cache.pending b (some rw) }
      ⟨.waitRw b k, l⟩ cur) rw' a → Busy s rw' a := by
    intro rw' a ha
    rcases (busy_become hp).mp ha with h | ⟨k', hk'⟩ | ⟨q, hq, -, h⟩
    · by_cases hab : a = b
      · subst hab
        obtain rfl : rw = rw' := by simpa using h
        exact .inr ⟨p, hp, k, hpcp⟩
      · exact .inl ((update_of_ne hab _ _).symm.trans h)
    · cases hk'
    · exact .inr ⟨q, hq, h⟩
  constructor
  · exact fun a ha hu => (hf.cached a ((hcached a).mp ha) hu).congr rfl rfl rfl
  · intro a ha
    obtain ⟨hn, hu, hv⟩ := hf.dirty a ha
    exact ⟨hn, hu, hv.congr rfl rfl rfl⟩
  · exact hf.disk
  · intro a a' ha haa hk
    exact ⟨(hf.alone a a' ha haa hk).1,
      fun hb => (hf.alone a a' ha haa hk).2 ((hcached a').mp hb)⟩
  · exact fun rw' a ha => hf.locked rw' a (hbusy rw' a ha)
  · intro a ha
    obtain ⟨hca, hrest⟩ := hf.reading a (hbusy _ a ha)
    exact ⟨(hcached a).mpr hca, hrest⟩
  · exact fun a ha => hf.writing a (hbusy _ a ha)
  · refine hf.single_become nofun fun q hq rw' a k' hk' hqp => ?_
    have hab : a ≠ b := by
      rintro rfl
      exact hqp ((hf.single p hp rw a k hpcp).2 q hq rw' k' hk')
    exact (update_of_ne hab _ _).trans (hf.single q hq rw' a k' hk').1
  · have hok := hf.pcs p hp
    rw [hpcp] at hok
    have hmono : ∀ pc, PcOk s.cache pc →
        PcOk { s.cache with pending := update s.cache.pending b (some rw) } pc := fun pc hpc =>
      hpc.mono (fun _ _ => rfl) (fun _ _ h => h) (fun _ _ h => h)
    refine forall_become (hmono _ ?_) fun q hq _ => hmono _ (hf.pcs q hq)
    cases k with
    | syncDev r tmp dev i =>
      obtain ⟨-, rfl, hd, hc⟩ := hok
      exact ⟨rfl, hd, hc, fun hi => .inl (hi ▸ hlock)⟩
    | bread r => exact hok.2

theorem Fresh.assign (hs : Inv s) (hp : p < nrTasks) {d blk : Nat}
    (hv : (s.process p).pc.victim = some b) (hn' : ∀ rw b k, (s.process p).pc ≠ .rwRequest rw b k)
    (hclean : Clean s.cache b) (hc : c = { s.cache with
      queues := qs
      bCount := m
      bDev := update s.cache.bDev b d
      bBlocknr := update s.cache.bBlocknr b blk
      bDirt := update s.cache.bDirt b false
      bUptodate := update s.cache.bUptodate b false }) (hvP : P.pc.victim = none)
    (hn : ∀ rw b k, P.pc ≠ .rwRequest rw b k) (hpc : PcOk c P.pc) :
    Fresh (s.become p c P cur) latest := by
  have hkey : ∀ a, a ≠ b → c.key a = s.cache.key a := fun a ha => by
    simp [hc, Cache.key, ha]
  have hdirt : ∀ a, c.bDirt a = true → a ≠ b ∧ s.cache.bDirt a = true := fun a ha => by
    rw [hc] at ha
    exact of_update ha nofun
  have hdirt' : ∀ a, s.cache.bDirt a = true → a ≠ b := by
    rintro a ha rfl
    rw [hclean.1] at ha
    cases ha
  have hdirtEq : ∀ a, a ≠ b → c.bDirt a = s.cache.bDirt a := fun a ha => by simp [hc, ha]
  have hcached : ∀ a, a ≠ b → (Cached (s.become p c P cur) a ↔ Cached s a) := by
    intro a hab
    refine and_congr (by rw [hc]; rfl) (not_congr ?_)
    rw [private_become hp, hvP, or_iff_right nofun]
    refine ⟨fun ⟨q, hq, _, hvq⟩ => ⟨q, hq, hvq⟩, fun ⟨q, hq, hvq⟩ => ⟨q, hq, ?_, hvq⟩⟩
    rintro rfl
    rw [hv] at hvq
    exact hab (Option.some.inj hvq).symm
  have hup : ∀ a, c.bUptodate a = true → a ≠ b ∧ s.cache.bUptodate a = true := fun a ha => by
    rw [hc] at ha
    exact of_update ha nofun
  have hbusy : ∀ rw a, Busy (s.become p c P cur) rw a ↔ Busy s rw a := fun rw a =>
    busy_iff hp hn hn' (by rw [hc])
  have hvalid : ∀ a, a ≠ b → Valid s.cache latest a → Valid c latest a := fun a hab h =>
    h.congr (hkey a hab) (by rw [hc]) (by rw [hc])
  constructor
  · intro a ha hu
    obtain ⟨hab, hu⟩ := hup a hu
    exact hvalid a hab (hf.cached a ((hcached a hab).mp ha) hu)
  · intro a ha
    obtain ⟨hab, ha⟩ := hdirt a ha
    obtain ⟨hn, hu, hv⟩ := hf.dirty a ha
    refine ⟨?_, ?_, hvalid a hab hv⟩
    · simpa [State.become, hc] using hn
    · simpa [State.become, hc, hab] using hu
  · intro k hk
    have hdisk : c.disk = s.cache.disk := by rw [hc]
    show c.disk k.1 k.2 = _
    rw [hdisk]
    refine hf.disk k fun a ha => ?_
    have hab := hdirt' a ha
    rw [← hkey a hab]
    exact hk a ((hdirtEq a hab).trans ha)
  · intro a a' ha haa hk
    obtain ⟨hab, ha⟩ := hdirt a ha
    by_cases hab' : a' = b
    · subst hab'
      exact ⟨by simp [State.become, hc], fun _ => by simp [State.become, hc]⟩
    · have hk : s.cache.key a = s.cache.key a' := by
        rw [← hkey a hab, ← hkey a' hab']
        exact hk
      obtain ⟨hd, hu⟩ := hf.alone a a' ha haa hk
      refine ⟨(hdirtEq a' hab').trans hd, fun hca => ?_⟩
      simpa [State.become, hc, hab'] using hu ((hcached a' hab').mp hca)
  · intro rw a ha
    simpa [State.become, hc] using hf.locked rw a ((hbusy rw a).mp ha)
  · intro a ha
    obtain ⟨hca, hd, hr, hk⟩ := hf.reading a ((hbusy _ a).mp ha)
    have hab : a ≠ b := by
      rintro rfl
      exact hca.2 ⟨p, hp, hv⟩
    refine ⟨(hcached a hab).mpr hca, ?_, ?_, fun a' ha' => ?_⟩
    · simpa [State.become, hc, hab] using hd
    · simpa [State.become, hc, hab, inRange] using hr
    · obtain ⟨hab', ha'⟩ := hdirt a' ha'
      show c.key a' ≠ c.key a
      rw [hkey a' hab', hkey a hab]
      exact hk a' ha'
  · intro a ha
    have hd := hf.writing a ((hbusy _ a).mp ha)
    exact (hdirtEq a (hdirt' a hd)).trans hd
  · refine hf.single_become hn fun q hq rw a k hk _ => ?_
    rw [hc]
    exact (hf.single q hq rw a k hk).1
  · refine forall_become hpc fun q hq hqp => ?_
    have hne : ∀ a, (s.process q).pc.holds = some a → a ≠ b := by
      rintro a ha rfl
      exact (hs.refs_of_victim hp hv hq).2 hqp ha
    refine (hf.pcs q hq).mono (fun a ha => hkey a (hne a ha)) (fun a ha hca => ?_)
      (fun a ha hla => ?_)
    · have hab := hne a (Pc.holds_of_victim ha)
      exact ⟨(hdirtEq a hab).trans hca.1, by rw [hc]; exact hca.2⟩
    · have hab := hne a (Pc.holds_of_victim ha)
      show c.bLock a = true ∨ c.bDirt a = false
      rw [hdirtEq a hab, hc]
      exact hla

theorem Fresh.change (hs : Inv s) (hp : p < nrTasks)
    (hmem : b ∈ (s.process p).refs) (hl : s.cache.bLock b = false)
    (hu : s.cache.bUptodate b = true) {data : α} (hc : c = { s.cache with
      bData := update s.cache.bData b data
      bUptodate := update s.cache.bUptodate b true
      bDirt := update s.cache.bDirt b true }) :
    Fresh ⟨c, s.process, cur⟩ (update latest (s.cache.key b) data) := by
  have hcb : Cached s b := by
    refine ⟨hs.known p hp b ?_, fun ⟨q, hq, hv⟩ => (hs.refs_of_victim hq hv hp).1 hmem⟩
    have hpos : 0 < (s.process p).refs.count b := List.count_pos_iff.mpr hmem
    unfold Process.refsTo
    omega
  have hvb := hf.cached b hcb hu
  -- No other buffer that counts has the block.
  have hdirtKey : ∀ a, s.cache.bDirt a = true → a ≠ b → s.cache.key a ≠ s.cache.key b := by
    intro a ha hab hk
    have hu' := (hf.alone a b ha hab hk).2 hcb
    rw [hu] at hu'
    cases hu'
  have hcachedKey : ∀ a, Cached s a → a ≠ b → s.cache.key a ≠ s.cache.key b := by
    intro a ha hab hk
    exact hab (hs.key_unique hcb ha hvb.dev hk.symm).symm
  have hdirt : ∀ a, a ≠ b → update s.cache.bDirt b true a = s.cache.bDirt a := fun a hab =>
    update_of_ne hab _ _
  have hself : Valid c (update latest (s.cache.key b) data) b := by
    subst hc
    refine ⟨hvb.dev, hvb.range, ?_⟩
    show update s.cache.bData b data b = update latest (s.cache.key b) data (s.cache.key b)
    rw [update_self, update_self]
  have hvalid : ∀ a, a ≠ b → s.cache.key a ≠ s.cache.key b → Valid s.cache latest a →
      Valid c (update latest (s.cache.key b) data) a := by
    intro a hab hk hv
    subst hc
    refine ⟨hv.dev, hv.range, ?_⟩
    show update s.cache.bData b data a = update latest (s.cache.key b) data (s.cache.key a)
    rw [update_of_ne hab, update_of_ne hk]
    exact hv.data
  subst hc
  constructor
  · intro a ha hua
    by_cases hab : a = b
    · exact hab ▸ hself
    · have hua : s.cache.bUptodate a = true := (update_of_ne hab _ _).symm.trans hua
      exact hvalid a hab (hcachedKey a ha hab) (hf.cached a ha hua)
  · intro a ha
    by_cases hab : a = b
    · subst hab
      exact ⟨hcb.1, update_self .., hself⟩
    · have ha : s.cache.bDirt a = true := (hdirt a hab).symm.trans ha
      obtain ⟨hn, hua, hv⟩ := hf.dirty a ha
      exact ⟨hn, (update_of_ne hab _ _).trans hua, hvalid a hab (hdirtKey a ha hab) hv⟩
  · intro k hk
    have hkb : k ≠ s.cache.key b := fun hkb => hk b (update_self ..) hkb.symm
    rw [update_of_ne hkb]
    exact hf.disk k fun a ha => hk a (update_eq fun _ => ha)
  · intro a a' ha haa hk
    show update s.cache.bDirt b true a' = false ∧ (_ → update s.cache.bUptodate b true a' = false)
    by_cases hab : a = b
    · subst hab
      have haa' : a' ≠ a := Ne.symm haa
      rw [hdirt a' haa', update_of_ne haa']
      refine ⟨?_, fun hca => absurd hk.symm (hcachedKey a' hca haa')⟩
      by_contra hd
      exact hdirtKey a' (by simpa using hd) haa' hk.symm
    · have hda : s.cache.bDirt a = true := (hdirt a hab).symm.trans ha
      have hab' : a' ≠ b := fun hab' => hdirtKey a hda hab (hab' ▸ hk)
      rw [hdirt a' hab', update_of_ne hab']
      exact hf.alone a a' hda haa hk
  · exact hf.locked
  · intro a ha
    obtain ⟨hca, hd, hr, hk⟩ := hf.reading a ha
    refine ⟨hca, hd, hr, fun a' ha' => ?_⟩
    by_cases hab : a' = b
    · rw [hab]
      refine Ne.symm (hcachedKey a hca ?_)
      rintro rfl
      rw [hf.locked _ a ha] at hl
      cases hl
    · exact hk a' ((hdirt a' hab).symm.trans ha')
  · exact fun a ha => update_eq fun _ => hf.writing a ha
  · exact hf.single
  · intro q hq
    have hne : ∀ a, (s.process q).pc.victim = some a → a ≠ b := by
      rintro a ha rfl
      exact hcb.2 ⟨q, hq, ha⟩
    refine (hf.pcs q hq).mono (fun _ _ => rfl) (fun a ha hca => ?_) (fun a ha hla => ?_)
    · exact ⟨(hdirt a (hne a ha)).trans hca.1, hca.2⟩
    · show s.cache.bLock a = true ∨ update s.cache.bDirt b true a = false
      rw [hdirt a (hne a ha)]
      exact hla

/-- After a request buffer and disk have the latest contents. -/
theorem Fresh.transfer (hc : endRequest s.cache b .ok = some c) :
    ∃ rw disk, s.cache.pending b = some rw ∧ s.cache.bDev b ≠ 0 ∧ inRange s.cache b ∧
      (∀ k, disk k.1 k.2 = if k = s.cache.key b then latest k else s.cache.disk k.1 k.2) ∧
      c = { s.cache with
        bData := update s.cache.bData b (latest (s.cache.key b))
        bUptodate := update s.cache.bUptodate b true
        bDirt := update s.cache.bDirt b false
        bLock := update s.cache.bLock b false
        pending := update s.cache.pending b none
        disk := disk } := by
  obtain ⟨rw, hpend, rfl⟩ := Option.map_eq_some_iff.mp hc
  have hb : Busy s rw b := .inl hpend
  cases rw with
  | read =>
    obtain ⟨-, hd, hr, hk⟩ := hf.reading b hb
    have hdisk := hf.disk (s.cache.key b) fun a ha => hk a ha
    refine ⟨.read, s.cache.disk, hpend, hd, hr, fun k => ?_, ?_⟩
    · split
      · rename_i hkb
        rw [hkb]
        exact hdisk
      · rfl
    · rw [← hdisk]
      rfl
  | write =>
    obtain ⟨-, -, hv⟩ := hf.dirty b (hf.writing b hb)
    refine ⟨.write, update s.cache.disk (s.cache.bDev b)
      (update (s.cache.disk (s.cache.bDev b)) (s.cache.bBlocknr b) (s.cache.bData b)), hpend,
      hv.dev,
      hv.range, fun ⟨d, blk⟩ => ?_, ?_⟩
    · by_cases hd : d = s.cache.bDev b
      · subst hd
        by_cases hblk : blk = s.cache.bBlocknr b
        · subst hblk
          simpa [Cache.key] using hv.data
        · simp [Cache.key, hblk]
      · simp [Cache.key, hd]
    · rw [← hv.data, update_eq_self]

theorem Fresh.endRequest (hc : endRequest s.cache b .ok = some c) :
    Fresh { s with cache := c } latest := by
  obtain ⟨rw, disk, hpend, hdev, hrange, hdisk, hceq⟩ := hf.transfer hc
  have hb : Busy s rw b := .inl hpend
  have hother : ∀ a, s.cache.bDirt a = true → a ≠ b → s.cache.key a ≠ s.cache.key b := by
    intro a ha hab hk
    cases rw with
    | read => exact (hf.reading b hb).2.2.2 a ha hk
    | write =>
      have hd := (hf.alone a b ha hab hk).1
      rw [hf.writing b hb] at hd
      cases hd
  have hdirt : ∀ a, update s.cache.bDirt b false a = true → a ≠ b ∧ s.cache.bDirt a = true :=
    fun a ha => of_update ha nofun
  have hbusy : ∀ rw' a, Busy { s with cache := c } rw' a → a ≠ b ∧ Busy s rw' a := by
    subst hceq
    rintro rw' a (ha | ⟨p, hp, k, hk⟩)
    · exact (of_update ha nofun).imp_right .inl
    · refine ⟨?_, .inr ⟨p, hp, k, hk⟩⟩
      rintro rfl
      rw [(hf.single p hp rw' a k hk).1] at hpend
      cases hpend
  have hvalid : ∀ a, a ≠ b → Valid s.cache latest a → Valid c latest a := by
    subst hceq
    exact fun a hab hv => hv.congr rfl rfl (update_of_ne hab _ _)
  subst hceq
  constructor
  · intro a ha hu
    by_cases hab : a = b
    · subst hab
      exact ⟨hdev, hrange, update_self ..⟩
    · have hu : s.cache.bUptodate a = true := (update_of_ne hab _ _).symm.trans hu
      exact hvalid a hab (hf.cached a ha hu)
  · intro a ha
    obtain ⟨hab, ha⟩ := hdirt a ha
    obtain ⟨hn, hu, hv⟩ := hf.dirty a ha
    exact ⟨hn, (update_of_ne hab _ _).trans hu, hvalid a hab hv⟩
  · intro k hk
    show disk k.1 k.2 = latest k
    rw [hdisk]
    split
    · rfl
    · rename_i hkb
      refine hf.disk k fun a ha => ?_
      by_cases hab : a = b
      · exact hab ▸ Ne.symm hkb
      · exact hk a ((update_of_ne hab _ _).trans ha)
  · intro a a' ha haa hk
    obtain ⟨hab, ha⟩ := hdirt a ha
    have hab' : a' ≠ b := fun hab' => hother a ha hab (hab' ▸ hk)
    obtain ⟨hd, hu⟩ := hf.alone a a' ha haa hk
    exact ⟨(update_of_ne hab' _ _).trans hd, fun hca => (update_of_ne hab' _ _).trans (hu hca)⟩
  · intro rw' a ha
    obtain ⟨hab, ha⟩ := hbusy rw' a ha
    exact (update_of_ne hab _ _).trans (hf.locked rw' a ha)
  · intro a ha
    obtain ⟨hab, ha⟩ := hbusy _ a ha
    obtain ⟨hca, hd, hr, hk⟩ := hf.reading a ha
    exact ⟨hca, hd, hr, fun a' ha' => hk a' (hdirt a' ha').2⟩
  · intro a ha
    obtain ⟨hab, ha⟩ := hbusy _ a ha
    exact (update_of_ne hab _ _).trans (hf.writing a ha)
  · intro p hp rw' a k hk
    obtain ⟨hnone, hone⟩ := hf.single p hp rw' a k hk
    exact ⟨update_eq fun _ => hnone, hone⟩
  · intro p hp
    refine (hf.pcs p hp).mono (fun _ _ => rfl) (fun a ha hca => ?_) (fun a ha hla => ?_)
    · exact ⟨update_eq fun _ => hca.1, update_eq fun _ => hca.2⟩
    · show update s.cache.bLock b false a = true ∨ update s.cache.bDirt b false a = false
      by_cases hab : a = b
      · rw [hab, update_self, update_self]
        exact .inr rfl
      · rw [update_of_ne hab, update_of_ne hab]
        exact hla

end

theorem cached_iff (hp : p < nrTasks) (hn : c.nrBuffers = s.cache.nrBuffers)
    (hv : P.pc.victim = (s.process p).pc.victim) : Cached (s.become p c P cur) b ↔ Cached s b :=
  and_congr (by rw [← hn]; rfl) (not_congr (Inv.private_iff hp hv))

theorem Fresh.keep (hf : Fresh s latest) (hp : p < nrTasks) {Q : Process} (hP : s.process p = Q)
    (hpc : PcOk s.cache P.pc := by trivial) (hc : c = { s.cache with bCount := m } := by rfl)
    (hn : ∀ rw b k, P.pc ≠ .rwRequest rw b k := by nofun)
    (hn' : ∀ rw b k, Q.pc ≠ .rwRequest rw b k := by nofun)
    (hv : P.pc.victim = Q.pc.victim := by rfl) : Fresh (s.become p c P cur) latest := by
  subst hP
  have hnr : c.nrBuffers = s.cache.nrBuffers := by rw [hc]
  exact hf.quiet hp hc hn hn' (fun b => (cached_iff hp hnr hv).mp)
    (fun b _ => (cached_iff hp hnr hv).mpr) hpc

theorem Fresh.gets (hf : Fresh s latest) (hs : Inv s) (hp : p < nrTasks)
    (hP : s.process p = ⟨.waitHash r b, l⟩) (hl : s.cache.bLock b = false)
    (hk : s.cache.key b = (r.dev, r.block)) (hg : Gets s.cache r b l c P)
    (hq : ∀ rw k, P.pc = .rwRequest rw b k →
      ∀ a, Private s a → s.cache.bDirt a = true → s.cache.key a ≠ s.cache.key b) :
    Fresh (s.become p c P cur) latest := by
  have hn' : ∀ rw b k, (s.process p).pc ≠ .rwRequest rw b k := by
    rw [hP]
    exact nofun
  cases hg with
  | give hu => exact hf.keep hp hP
  | read hc hu hd hr =>
    refine hf.start hp rfl hn' (by rw [hP]; rfl) hl nofun (fun _ => ?_) ⟨rfl, hk⟩
    have hcb : Cached s b := hs.cached_of_refs hp (Process.one_le_refsTo (by rw [hP]; rfl))
      (by rw [hP]; exact nofun)
    have hdev : s.cache.bDev b ≠ 0 := by
      intro h0
      rw [h0] at hd
      cases hd
    refine ⟨hcb, hdev, hr, fun a ha hka => ?_⟩
    by_cases hpriv : Private s a
    · exact hq _ _ rfl a hpriv ha hka
    · obtain ⟨han, hua, hva⟩ := hf.dirty a ha
      obtain rfl := hs.key_unique ⟨han, hpriv⟩ hcb hva.dev hka
      rw [hu] at hua
      cases hua
  | unreadable hc hu hr => exact hf.keep hp hP

theorem Fresh.take (hf : Fresh s latest) (hp : p < nrTasks)
    (hP : s.process p = ⟨.waitScan r b, l⟩) (hl : s.cache.bLock b = false) :
    Fresh (s.become p (takeBuffer s.cache b)
      ⟨if s.cache.bDirt b then .sync r b (s.cache.bDev b) 0 else .assign r b, l⟩ cur) latest := by
  have hiff : ∀ a, Private (s.become p (takeBuffer s.cache b)
      ⟨if s.cache.bDirt b then .sync r b (s.cache.bDev b) 0 else .assign r b, l⟩ cur) a ↔
        a = b ∨ Private s a := by
    intro a
    have hv : (if s.cache.bDirt b then Pc.sync r b (s.cache.bDev b) 0 else .assign r b).victim =
        some b := by split <;> rfl
    rw [private_become hp, hv, Option.some.injEq]
    refine or_congr eq_comm ⟨fun ⟨q, hq, _, hvq⟩ => ⟨q, hq, hvq⟩, fun ⟨q, hq, hvq⟩ => ?_⟩
    refine ⟨q, hq, ?_, hvq⟩
    rintro rfl
    rw [hP] at hvq
    cases hvq
  refine hf.quiet hp rfl ?_ (by rw [hP]; exact nofun) (fun a ha => ?_) (fun a hbusy ha => ?_) ?_
  · split <;> exact nofun
  · exact ⟨ha.1, fun hpriv => ha.2 ((hiff a).mpr (.inr hpriv))⟩
  · refine ⟨ha.1, fun hpriv => ?_⟩
    rcases (hiff a).mp hpriv with rfl | hpriv
    · rw [hf.locked _ a hbusy] at hl
      cases hl
    · exact ha.2 hpriv
  · split
    · exact ⟨rfl, nofun⟩
    · rename_i hd
      exact ⟨by simpa using hd, hl⟩

theorem giveUp_eq (c : Cache α) (b d blk : Nat) : ∃ qs m,
    giveUp (assignBuffer c b d blk) b = { c with
      queues := qs
      bCount := m
      bDev := update c.bDev b 0
      bBlocknr := update c.bBlocknr b 0
      bDirt := update c.bDirt b false
      bUptodate := update c.bUptodate b false } := by
  refine ⟨(giveUp (assignBuffer c b d blk) b).queues, (giveUp (assignBuffer c b d blk) b).bCount,
    ?_⟩
  simp only [giveUp, insertIntoQueues, assignBuffer, update_idem]

theorem scanNext_ne (c : Cache α) (r : Request) (tmp : Nat) (rw : Rw) (b : Nat) (k : Return) :
    scanNext c r tmp ≠ .rwRequest rw b k := by
  unfold scanNext
  split <;> exact nofun

theorem scanNext_victim (c : Cache α) (r : Request) (tmp : Nat) :
    (scanNext c r tmp).victim = none := by
  unfold scanNext
  split <;> rfl

theorem pcOk_scanNext (c : Cache α) (r : Request) (tmp : Nat) : PcOk c (scanNext c r tmp) := by
  unfold scanNext
  split <;> trivial

/-- A move keeps the contents fresh, unless it reads a dirty private block. -/
theorem Fresh.moves (hf : Fresh s latest) (hs : Inv s) (hp : p < nrTasks)
    (hm : Moves s.cache (s.process p) c P) (hq : ∀ b r, P.pc = .rwRequest .read b (.bread r) →
      ∀ a, Private s a → s.cache.bDirt a = true → s.cache.key a ≠ (r.dev, r.block)) :
    Fresh (s.become p c P cur) latest := by
  have hok := hf.pcs p hp
  generalize hP : s.process p = Q at hm
  rw [hP] at hok
  cases hm with
  | found hfind => exact hf.keep hp hP
  | absent => exact hf.keep hp hP
  | search => exact hf.keep hp hP
  | changed => exact hf.keep hp hP
  | @got r bh l _ _ hl hd hb hg =>
    have hk : s.cache.key bh = (r.dev, r.block) := Prod.ext hd hb
    refine hf.gets hs hp hP hl hk hg fun rw k hpc a ha hda => ?_
    rw [hk]
    cases hg with
    | read => exact hq bh r rfl a ha hda
    | _ => cases hpc
  | again hc =>
    exact hf.keep hp hP trivial (countDown_eq hc)
  | look => exact hf.keep hp hP
  | skip =>
    exact hf.keep hp hP (pcOk_scanNext s.cache _ _) rfl (scanNext_ne s.cache _ _) nofun
      (scanNext_victim s.cache _ _)
  | lost =>
    exact hf.keep hp hP (pcOk_scanNext s.cache _ _) rfl (scanNext_ne s.cache _ _) nofun
      (scanNext_victim s.cache _ _)
  | take hl hc => exact hf.take hp hP hl
  | wake => exact hf.keep hp hP
  | @other r tmp dev i l hd =>
    refine hf.keep hp hP ⟨hok.1, fun hi => ?_⟩
    have hne : tmp ≠ i := by
      rintro rfl
      exact hd hok.1
    exact hok.2 (by omega)
  | check => exact hf.keep hp hP hok
  | @synced r tmp dev i l hi =>
    refine hf.keep hp hP (hok.2 ?_)
    have hlt := hs.victim_lt (b := tmp) hp (by rw [hP]; rfl)
    omega
  | @clean r tmp dev i l hl hd =>
    refine hf.keep hp hP ⟨hok.1, fun hi => ?_⟩
    by_cases hti : tmp = i
    · subst hti
      exact ⟨hd, hl⟩
    · exact hok.2 (by omega)
  | write hl hd hr =>
    exact hf.start hp rfl (by rw [hP]; rintro _ _ _ ⟨⟩) (by rw [hP]; rfl) hl (fun _ => hd)
      (by rintro ⟨⟩) ⟨rfl, rfl, hok.1, hok.2⟩
  | unwritable hl hd hr => exact absurd (hf.dirty _ hd).2.2.range hr
  | request => exact hf.request hp hP
  | @written bh r tmp dev i l hl =>
    obtain ⟨rfl, hdev, hc, hlast⟩ := hok
    refine hf.keep hp hP ⟨hdev, fun hi => ?_⟩
    by_cases hti : tmp = bh
    · subst hti
      exact ⟨(hlast rfl).resolve_left (by simp [hl]), hl⟩
    · exact hc (by omega)
  | done hl hu => exact hf.keep hp hP
  | failed => exact hf.keep hp hP
  | @beaten r tmp l =>
    obtain ⟨qs, m, hc⟩ := giveUp_eq s.cache tmp r.dev r.block
    exact hf.assign hs hp (by rw [hP]; rfl) (by rw [hP]; rintro _ _ _ ⟨⟩) hok hc rfl
      (by rintro _ _ _ ⟨⟩) trivial
  | @assigned r tmp l _ _ hfind hg =>
    have hv : (s.process p).pc.victim = some tmp := by rw [hP]; rfl
    have hmid : Fresh (s.become p (insertIntoQueues (assignBuffer s.cache tmp r.dev r.block) tmp)
        ⟨.waitHash r tmp, l⟩ cur) latest :=
      hf.assign hs hp hv (by rw [hP]; rintro _ _ _ ⟨⟩) hok rfl rfl (by rintro _ _ _ ⟨⟩) trivial
    have hkey : (assignBuffer s.cache tmp r.dev r.block).key tmp = (r.dev, r.block) := by
      simp [Cache.key, assignBuffer]
    rw [← become_become s p _ c _ P cur cur]
    refine hmid.gets (hs.assigned hp hP hfind) hp (update_self ..) hok.2 hkey hg
      fun rw k hpc a ha hda => ?_
    have hat : a ≠ tmp := by
      rintro rfl
      simp [State.become, insertIntoQueues, assignBuffer] at hda
    have hpriv : Private s a := by
      obtain ⟨q, hq', -, hvq⟩ := ((private_become hp).mp ha).resolve_left (by rintro ⟨⟩)
      exact ⟨q, hq', hvq⟩
    have hda : s.cache.bDirt a = true := by
      simpa [State.become, insertIntoQueues, assignBuffer, hat] using hda
    have hka : (assignBuffer s.cache tmp r.dev r.block).key a = s.cache.key a := by
      simp [Cache.key, assignBuffer, hat]
    show (assignBuffer s.cache tmp r.dev r.block).key a ≠
      (assignBuffer s.cache tmp r.dev r.block).key tmp
    rw [hkey, hka]
    cases hg with
    | read => exact hq tmp r rfl a hpriv hda
    | _ => cases hpc
  | released hc =>
    exact hf.keep hp hP trivial (countDown_eq hc)

end Become

end Linux001.Buffer
