import Linux001.Buffer.Representation
import Linux001.Buffer.Sync
import Linux001.ProofKit.Hoare

/-! `sys_sync` leaves nothing dirty. While its first pass stores inodes, `getblk` gives buffers to
other blocks; the invariant therefore follows the blocks: one that has been dirty has its latest
contents in its buffer, and on the disk once it has no dirty buffer. -/

namespace Linux001.Buffer.Sync

open Function ProofKit

/-! ### The disk -/

section Disk

variable {m : Machine} {bh d k : Nat}

theorem onDisk_transfer_self :
    (m.transfer .write bh).onDisk (m.cache.bDev bh) (m.cache.bBlocknr bh) = m.cache.bData bh := by
  funext i
  show m.writeDisk _ _ _ _ (m.address (m.cache.bDev bh) (m.cache.bBlocknr bh) + i) = _
  rw [Machine.writeDisk, dif_pos ⟨rfl, by omega, by omega⟩]
  exact congrArg (m.cache.bData bh) (Fin.ext (Nat.add_sub_cancel_left ..))

theorem onDisk_transfer_apart (h : ¬m.Overlap (m.cache.bDev bh) (m.cache.bBlocknr bh) d k) :
    (m.transfer .write bh).onDisk d k = m.onDisk d k := by
  funext i
  show m.writeDisk _ _ _ _ (m.address d k + i) = m.drive _ (m.address d k + i)
  rw [Machine.writeDisk, dif_neg]
  rintro ⟨hd, hle, hlt⟩
  exact h ⟨hd.symm, by omega, by omega⟩

end Disk

/-! ### The invariant -/

/-- What holds beside the state: the dirty blocks and their contents to come, the counts, the buffer
that `getblk` holds, and the inode table. -/
@[ext]
structure Ghost where
  written : Nat → Nat → Prop
  contents : Nat → Nat → Block
  count : Nat → Nat
  out : Option Nat
  inode : Nat → MInode

structure Inv (m₀ : Machine) (g : Ghost) (m : Machine) : Prop where
  nrBuffers : m.cache.nrBuffers = m₀.cache.nrBuffers
  nrSects : m.cache.nrSects = m₀.cache.nrSects
  startSect : m.startSect = m₀.startSect
  superBlock : m.superBlock = m₀.superBlock
  inode : m.inode = g.inode
  count : m.cache.bCount = g.count
  queues : ∃ chain free, Wf m.cache chain free ∧
    ∀ b, b ∈ free ↔ b < m.cache.nrBuffers ∧ g.out ≠ some b
  unlocked : ∀ b < m.cache.nrBuffers, m.cache.bLock b = false
  tracked : ∀ d k, g.written d k → m₀.Tracked d k
  dirty : ∀ b < m.cache.nrBuffers, m.cache.bDirt b = true →
    m.cache.bUptodate b = true ∧ g.written (m.cache.bDev b) (m.cache.bBlocknr b)
  data : ∀ b < m.cache.nrBuffers, m.cache.bUptodate b = true →
    g.written (m.cache.bDev b) (m.cache.bBlocknr b) →
    m.cache.bData b = g.contents (m.cache.bDev b) (m.cache.bBlocknr b)
  disk : ∀ d k, g.written d k → ¬m.DirtyBlock d k → m.onDisk d k = g.contents d k

section

variable {m0 m : Machine} {g : Ghost} {bh dev block : Nat} {rw : Rw}
  {image : Fin dInodeSize → UInt8} {base' : Nat → Nat → Block}

theorem Ready.tracked_valid (hr : Ready m0) (ht : m0.Tracked dev block) : m0.Valid dev block := by
  rcases ht with ⟨b, hb, hd, rfl, rfl⟩ | ⟨i, hi, rfl, hh⟩
  · exact (hr.dirty b hb hd).2
  · obtain ⟨-, block', hh', hv⟩ := hr.inodes i hi
    cases hh.symm.trans hh'
    exact hv

theorem Machine.Valid.ne_zero (h : m.Valid dev block) : dev ≠ 0 := by
  rintro rfl
  exact absurd h.1 (by decide)

namespace Inv

theorem valid (h : Inv m0 g m) (hv : m0.Valid dev block) : m.Valid dev block := by
  rw [Machine.Valid, h.nrSects]
  exact hv

theorem overlap (h : Inv m0 g m) {d k d' k' : Nat} (ho : m.Overlap d k d' k') :
    m0.Overlap d k d' k' := by
  have ha : ∀ d k, m.address d k = m0.address d k := fun d k => by
    rw [Machine.address, h.startSect, Machine.address]
  rw [Machine.Overlap, ha, ha] at ho
  exact ho

theorem of_transfer (h : Inv m0 g m)
    (hdata : ∀ b < m.cache.nrBuffers, (m.transfer rw bh).cache.bUptodate b = true →
      g.written (m.cache.bDev b) (m.cache.bBlocknr b) →
      (m.transfer rw bh).cache.bData b = g.contents (m.cache.bDev b) (m.cache.bBlocknr b))
    (hdisk : ∀ d k, g.written d k →
      (∀ b < m.cache.nrBuffers, b ≠ bh → m.cache.bDirt b = true →
        ¬(m.cache.bDev b = d ∧ m.cache.bBlocknr b = k)) →
      (m.transfer rw bh).onDisk d k = g.contents d k) :
    Inv m0 g (m.transfer rw bh) := by
  have hdirt : ∀ b, (m.transfer rw bh).cache.bDirt b = true ↔ b ≠ bh ∧ m.cache.bDirt b = true := by
    intro b
    simp [Machine.transfer, update_apply]
  refine ⟨h.nrBuffers, h.nrSects, h.startSect, h.superBlock, h.inode, h.count, ?_, fun b hb => ?_,
    h.tracked, fun b hb hd => ?_, hdata, fun d k hw hn => hdisk d k hw fun b hb hne hd hk => ?_⟩
  · obtain ⟨chain, free, hwf, hfree⟩ := h.queues
    exact ⟨chain, free, hwf.congr rfl rfl fun _ _ => ⟨rfl, rfl⟩, hfree⟩
  · show update m.cache.bLock bh false b = false
    rw [update_apply]
    split
    · rfl
    · exact h.unlocked b hb
  · obtain ⟨hne, hd⟩ := (hdirt b).mp hd
    refine ⟨?_, (h.dirty b hb hd).2⟩
    show update m.cache.bUptodate bh true b = true
    rw [update_of_ne hne]
    exact (h.dirty b hb hd).1
  · exact hn ⟨b, hb, (hdirt b).mpr ⟨hne, hd⟩, hk⟩

theorem write (h : Inv m0 g m) (hs : NoOverlap m0) (hb : bh < m.cache.nrBuffers)
    (hd : m.cache.bDirt bh = true) : Inv m0 g (m.transfer .write bh) := by
  obtain ⟨hup, hw⟩ := h.dirty bh hb hd
  refine h.of_transfer (fun b hb' hu hw' => ?_) fun d k hw' hn => ?_
  · refine h.data b hb' ?_ hw'
    by_cases hbb : b = bh
    · exact hbb ▸ hup
    · simpa [Machine.transfer, hbb] using hu
  by_cases hkey : d = m.cache.bDev bh ∧ k = m.cache.bBlocknr bh
  · obtain ⟨rfl, rfl⟩ := hkey
    rw [onDisk_transfer_self]
    exact h.data bh hb hup hw
  have hapart : ¬m.Overlap (m.cache.bDev bh) (m.cache.bBlocknr bh) d k := fun ho => by
    have := hs _ _ _ _ (h.tracked _ _ hw) (h.tracked _ _ hw') (h.overlap ho)
    exact hkey ⟨this.1.symm, this.2.symm⟩
  rw [onDisk_transfer_apart hapart]
  refine h.disk d k hw' ?_
  rintro ⟨b, hb', hd', rfl, rfl⟩
  refine hn b hb' ?_ hd' ⟨rfl, rfl⟩
  rintro rfl
  exact hkey ⟨rfl, rfl⟩

end Inv

structure SameKeys (m m' : Machine) : Prop where
  dev : m'.cache.bDev = m.cache.bDev
  blocknr : m'.cache.bBlocknr = m.cache.bBlocknr

theorem waitOnBuffer_eq (h : Inv m0 g m) (hb : bh < m.cache.nrBuffers) :
    waitOnBuffer bh m = .ok () m := by
  show (if m.cache.bLock bh = true then throw .asleep else pure () : Call Unit) m = _
  rw [h.unlocked bh hb]
  rfl

theorem llRwBlock_eq (hv : m.Valid (m.cache.bDev bh) (m.cache.bBlocknr bh)) :
    llRwBlock rw bh m = .ok () (m.transfer rw bh) := by
  have hin : inRange m.cache bh := hv.2.2
  rw [llRwBlock, get_bind, if_neg (not_not_intro hv.1)]
  show EStateM.Result.ok () (if inRange m.cache bh then m.transfer rw bh else m) = _
  rw [if_pos hin]

structure Cleaned (bh : Nat) (m m' : Machine) : Prop extends SameKeys m m' where
  dirt : m'.cache.bDirt = update m.cache.bDirt bh false

theorem writeDirty_returns (h : Inv m0 g m) (hr : Ready m0) (hs : NoOverlap m0)
    (hb : bh < m.cache.nrBuffers) :
    Returns (writeDirty bh) m fun _ m' => Inv m0 g m' ∧ Cleaned bh m m' := by
  refine .step (waitOnBuffer_eq h hb) ?_
  refine .step rfl (returns_ite.mpr ⟨fun hd => ?_, fun hd => ?_⟩)
  · have hv := h.valid (hr.tracked_valid (h.tracked _ _ (h.dirty bh hb hd).2))
    exact (returns_of_eq (llRwBlock_eq hv)).mpr ⟨h.write hs hb hd, ⟨rfl, rfl⟩, rfl⟩
  · refine returns_pure.mpr ⟨h, ⟨rfl, rfl⟩, ?_⟩
    rw [← Bool.eq_false_iff.mpr hd, update_eq_self]

theorem syncDev_returns (h : Inv m0 g m) (hr : Ready m0) (hs : NoOverlap m0) :
    Returns (syncDev dev) m fun _ m' => Inv m0 g m' ∧ SameKeys m m' ∧
      ∀ b < m.cache.nrBuffers, m.cache.bDev b = dev → m'.cache.bDirt b = false := by
  refine .step rfl ?_
  refine returns_forM_range (I := fun n m' => Inv m0 g m' ∧ SameKeys m m' ∧
    ∀ b < n, m.cache.bDev b = dev → m'.cache.bDirt b = false) ?_ ?_
  · exact ⟨h, ⟨rfl, rfl⟩, fun b hb => absurd hb (Nat.not_lt_zero b)⟩
  rintro i m' hi ⟨h', hk, hclean⟩
  have hi' : i < m'.cache.nrBuffers := by
    rw [h'.nrBuffers, ← h.nrBuffers]
    exact hi
  refine .step rfl (returns_ite.mpr ⟨fun hd => ?_, fun hd => ?_⟩)
  · refine (writeDirty_returns h' hr hs hi').imp fun _ t ⟨ht, hc⟩ => ?_
    refine ⟨ht, ⟨hc.dev.trans hk.dev, hc.blocknr.trans hk.blocknr⟩, fun b hb hbd => ?_⟩
    rw [hc.dirt, update_apply]
    split
    · rfl
    · exact hclean b (by omega) hbd
  · refine returns_pure.mpr ⟨h', hk, fun b hb hbd => hclean b ?_ hbd⟩
    refine lt_of_le_of_ne (Nat.lt_succ_iff.mp hb) ?_
    rintro rfl
    rw [hk.dev] at hd
    exact hd hbd

/-! ### `getblk` -/

namespace Machine

def withCache (m : Machine) (c : Cache Block) : Machine := { m with cache := c }

end Machine

theorem modifyCache_eq (f : Cache Block → Cache Block) :
    modifyCache f m = .ok () (m.withCache (f m.cache)) := rfl

theorem getHashTable_none (hf : findBuffer m.cache dev block = none) :
    getHashTable dev block m = .ok none m := by
  rw [getHashTable, get_bind, hf]
  rfl

theorem getHashTable_some (hf : findBuffer m.cache dev block = some bh)
    (hl : m.cache.bLock bh = false) :
    getHashTable dev block m = .ok (some bh) (m.withCache (countUp m.cache bh)) := by
  have hwait : waitOnBuffer bh (m.withCache (countUp m.cache bh)) =
      .ok () (m.withCache (countUp m.cache bh)) := by
    show (if m.cache.bLock bh = true then throw .asleep else pure () : Call Unit) _ = _
    rw [hl]
    rfl
  rw [getHashTable, get_bind, hf]
  refine (bind_of_eq (t := m.withCache (countUp m.cache bh)) rfl).trans ?_
  rw [bind_of_eq hwait]
  rfl

variable {n : Nat}

theorem scanFree_succ {x : Nat} (hl : m.cache.bLock x = false) :
    scanFree (n + 1) x m =
      if m.cache.bCount x = 0 then .ok (some x) m
      else if m.cache.queues.bNextFree x = m.cache.queues.freeList then .ok none m
      else scanFree n (m.cache.queues.bNextFree x) m := by
  have hwait : waitOnBuffer x m = .ok () m := by
    show (if m.cache.bLock x = true then throw .asleep else pure () : Call Unit) _ = _
    rw [hl]
    rfl
  rw [scanFree, get_bind]
  split
  · rw [bind_of_eq hwait]
    rfl
  · split <;> rfl

theorem scanFree_eq {x u : Nat} {xs zs : List Nat} (hends : zs ++ [u] = x :: xs)
    (hnext : zs.map m.cache.queues.bNextFree = xs)
    (hlast : m.cache.queues.bNextFree u = m.cache.queues.freeList)
    (hfirst : m.cache.queues.freeList ∉ xs) (hl : ∀ b ∈ x :: xs, m.cache.bLock b = false)
    (hn : (x :: xs).length ≤ n) :
    scanFree n x m = .ok ((x :: xs).find? fun b => m.cache.bCount b = 0) m := by
  induction xs generalizing n x zs with
  | nil =>
    obtain ⟨n, rfl⟩ : ∃ k, n = k + 1 := ⟨n - 1, by simp at hn; omega⟩
    obtain rfl : zs = [] := List.map_eq_nil_iff.mp hnext
    obtain rfl : u = x := by simpa using hends
    rw [scanFree_succ (hl u (by simp)), if_pos hlast, List.find?_cons]
    by_cases hc : m.cache.bCount u = 0 <;> simp [hc]
  | cons y ys ih =>
    obtain ⟨n, rfl⟩ : ∃ k, n = k + 1 := ⟨n - 1, by simp at hn; omega⟩
    obtain ⟨z, zs, rfl⟩ : ∃ z ws, zs = z :: ws := List.exists_cons_of_ne_nil fun h => by
      simp [h] at hnext
    obtain ⟨rfl, hrest⟩ := List.cons.inj hends
    obtain ⟨hzy, hnext⟩ := List.cons.inj hnext
    have hy : y ≠ m.cache.queues.freeList := fun h => hfirst (by simp [h])
    have hscan := ih hrest hnext (fun h => hfirst (List.mem_cons_of_mem y h))
      (fun b hb => hl b (List.mem_cons_of_mem z hb)) (by simpa using hn)
    rw [scanFree_succ (hl z (by simp)), hzy, if_neg hy, hscan]
    by_cases hc : m.cache.bCount z = 0
    · rw [if_pos hc, List.find?_cons_of_pos (by simpa using hc)]
    · rw [if_neg hc, List.find?_cons_of_neg (a := z) (by simpa using hc)]

theorem scanFree_spec (h : Inv m0 g m) (hout : g.out = none) :
    ∃ r, scanFree m.cache.nrBuffers m.cache.queues.freeList m = .ok r m ∧
      (∀ b, r = some b → b < m.cache.nrBuffers ∧ g.count b = 0) ∧
      (r = none → ∀ b < m.cache.nrBuffers, g.count b ≠ 0) := by
  obtain ⟨chain, free, hw, hfree⟩ := h.queues
  have hmem : ∀ b, b ∈ free ↔ b < m.cache.nrBuffers := fun b => by simp [hfree, hout]
  obtain ⟨ys, hperm, hring⟩ := hw.queues.ring.exists_cons hw.queues.entry
  have hnd := hperm.nodup_iff.mpr hw.queues.nodup
  have hys : ∀ b, b ∈ m.cache.queues.freeList :: ys ↔ b < m.cache.nrBuffers := fun b => by
    rw [hperm.mem_iff, hmem]
  obtain ⟨zs, u, hends⟩ := Ring.exists_ends m.cache.queues.freeList ys
  obtain ⟨⟨hnext, hlast⟩, -⟩ := (Ring.iff_ends hends).mp hring
  refine ⟨_, scanFree_eq hends hnext hlast (List.nodup_cons.mp hnd).1
    (fun b hb => h.unlocked b ((hys b).mp hb))
    (length_le_of_bound hnd fun b hb => (hys b).mp hb), fun b hb => ?_, fun hnone b hb => ?_⟩
  · have hc := List.find?_some hb
    rw [decide_eq_true_eq, h.count] at hc
    exact ⟨(hys b).mp (List.mem_of_find?_eq_some hb), hc⟩
  · have hc := List.find?_eq_none.mp hnone b ((hys b).mpr hb)
    rwa [decide_eq_true_eq, h.count] at hc

def Ghost.use (g : Ghost) (bh : Nat) : Ghost :=
  { g with count := update g.count bh (g.count bh + 1) }

theorem Ghost.use_out (hout : g.out = none) : { g.use bh with out := none } = g.use bh := by
  obtain ⟨written, contents, count, out, inode⟩ := g
  obtain rfl : out = none := hout
  rfl

namespace Inv

section
variable (h : Inv m0 g m)
include h

theorem requeue {q : Queues} {count : Nat → Nat} {out : Option Nat}
    (hq : ∃ chain free, Wf { m.cache with queues := q, bCount := count } chain free ∧
      ∀ b, b ∈ free ↔ b < m.cache.nrBuffers ∧ out ≠ some b) :
    Inv m0 { g with count := count, out := out }
      (m.withCache { m.cache with queues := q, bCount := count }) :=
  ⟨h.nrBuffers, h.nrSects, h.startSect, h.superBlock, h.inode, rfl, hq, h.unlocked, h.tracked,
    h.dirty, h.data, h.disk⟩

theorem countUp_eq (hc : g.count bh < 255) :
    countUp m.cache bh = { m.cache with bCount := (g.use bh).count } := by
  rw [countUp, h.count, Nat.mod_eq_of_lt (by omega), Ghost.use]

theorem use (hc : g.count bh < 255) :
    Inv m0 (g.use bh) (m.withCache (countUp m.cache bh)) := by
  obtain ⟨chain, free, hw, hfree⟩ := h.queues
  rw [h.countUp_eq hc]
  exact h.requeue ⟨chain, free, hw.congr rfl rfl fun _ _ => ⟨rfl, rfl⟩, hfree⟩

theorem take (hroom : 2 ≤ m.cache.nrBuffers) (hout : g.out = none)
    (hb : bh < m.cache.nrBuffers) (hc : g.count bh < 255) :
    Inv m0 { g.use bh with out := some bh } (m.withCache (takeBuffer m.cache bh)) := by
  obtain ⟨chain, free, hw, hfree⟩ := h.queues
  have hmem : ∀ b, b ∈ free ↔ b < m.cache.nrBuffers := fun b => by simp [hfree, hout]
  have hlen : 2 ≤ free.length := by
    have hsub : List.range m.cache.nrBuffers ⊆ free := fun b hb =>
      (hmem b).mpr (List.mem_range.mp hb)
    have hle := (List.subperm_of_subset List.nodup_range hsub).length_le
    rw [List.length_range] at hle
    omega
  rw [takeBuffer, h.countUp_eq hc]
  have hw' : Wf { m.cache with bCount := (g.use bh).count } chain free :=
    hw.congr rfl rfl fun _ _ => ⟨rfl, rfl⟩
  obtain ⟨chain', free', hperm, hw'⟩ := hw'.remove ((hmem bh).mpr hb) hlen
  have hnd := List.nodup_cons.mp (hperm.nodup_iff.mpr hw.queues.nodup)
  refine h.requeue ⟨chain', free', hw', fun b => ?_⟩
  rw [← hmem, ← hperm.mem_iff, List.mem_cons]
  constructor
  · intro hb'
    refine ⟨.inr hb', ?_⟩
    rintro ⟨rfl⟩
    exact hnd.1 hb'
  · rintro ⟨rfl | hb', hne⟩
    · exact absurd rfl hne
    · exact hb'

theorem assign (hout : g.out = some bh) (hclean : m.cache.bDirt bh = false) :
    Inv m0 g (m.withCache (assignBuffer m.cache bh dev block)) := by
  have hdirt : ∀ b, update m.cache.bDirt bh false b = true → b ≠ bh ∧ m.cache.bDirt b = true := by
    intro b hb
    simpa [update_apply] using hb
  refine ⟨h.nrBuffers, h.nrSects, h.startSect, h.superBlock, h.inode, h.count, ?_, h.unlocked,
    h.tracked, fun b hb hd => ?_, fun b hb hu => ?_, fun d k hw hn => h.disk d k hw ?_⟩
  · obtain ⟨chain, free, hw, hfree⟩ := h.queues
    refine ⟨chain, free, hw.congr rfl rfl fun a ha => ?_, hfree⟩
    have hne : a ≠ bh := fun hab => ((hfree a).mp ha).2 (hab ▸ hout)
    exact ⟨update_of_ne hne .., update_of_ne hne ..⟩
  · obtain ⟨hne, hd⟩ := hdirt b hd
    simpa [Machine.withCache, assignBuffer, hne] using h.dirty b hb hd
  · have hne : b ≠ bh := by
      rintro rfl
      simp [Machine.withCache, assignBuffer] at hu
    have hu : m.cache.bUptodate b = true := by
      simpa [Machine.withCache, assignBuffer, hne] using hu
    simpa [Machine.withCache, assignBuffer, hne] using h.data b hb hu
  · rintro ⟨b, hb, hd, hkey⟩
    have hne : b ≠ bh := by
      rintro rfl
      rw [hclean] at hd
      cases hd
    refine hn ⟨b, hb, ?_⟩
    simpa [Machine.withCache, assignBuffer, hne] using ⟨hd, hkey⟩

theorem insert (hout : g.out = some bh) (hb : bh < m.cache.nrBuffers)
    (hnew : ∀ a < m.cache.nrBuffers, a ≠ bh →
      ¬(m.cache.bDev a = m.cache.bDev bh ∧ m.cache.bBlocknr a = m.cache.bBlocknr bh)) :
    Inv m0 { g with out := none } (m.withCache (insertIntoQueues m.cache bh)) := by
  obtain ⟨chain, free, hw, hfree⟩ := h.queues
  have hnot : bh ∉ free := fun hmem => ((hfree bh).mp hmem).2 hout
  obtain ⟨chain', free', hperm, hw'⟩ := hw.insert hnot hb fun _ a ha =>
    hnew a ((hfree a).mp ha).1 (ne_of_mem_of_not_mem ha hnot)
  have hiff : ∀ b, b ∈ free' ↔ b < m.cache.nrBuffers ∧ (none : Option Nat) ≠ some b := fun b => by
    rw [hperm.mem_iff, List.mem_cons, hfree, hout]
    by_cases hbb : b = bh
    · simp [hbb, hb]
    · simp [hbb, Ne.symm hbb]
  have hkeep : Inv m0 { g with count := m.cache.bCount, out := none }
      (m.withCache (insertIntoQueues m.cache bh)) := h.requeue ⟨chain', free', hw', hiff⟩
  rwa [h.count] at hkeep

theorem findBuffer_eq_none (hout : g.out = some bh) (hnew : ∀ a < m.cache.nrBuffers, a ≠ bh →
      ¬(m.cache.bDev a = dev ∧ m.cache.bBlocknr a = block)) :
    findBuffer m.cache dev block = none := by
  obtain ⟨chain, free, hw, hfree⟩ := h.queues
  refine Option.eq_none_iff_forall_not_mem.mpr fun a ha => ?_
  obtain ⟨hmem, hd, hk, -⟩ := hw.findBuffer_some ha
  obtain ⟨hlt, hne⟩ := (hfree a).mp hmem
  exact hnew a hlt (fun hab => hne (hab ▸ hout)) ⟨hd, hk⟩

end

end Inv

theorem cleanBuffer_returns (h : Inv m0 g m) (hr : Ready m0) (hs : NoOverlap m0)
    (hb : bh < m.cache.nrBuffers) :
    Returns (cleanBuffer bh) m fun _ m' => Inv m0 g m' ∧ SameKeys m m' ∧
      m'.cache.bDirt bh = false := by
  refine .step rfl (returns_ite.mpr ⟨fun _ => ?_, fun hd => ?_⟩)
  · refine .step rfl ?_
    exact (syncDev_returns h hr hs).imp fun _ m' ⟨h', hk, hclean⟩ => ⟨h', hk, hclean bh hb rfl⟩
  · exact returns_pure.mpr ⟨h, ⟨rfl, rfl⟩, Bool.eq_false_iff.mpr hd⟩

structure Got (m₀ : Machine) (g : Ghost) (dev block bh : Nat) (m : Machine) : Prop where
  inv : Inv m₀ (g.use bh) m
  bound : bh < m.cache.nrBuffers
  dev : m.cache.bDev bh = dev
  blocknr : m.cache.bBlocknr bh = block

/-- The only way in which a call does not return: every buffer is in use. -/
def NoBuffer (m₀ : Machine) (g : Ghost) (e : Stop) : Prop :=
  e = .asleep ∧ ∀ b < m₀.cache.nrBuffers, g.count b ≠ 0

theorem getblk_meets (h : Inv m0 g m) (hr : Ready m0) (hs : NoOverlap m0) (hout : g.out = none)
    (hcount : ∀ b < m.cache.nrBuffers, g.count b < 255) (hdev : dev ≠ 0) :
    Meets (getblk (n + 1) dev block) m (Got m0 g dev block) (NoBuffer m0 g) := by
  obtain ⟨chain, free, hw, hfree⟩ := h.queues
  have hmem : ∀ b, b ∈ free ↔ b < m.cache.nrBuffers := fun b => by simp [hfree, hout]
  cases hf : findBuffer m.cache dev block with
  | some bh =>
    obtain ⟨hb, hd, hk, -⟩ := hw.findBuffer_some hf
    have hb := (hmem bh).mp hb
    refine meets_bind_of_eq (getHashTable_some hf (h.unlocked bh hb)) ?_
    exact meets_pure ⟨h.use (hcount bh hb), hb, hd, hk⟩
  | none =>
    refine meets_bind_of_eq (getHashTable_none hf) ?_
    refine meets_bind_of_eq rfl (meets_bind_of_eq rfl ?_)
    obtain ⟨r, hscan, hsome, hnone⟩ := scanFree_spec h hout
    refine meets_bind_of_eq hscan ?_
    cases r with
    | none => exact meets_throw ⟨rfl, h.nrBuffers ▸ hnone rfl⟩
    | some tmp =>
      obtain ⟨hb, hc⟩ := hsome tmp rfl
      have htake := h.take (h.nrBuffers ▸ hr.room) hout hb (hcount tmp hb)
      refine meets_bind_of_eq (modifyCache_eq _) ?_
      refine (cleanBuffer_returns htake hr hs hb).meets.bind fun _ m1 ⟨h1, hk1, hclean⟩ => ?_
      refine meets_bind_of_eq (modifyCache_eq _) ?_
      have h2 : Inv m0 _ (m1.withCache (assignBuffer m1.cache tmp dev block)) :=
        h1.assign rfl hclean
      have hn : m1.cache.nrBuffers = m.cache.nrBuffers := h1.nrBuffers.trans h.nrBuffers.symm
      -- no other buffer came to the block in the meantime
      have hnew : ∀ a < m1.cache.nrBuffers, a ≠ tmp → ¬(update m1.cache.bDev tmp dev a = dev ∧
          update m1.cache.bBlocknr tmp block a = block) := by
        intro a ha hne
        rw [update_of_ne hne, update_of_ne hne, hk1.dev, hk1.blocknr]
        exact hw.findBuffer_none hf ((hmem a).mpr (hn ▸ ha)) hdev
      have hnone2 := h2.findBuffer_eq_none rfl hnew
      refine meets_bind_of_eq rfl (meets_ite (fun hsome2 => ?_) fun _ => ?_)
      · rw [hnone2] at hsome2
        cases hsome2
      · refine meets_bind_of_eq (modifyCache_eq _) (meets_pure ?_)
        have h3 := h2.insert rfl (hn ▸ hb) fun a ha hne ⟨hd, hk⟩ =>
          hnew a ha hne ⟨hd.trans (update_self ..), hk.trans (update_self ..)⟩
        exact ⟨g.use_out hout ▸ h3, hn ▸ hb, update_self .., update_self ..⟩

/-! ### `write_inode` -/

namespace Inv

theorem unique (h : Inv m0 g m) (hout : g.out = none) {a b : Nat} (ha : a < m.cache.nrBuffers)
    (hb : b < m.cache.nrBuffers) (hd : m.cache.bDev a ≠ 0) (hdev : m.cache.bDev a = m.cache.bDev b)
    (hblk : m.cache.bBlocknr a = m.cache.bBlocknr b) : a = b := by
  obtain ⟨chain, free, hw, hfree⟩ := h.queues
  have hmem : ∀ b, b < m.cache.nrBuffers → b ∈ free := fun b hb => by simp [hfree, hout, hb]
  exact hw.unique a (hmem a ha) b (hmem b hb) hd hdev hblk

theorem read (h : Inv m0 g m) (hout : g.out = none) (hb : bh < m.cache.nrBuffers)
    (hd : m.cache.bDev bh ≠ 0) (hup : m.cache.bUptodate bh = false) :
    Inv m0 g (m.transfer .read bh) := by
  have hclean : m.cache.bDirt bh ≠ true := fun hd => by
    rw [(h.dirty bh hb hd).1] at hup
    cases hup
  have hne : ∀ b, m.cache.bDirt b = true → b ≠ bh := by
    rintro b hdb rfl
    exact hclean hdb
  refine h.of_transfer (fun b hb' hu hw => ?_) fun d k hw hn => h.disk d k hw ?_
  · show update m.cache.bData bh (m.onDisk _ _) b = _
    by_cases hbb : b = bh
    · subst hbb
      rw [update_self]
      refine h.disk _ _ hw ?_
      rintro ⟨a, ha, hda, hdev, hblk⟩
      exact hne a hda (h.unique hout hb ha hd hdev.symm hblk.symm).symm
    · rw [update_of_ne hbb]
      refine h.data b hb' ?_ hw
      simpa [Machine.transfer, hbb] using hu
  · rintro ⟨b, hb', hd', hkey⟩
    exact hn b hb' (hne b hd') hd' hkey

end Inv

theorem bread_meets (h : Inv m0 g m) (hr : Ready m0) (hs : NoOverlap m0) (hout : g.out = none)
    (hcount : ∀ b < m.cache.nrBuffers, g.count b < 255) (hv : m0.Valid dev block) :
    Meets (bread dev block) m
      (fun r m' => ∃ bh, r = some bh ∧ Got m0 g dev block bh m' ∧ m'.cache.bUptodate bh = true)
      (NoBuffer m0 g) := by
  refine (getblk_meets h hr hs hout hcount hv.ne_zero).bind fun bh m1 hg => ?_
  refine meets_bind_of_eq rfl (meets_ite (fun hup => ?_) fun hup => ?_)
  · exact meets_pure ⟨bh, rfl, hg, hup⟩
  have hv1 : m1.Valid (m1.cache.bDev bh) (m1.cache.bBlocknr bh) := by
    rw [hg.dev, hg.blocknr]
    exact hg.inv.valid hv
  refine meets_bind_of_eq (llRwBlock_eq hv1) (meets_bind_of_eq rfl ?_)
  have hup2 : (m1.transfer .read bh).cache.bUptodate bh = true := update_self ..
  refine meets_ite (fun _ => meets_pure ⟨bh, rfl, ?_, hup2⟩) fun h => absurd hup2 h
  exact ⟨hg.inv.read hout hg.bound hv1.ne_zero (Bool.eq_false_iff.mpr hup), hg.bound, hg.dev,
    hg.blocknr⟩

def Ghost.store (g : Ghost) (dev block : Nat) (data : Block) (i : Nat) : Ghost :=
  { g with
    written := fun d k => (d = dev ∧ k = block) ∨ g.written d k
    contents := fun d k => if d = dev ∧ k = block then data else g.contents d k
    inode := update g.inode i { g.inode i with iDirt := false } }

theorem Got.storeInode (h : Got m0 g dev block bh m) (hup : m.cache.bUptodate bh = true)
    (hout : g.out = none) (hdev : dev ≠ 0) (ht : m0.Tracked dev block) (i : Nat) :
    Inv m0 ((g.store dev block
      (setSlot (m.cache.bData bh) (inodeSlot (g.inode i).iNum) (g.inode i).dInode) i).use bh)
      (m.storeInode i bh) := by
  have hinv := h.inv
  have hi : m.inode i = g.inode i := congrFun hinv.inode i
  have hkey : ∀ b < m.cache.nrBuffers, m.cache.bDev b = dev ∧ m.cache.bBlocknr b = block → b = bh :=
    fun b hb ⟨hd, hk⟩ => hinv.unique hout hb h.bound (hd ▸ hdev) (hd.trans h.dev.symm)
      (hk.trans h.blocknr.symm)
  refine ⟨hinv.nrBuffers, hinv.nrSects, hinv.startSect, hinv.superBlock, ?_, hinv.count, ?_,
    hinv.unlocked, fun d k hw => ?_, fun b hb hd => ?_, fun b hb hu hw => ?_, fun d k hw hn => ?_⟩
  · show update m.inode i _ = update g.inode i _
    rw [hi, hinv.inode]
    rfl
  · obtain ⟨chain, free, hwf, hfree⟩ := hinv.queues
    exact ⟨chain, free, hwf.congr rfl rfl fun _ _ => ⟨rfl, rfl⟩, hfree⟩
  · rcases hw with ⟨rfl, rfl⟩ | hw
    · exact ht
    · exact hinv.tracked d k hw
  · by_cases hbb : b = bh
    · subst hbb
      exact ⟨hup, .inl ⟨h.dev, h.blocknr⟩⟩
    · obtain ⟨hu, hw⟩ := hinv.dirty b hb (by simpa [Machine.storeInode, hbb] using hd)
      exact ⟨hu, .inr hw⟩
  · show update m.cache.bData bh _ b =
      if m.cache.bDev b = dev ∧ m.cache.bBlocknr b = block then _ else _
    by_cases hbb : b = bh
    · subst hbb
      rw [update_self, if_pos ⟨h.dev, h.blocknr⟩, hi]
    · have hne : ¬(m.cache.bDev b = dev ∧ m.cache.bBlocknr b = block) := fun hk =>
        hbb (hkey b hb hk)
      rw [update_of_ne hbb, if_neg hne]
      exact hinv.data b hb hu (hw.resolve_left hne)
  · show m.onDisk d k = if _ then _ else _
    have hdirty : ∀ b < m.cache.nrBuffers, update m.cache.bDirt bh true b = true →
        ¬(m.cache.bDev b = d ∧ m.cache.bBlocknr b = k) := fun b hb hd hk => hn ⟨b, hb, hd, hk⟩
    have hne : ¬(d = dev ∧ k = block) := by
      rintro ⟨rfl, rfl⟩
      exact hdirty bh h.bound (update_self ..) ⟨h.dev, h.blocknr⟩
    rw [if_neg hne]
    refine hinv.disk d k (hw.resolve_left hne) ?_
    rintro ⟨b, hb, hd, hk⟩
    refine hdirty b hb ?_ hk
    rw [update_apply]
    split
    · rfl
    · exact hd

theorem brelse_returns (h : Inv m0 (g.use bh) m) (hb : bh < m.cache.nrBuffers) :
    Returns (brelse bh) m fun _ m' => Inv m0 g m' := by
  refine .step (waitOnBuffer_eq h hb) ?_
  refine .step rfl ?_
  have hc : m.cache.bCount = update g.count bh (g.count bh + 1) := h.count
  have hdown : countDown m.cache bh = some { m.cache with bCount := g.count } := by
    rw [countDown, hc, update_self, if_neg (Nat.succ_ne_zero _), update_idem, Nat.add_sub_cancel,
      update_eq_self]
  rw [hdown]
  refine returns_set.mpr ?_
  obtain ⟨chain, free, hw, hfree⟩ := h.queues
  exact h.requeue ⟨chain, free, hw.congr rfl rfl fun _ _ => ⟨rfl, rfl⟩, hfree⟩

theorem writeInode_meets {i : Nat} (h : Inv m0 g m) (hr : Ready m0) (hs : NoOverlap m0)
    (hout : g.out = none) (hcount : ∀ b < m.cache.nrBuffers, g.count b < 255)
    (hdev : (m.inode i).iDev = dev) (hhome : m.home i = some block) (ht : m0.Tracked dev block) :
    Meets (writeInode i) m
      (fun _ m' => ∃ data, (g.written dev block → data = g.contents dev block) ∧
        Inv m0 (g.store dev block
          (setSlot data (inodeSlot (g.inode i).iNum) (g.inode i).dInode) i) m')
      (NoBuffer m0 g) := by
  obtain ⟨sb, hsb, rfl⟩ := Option.map_eq_some_iff.mp hhome
  subst hdev
  have hv := hr.tracked_valid ht
  refine meets_bind_of_eq rfl (meets_bind_of_eq rfl ?_)
  rw [hsb]
  refine (bread_meets h hr hs hout hcount hv).bind ?_
  rintro _ m1 ⟨bh, rfl, hg, hup⟩
  refine meets_bind_of_eq rfl ?_
  have hstore := hg.storeInode hup hout hv.ne_zero ht i
  refine (brelse_returns hstore hg.bound).meets.imp fun _ m' h' => ⟨_, fun hw => ?_, h'⟩
  rw [← hg.dev, ← hg.blocknr] at hw ⊢
  exact hg.inv.data bh hg.bound hup hw

/-! ### The inodes of a block -/

variable {data : Block}

theorem setSlot_self {slot o : Nat} (ho : o < dInodeSize) (hb : slot * dInodeSize + o < 1024) :
    setSlot data slot image ⟨slot * dInodeSize + o, hb⟩ = image ⟨o, ho⟩ := by
  have hoff : slot * dInodeSize + o - slot * dInodeSize = o := Nat.add_sub_cancel_left ..
  rw [setSlot, dif_pos ⟨Nat.le_add_right .., by rw [hoff]; exact ho⟩]
  exact congrArg image (Fin.ext hoff)

theorem setSlot_of_ne {slot slot' o : Nat} (hne : slot ≠ slot')
    (ho : o < dInodeSize) (hb : slot * dInodeSize + o < 1024) :
    setSlot data slot' image ⟨slot * dInodeSize + o, hb⟩ = data ⟨slot * dInodeSize + o, hb⟩ := by
  rw [setSlot, dif_neg]
  simp only [dInodeSize] at ho ⊢
  omega

theorem stored_eq_self (h : ∀ i < n, ¬m.HoldsInode dev block i) :
    m.stored dev block n data = data := by
  induction n with
  | zero => rfl
  | succ n ih =>
    rw [Machine.stored, if_neg (h n (Nat.lt_succ_self n))]
    exact ih fun i hi => h i (by omega)

theorem slot_injective (hr : Ready m) {i j : Nat} (hi : m.HoldsInode dev block i)
    (hj : m.HoldsInode dev block j)
    (hslot : inodeSlot (m.inode i).iNum = inodeSlot (m.inode j).iNum) : i = j := by
  obtain ⟨hpi, hdi, hhi⟩ := hi
  obtain ⟨hpj, hdj, hhj⟩ := hj
  refine hr.distinct i j hpi hpj (hdi.trans hdj.symm) ?_
  obtain ⟨sb, hsb, hblock⟩ := Option.map_eq_some_iff.mp hhi
  obtain ⟨sb', hsb', hblock'⟩ := Option.map_eq_some_iff.mp hhj
  rw [hdi] at hsb
  rw [hdj] at hsb'
  cases hsb.symm.trans hsb'
  have hposi := (hr.inodes i hpi).1
  have hposj := (hr.inodes j hpj).1
  have hdiv := hblock.trans hblock'.symm
  simp only [SuperBlock.inodeBlock, inodeSlot, inodesPerBlock] at hdiv hslot
  omega

theorem stored_slot (hr : Ready m) {i o : Nat} (hi : m.HoldsInode dev block i) (hin : i < n)
    (ho : o < dInodeSize) (hb : inodeSlot (m.inode i).iNum * dInodeSize + o < 1024) :
    m.stored dev block n data ⟨_, hb⟩ = (m.inode i).dInode ⟨o, ho⟩ := by
  induction n with
  | zero => exact absurd hin (Nat.not_lt_zero i)
  | succ n ih =>
    rw [Machine.stored]
    by_cases hn : m.HoldsInode dev block n
    · rw [if_pos hn]
      by_cases heq : i = n
      · subst heq
        exact setSlot_self ho hb
      · rw [setSlot_of_ne (fun hslot => heq (slot_injective hr hi hn hslot)) ho hb]
        exact ih (by omega)
    · rw [if_neg hn]
      refine ih (lt_of_le_of_ne (Nat.lt_succ_iff.mp hin) ?_)
      rintro rfl
      exact hn hi

/-! ### The two passes -/

/-- The call after `n` inodes; `base` are the contents without them. -/
def ghost (m₀ : Machine) (base : Nat → Nat → Block) (n : Nat) : Ghost where
  written d k := m₀.DirtyBlock d k ∨ ∃ i < n, m₀.HoldsInode d k i
  contents d k := m₀.stored d k n (base d k)
  count := m₀.cache.bCount
  out := none
  inode i := if i < n ∧ m₀.Pending i then { m₀.inode i with iDirt := false } else m₀.inode i

def Base (m₀ : Machine) (base : Nat → Nat → Block) : Prop :=
  ∀ b < m₀.cache.nrBuffers, m₀.cache.bDirt b = true →
    base (m₀.cache.bDev b) (m₀.cache.bBlocknr b) = m₀.cache.bData b

def Progress (m₀ : Machine) (n : Nat) (m : Machine) : Prop :=
  ∃ base, Base m₀ base ∧ Inv m₀ (ghost m₀ base n) m

theorem Ready.progress (hr : Ready m0) : Progress m0 0 m0 := by
  obtain ⟨chain, free, hw, hfree⟩ := hr.queues
  -- the contents of the buffer of the block, if it has one
  let base : Nat → Nat → Block := fun d k =>
    (findBuffer m0.cache d k).elim (fun _ => 0) m0.cache.bData
  have hbase : ∀ b < m0.cache.nrBuffers, m0.cache.bDev b ≠ 0 →
      base (m0.cache.bDev b) (m0.cache.bBlocknr b) = m0.cache.bData b := by
    intro b hb hd
    have hbf := (hfree b).mpr hb
    cases hf : findBuffer m0.cache (m0.cache.bDev b) (m0.cache.bBlocknr b) with
    | none => exact absurd ⟨rfl, rfl⟩ (hw.findBuffer_none hf hbf hd)
    | some a =>
      obtain ⟨ha, hda, hka, -⟩ := hw.findBuffer_some hf
      obtain rfl := hw.unique a ha b hbf (hda ▸ hd) hda hka
      simp only [base, hf, Option.elim_some]
  have hdev : ∀ d k, m0.DirtyBlock d k → d ≠ 0 := fun d k hd =>
    (hr.tracked_valid (.inl hd)).ne_zero
  refine ⟨base, fun b hb hd => hbase b hb (hdev _ _ ⟨b, hb, hd, rfl, rfl⟩), rfl, rfl, rfl, rfl,
    funext fun i => ?_, rfl, ⟨chain, free, hw, fun b => ?_⟩, hr.unlocked, fun d k hw' => ?_,
    fun b hb hd => ⟨(hr.dirty b hb hd).1, .inl ⟨b, hb, hd, rfl, rfl⟩⟩, fun b hb _ hw' => ?_,
    fun d k hw' hn => ?_⟩
  · simp [ghost]
  · simp [ghost, hfree]
  · exact hw'.imp_right fun hi => hi.imp fun i hi => hi.2
  · obtain hd | ⟨i, hi, -⟩ := hw'
    · exact (hbase b hb (hdev _ _ hd)).symm
    · exact absurd hi (Nat.not_lt_zero i)
  · obtain hd | ⟨i, hi, -⟩ := hw'
    · exact absurd hd hn
    · exact absurd hi (Nat.not_lt_zero i)

variable {base : Nat → Nat → Block}

theorem ghost_succ (hn : ¬m0.Pending n) :
    ghost m0 base (n + 1) = ghost m0 base n := by
  have hholds : ∀ d k, ¬m0.HoldsInode d k n := fun d k h => hn h.1
  have hlt : ∀ i, i < n + 1 ∧ m0.Pending i ↔ i < n ∧ m0.Pending i := by
    refine fun i => and_congr_left fun hi => ?_
    have : i ≠ n := fun h => hn (h ▸ hi)
    omega
  refine Ghost.ext (funext₂ fun d k => propext (or_congr_right ?_)) (funext₂ fun d k => ?_) rfl rfl
    (funext fun i => ?_)
  · refine exists_congr fun i => ?_
    constructor
    · exact fun ⟨hi, h⟩ => ⟨((hlt i).mp ⟨hi, h.1⟩).1, h⟩
    · exact fun ⟨hi, h⟩ => ⟨by omega, h⟩
  · show m0.stored d k (n + 1) _ = m0.stored d k n _
    rw [Machine.stored, if_neg (hholds d k)]
  · simp only [ghost, hlt]

theorem ghost_inode : (ghost m0 base n).inode n = m0.inode n :=
  if_neg fun h => absurd h.1 (Nat.lt_irrefl n)

theorem Machine.HoldsInode.unique {d k i : Nat} (h : m.HoldsInode dev block i)
    (h' : m.HoldsInode d k i) : d = dev ∧ k = block :=
  ⟨h'.2.1.symm.trans h.2.1, Option.some.inj (h'.2.2.symm.trans h.2.2)⟩

/-- The contents without inodes; `data` is what the buffer of one block has now. -/
theorem Base.adjust (hbase : Base m0 base)
    (hdata : (ghost m0 base n).written dev block → data = (ghost m0 base n).contents dev block) :
    ∃ base', Base m0 base' ∧ (∀ d k, ¬(d = dev ∧ k = block) → base' d k = base d k) ∧
      m0.stored dev block n (base' dev block) = data := by
  by_cases hw : (ghost m0 base n).written dev block
  · exact ⟨base, hbase, fun _ _ _ => rfl, (hdata hw).symm⟩
  · refine ⟨fun d k => if d = dev ∧ k = block then data else base d k, fun b hb hd => ?_,
      fun d k hne => if_neg hne, ?_⟩
    · exact (if_neg fun hk => hw (.inl ⟨b, hb, hd, hk⟩)).trans (hbase b hb hd)
    · rw [stored_eq_self fun i hi h => hw (.inr ⟨i, hi, h⟩)]
      exact if_pos ⟨rfl, rfl⟩

theorem ghost_store (hn : m0.HoldsInode dev block n)
    (hother : ∀ d k, ¬(d = dev ∧ k = block) → base' d k = base d k)
    (hdata : m0.stored dev block n (base' dev block) = data) :
    (ghost m0 base n).store dev block
      (setSlot data (inodeSlot (m0.inode n).iNum) (m0.inode n).dInode) n =
      ghost m0 base' (n + 1) := by
  refine Ghost.ext (funext₂ fun d k => propext ?_) (funext₂ fun d k => ?_) rfl rfl
    (funext fun i => ?_)
  · constructor
    · rintro (⟨rfl, rfl⟩ | hd | ⟨i, hi, h⟩)
      · exact .inr ⟨n, Nat.lt_succ_self n, hn⟩
      · exact .inl hd
      · exact .inr ⟨i, by omega, h⟩
    · rintro (hd | ⟨i, hi, h⟩)
      · exact .inr (.inl hd)
      · by_cases heq : i = n
        · exact .inl (hn.unique (heq ▸ h))
        · exact .inr (.inr ⟨i, by omega, h⟩)
  · show (if d = dev ∧ k = block then _ else m0.stored d k n (base d k)) =
      m0.stored d k (n + 1) (base' d k)
    rw [Machine.stored]
    by_cases hk : d = dev ∧ k = block
    · rw [if_pos hk]
      obtain ⟨rfl, rfl⟩ := hk
      rw [if_pos hn, hdata]
    · rw [if_neg hk, if_neg fun h => hk (hn.unique h), hother d k hk]
  · show update (ghost m0 base n).inode n _ i = (ghost m0 base' (n + 1)).inode i
    by_cases heq : i = n
    · subst heq
      rw [update_self, ghost_inode]
      exact (if_pos ⟨Nat.lt_succ_self i, hn.1⟩).symm
    · rw [update_of_ne heq]
      have hlt : i < n + 1 ↔ i < n := by omega
      simp only [ghost, hlt]

theorem Progress.step (h : Progress m0 n m) (hr : Ready m0) (hs : NoOverlap m0) (hn : n < nrInode) :
    Meets (do
      let inode := (← get).inode n
      if inode.iDirt ∧ ¬inode.iPipe then writeInode n) m (fun _ m' => Progress m0 (n + 1) m')
      (fun e => e = .asleep ∧ ∀ b < m0.cache.nrBuffers, m0.cache.bCount b ≠ 0) := by
  obtain ⟨base, hbase, hinv⟩ := h
  have hinode : m.inode n = m0.inode n := (congrFun hinv.inode n).trans ghost_inode
  have hpend : m0.Pending n ↔ (m.inode n).iDirt = true ∧ ¬(m.inode n).iPipe = true := by
    rw [hinode, Bool.not_eq_true]
    exact and_iff_right hn
  refine meets_bind_of_eq rfl (meets_ite (fun hd => ?_) fun hd => ?_)
  · have hp := hpend.mpr hd
    obtain ⟨-, block, hhome, -⟩ := hr.inodes n hp
    have hholds : m0.HoldsInode (m0.inode n).iDev block n := ⟨hp, rfl, hhome⟩
    have hhome' : m.home n = some block := by
      rw [← hhome, Machine.home, Machine.home, hinode, Machine.getSuper, Machine.getSuper,
        hinv.superBlock]
    refine (writeInode_meets hinv hr hs rfl (hinv.nrBuffers ▸ hr.counts)
      (congrArg MInode.iDev hinode) hhome' (.inr ⟨n, hholds⟩)).imp ?_
    rintro _ m' ⟨data, hdata, h'⟩
    obtain ⟨base', hbase', hother, hstored⟩ := hbase.adjust hdata
    refine ⟨base', hbase', ?_⟩
    rw [ghost_inode, ghost_store hholds hother hstored] at h'
    exact h'
  · refine meets_pure ⟨base, hbase, ?_⟩
    rw [ghost_succ (mt hpend.mp hd)]
    exact hinv

theorem Progress.flushed {m' : Machine} (h : Progress m0 nrInode m') (hr : Ready m0)
    (hclean : ∀ b < m'.cache.nrBuffers, m'.cache.bDirt b = false) :
    Flushed m0 m' := by
  obtain ⟨base, hbase, hinv⟩ := h
  have hdisk : ∀ d k, m0.Tracked d k → m'.onDisk d k = m0.stored d k nrInode (base d k) := by
    intro d k ht
    refine hinv.disk d k (ht.imp_right fun ⟨i, hi⟩ => ⟨i, hi.1.1, hi⟩) ?_
    rintro ⟨b, hb, hd, -⟩
    rw [hclean b hb] at hd
    cases hd
  have himage : ∀ i, (m'.inode i).dInode = (m0.inode i).dInode := fun i => by
    rw [hinv.inode, ghost]
    dsimp only
    split <;> rfl
  refine ⟨hinv.startSect, fun i hi hp => ?_, hclean, fun b hb hd => ?_, fun b hb ht hu => ?_,
    fun i dev block hi o ho hb => ?_, himage⟩
  · rw [hinv.inode, ghost] at hp ⊢
    dsimp only at hp ⊢
    split at hp <;> rename_i hpend
    · rw [if_pos hpend]
    · rw [if_neg hpend]
      exact Bool.eq_false_iff.mpr fun hd => hpend ⟨hi, hi, hd, hp⟩
  · rw [hdisk _ _ (.inl ⟨b, hb, hd, rfl, rfl⟩), hbase b hb hd]
  · rw [hdisk _ _ ht]
    exact (hinv.data b hb hu (ht.imp_right fun ⟨i, hi⟩ => ⟨i, hi.1.1, hi⟩)).symm
  · rw [hdisk _ _ (.inr ⟨i, hi⟩), himage]
    exact stored_slot hr hi hi.1.1 ho hb

theorem sysSync_meets (hr : Ready m0) (hs : NoOverlap m0) :
    Meets sysSync m0 (fun _ m' => Flushed m0 m')
      (fun e => e = .asleep ∧ ∀ b < m0.cache.nrBuffers, m0.cache.bCount b ≠ 0) := by
  refine (meets_forM_range hr.progress fun i m hi h => h.step hr hs hi).bind fun _ m1 h1 => ?_
  refine meets_bind_of_eq rfl (Returns.meets ?_)
  have hloop : Returns ((List.range m1.cache.nrBuffers).forM writeDirty) m1 fun _ m' =>
      Progress m0 nrInode m' ∧ ∀ b < m1.cache.nrBuffers, m'.cache.bDirt b = false := by
    refine returns_forM_range (I := fun n m' => Progress m0 nrInode m' ∧
      ∀ b < n, m'.cache.bDirt b = false) ⟨h1, fun b hb => absurd hb (Nat.not_lt_zero b)⟩ ?_
    rintro i m' hi ⟨⟨base, hbase, hinv⟩, hclean⟩
    obtain ⟨_, -, hinv1⟩ := h1
    have hi' : i < m'.cache.nrBuffers := by
      rw [hinv.nrBuffers, ← hinv1.nrBuffers]
      exact hi
    refine (writeDirty_returns hinv hr hs hi').imp fun _ t ⟨ht, hc⟩ => ?_
    refine ⟨⟨base, hbase, ht⟩, fun b hb => ?_⟩
    rw [hc.dirt, update_apply]
    split
    · rfl
    · exact hclean b (by omega)
  refine hloop.imp fun _ m' ⟨h', hclean⟩ => h'.flushed hr fun b hb => hclean b ?_
  obtain ⟨_, -, hinv1⟩ := h1
  obtain ⟨_, -, hinv'⟩ := h'
  rw [hinv1.nrBuffers, ← hinv'.nrBuffers]
  exact hb

/-- Where no two blocks that it writes overlap, `sys_sync` leaves nothing dirty and the latest
contents on the disk. -/
theorem sysSync_flushes (m : Machine) (hr : Ready m) (hs : NoOverlap m) :
    (Ensures sysSync m fun _ m' => Flushed m m') ∧
      ((∃ b < m.cache.nrBuffers, m.cache.bCount b = 0) →
        Returns sysSync m fun _ m' => Flushed m m') := by
  have hmeets := sysSync_meets hr hs
  refine ⟨hmeets.ensures, fun ⟨b, hb, hc⟩ => hmeets.returns ?_⟩
  rintro e ⟨-, hused⟩
  exact hused b hb hc

end

/-! ### Two blocks in the cache -/

/-- Buffers 0 and 1 are dirty with the blocks `k` of `d` and `k'` of `d'`. -/
def holding (d k d' k' : Nat) : Cache Block where
  nrBuffers := 65
  queues := { (bufferInit (blank ()) 65).queues with
    hashTable := fun h =>
      if h = hashfn d k then some 0 else if h = hashfn d' k' then some 1 else none }
  bDev := fun b => if b = 0 then d else if b = 1 then d' else 0
  bBlocknr := fun b => if b = 0 then k else if b = 1 then k' else 0
  bUptodate := fun b => b < 2
  bDirt := fun b => b < 2
  bCount := fun _ => 0
  bLock := fun _ => false
  bData := fun b _ => if b = 0 then 1 else 2
  pending := fun _ => none
  disk := fun _ _ _ => 0
  nrSects := fun minor => if minor = 0 then 1000 else if minor = 1 then 200 else 0

/-- One drive with a partition, and at most one dirty inode. -/
def twoDirty (d k d' k' : Nat) (dirt : Bool) : Machine where
  cache := holding d k d' k'
  inode := fun i => ⟨fun _ => 7, 0x301, i + 1, i = 0 ∧ dirt, false⟩
  superBlock := fun _ => ⟨0x301, 1, 1⟩
  startSect := fun minor => if minor = 1 then 2 else 0
  drive := fun _ _ => 0

section

variable {d k d' k' : Nat} {dirt : Bool}

theorem holding_wf (hne : hashfn d k ≠ hashfn d' k') (hd : d ≠ 0) (hd' : d' ≠ 0) :
    Wf (holding d k d' k')
      (fun h => if h = hashfn d k then [0] else if h = hashfn d' k' then [1] else [])
      (List.range 65) := by
  refine ⟨⟨fun h => ?_, fun h => ?_, fun h b => ?_, fun b _ _ => ⟨rfl, rfl⟩,
    Ring.range (by decide), List.nodup_range,
    List.mem_range.mpr (show 0 < 65 by decide)⟩,
    fun b hb => List.mem_range.mp hb, fun a ha b hb hda hdev hblk => ?_⟩
  · by_cases h0 : h = hashfn d k
    · simp [h0, holding, DList, bufferInit]
    by_cases h1 : h = hashfn d' k'
    · simp [h1, hne.symm, holding, DList, bufferInit]
    · simp [h0, h1, holding, DList]
  · split
    · exact List.nodup_singleton 0
    · split
      · exact List.nodup_singleton 1
      · exact List.nodup_nil
  · have hdev : (holding d k d' k').bDev b = if b = 0 then d else if b = 1 then d' else 0 := rfl
    have hhash : (holding d k d' k').hashOf b =
      hashfn (if b = 0 then d else if b = 1 then d' else 0)
        (if b = 0 then k else if b = 1 then k' else 0) := rfl
    rw [hdev, hhash, List.mem_range]
    by_cases h0 : b = 0
    · subst h0
      by_cases hh : h = hashfn d k
      · simp [hh, hd]
      · simp only [if_neg hh]
        split <;> simp [Ne.symm hh]
    by_cases h1 : b = 1
    · subst h1
      by_cases hh : h = hashfn d' k'
      · simp [hh, hne.symm, hd']
      · split <;> simp [Ne.symm hh]
    · split
      · simp [h0]
      · split <;> simp [h1]
  · have hused : ∀ b, (holding d k d' k').bDev b ≠ 0 → b = 0 ∨ b = 1 := by
      intro b hb
      by_contra hnot
      rw [not_or] at hnot
      exact hb ((if_neg hnot.1).trans (if_neg hnot.2))
    obtain rfl | rfl := hused a hda <;> obtain rfl | rfl := hused b (hdev ▸ hda)
    · rfl
    · exact absurd (congrArg₂ hashfn hdev hblk) hne
    · exact absurd (congrArg₂ hashfn hdev.symm hblk.symm) hne
    · rfl

theorem pending_twoDirty {i : Nat} (h : (twoDirty d k d' k' dirt).Pending i) : i = 0 := by
  have := h.2.1
  simp [twoDirty] at this
  exact this.1

theorem dirty_twoDirty {b : Nat} (h : (holding d k d' k').bDirt b = true) : b = 0 ∨ b = 1 := by
  have : b < 2 := by simpa [holding] using h
  omega

theorem home_twoDirty : (twoDirty d k d' k' dirt).home 0 = some 4 := by
  simp [Machine.home, Machine.getSuper, twoDirty, nrSuper, List.range, List.range.loop,
    SuperBlock.inodeBlock]

theorem twoDirty_ready (hne : hashfn d k ≠ hashfn d' k')
    (hv : (twoDirty d k d' k' dirt).Valid d k) (hv' : (twoDirty d k d' k' dirt).Valid d' k') :
    Ready (twoDirty d k d' k' dirt) := by
  refine ⟨⟨_, _, holding_wf hne hv.ne_zero hv'.ne_zero, fun b => List.mem_range⟩,
    show 2 ≤ 65 by decide, fun _ _ => rfl, fun _ _ => show 0 < 255 by decide, fun b _ hd => ?_,
    fun i hi => ?_, fun i j hi hj _ _ => (pending_twoDirty hi).trans (pending_twoDirty hj).symm⟩
  · obtain rfl | rfl := dirty_twoDirty hd
    · exact ⟨rfl, hv⟩
    · exact ⟨rfl, hv'⟩
  · obtain rfl := pending_twoDirty hi
    refine ⟨Nat.succ_pos 0, 4, home_twoDirty, show 0x301 / 256 = 3 by decide, by decide, ?_⟩
    simp [twoDirty, holding]

end

/-- Two blocks and the inode table of one device, and nothing in them overlaps. -/
theorem sysSync_flushes_dirtyInode :
    (twoDirty 0x301 5 0x301 6 true).Pending 0 ∧
      Returns sysSync (twoDirty 0x301 5 0x301 6 true) fun _ m' =>
        Flushed (twoDirty 0x301 5 0x301 6 true) m' := by
  have hready : Ready (twoDirty 0x301 5 0x301 6 true) :=
    twoDirty_ready (by decide) (by decide) (by decide)
  have htracked : ∀ d k, (twoDirty 0x301 5 0x301 6 true).Tracked d k →
      d = 0x301 ∧ (k = 4 ∨ k = 5 ∨ k = 6) := by
    rintro d k (⟨b, -, hd, rfl, rfl⟩ | ⟨i, hi, rfl, hh⟩)
    · obtain rfl | rfl := dirty_twoDirty hd
      · exact ⟨rfl, .inr (.inl rfl)⟩
      · exact ⟨rfl, .inr (.inr rfl)⟩
    · obtain rfl := pending_twoDirty hi
      exact ⟨rfl, .inl (Option.some.inj (hh.symm.trans home_twoDirty))⟩
  have hapart : NoOverlap (twoDirty 0x301 5 0x301 6 true) := by
    intro d k d' k' ht ht' ho
    obtain ⟨rfl, hk⟩ := htracked d k ht
    obtain ⟨rfl, hk'⟩ := htracked d' k' ht'
    refine ⟨rfl, ?_⟩
    simp only [Machine.Overlap, Machine.address, twoDirty] at ho
    omega
  exact ⟨by decide, (sysSync_flushes _ hready hapart).2 ⟨0, by decide, rfl⟩⟩

/-- Block 2 of the drive and block 1 of its first partition are the same sectors. -/
theorem overlapping_not_flushed :
    ¬∀ m : Machine, Ready m →
      (Ensures sysSync m fun _ m' => Flushed m m') ∧
        ((∃ b < m.cache.nrBuffers, m.cache.bCount b = 0) →
          Returns sysSync m fun _ m' => Flushed m m') := by
  intro h
  have hready : Ready (twoDirty 0x300 2 0x301 1 false) :=
    twoDirty_ready (by decide) (by decide) (by decide)
  obtain ⟨_, m', -, hm⟩ := (h _ hready).2 ⟨0, by decide, rfl⟩
  have hnone : ∀ d k i, ¬(twoDirty 0x300 2 0x301 1 false).HoldsInode d k i := by
    rintro d k i ⟨hp, -⟩
    have := hp.2.1
    simp [twoDirty] at this
  have h0 := hm.before 0 (by decide) rfl
  have h1 := hm.before 1 (by decide) rfl
  rw [stored_eq_self fun i _ => hnone _ _ i] at h0 h1
  have hbyte0 : m'.drive 0 2048 = 1 := by
    have := congrFun h0 0
    simpa [Machine.onDisk, Machine.address, hm.partitions, twoDirty, holding, driveOf] using this
  have hbyte1 : m'.drive 0 2048 = 2 := by
    have := congrFun h1 0
    simpa [Machine.onDisk, Machine.address, hm.partitions, twoDirty, holding, driveOf] using this
  rw [hbyte0] at hbyte1
  exact absurd hbyte1 (by decide)

end Linux001.Buffer.Sync
