import Linux001.Namei.Directories

/-! The blocks of an inode in the table when every block can be read: `_bmap` and `truncate` do to
the slot and to the zones of the kernel what they do to an inode and to the zones alone. -/

namespace Linux001.Namei

open Function Fs ProofKit ProofKit.Forest Kernel

variable {k k' : Kernel} {i : Slot} {n b block : Nat} {Q : Inode × Nat → Zones → Prop}
  {create : Bool} {z : Zones}

def Kernel.remap (k : Kernel) (i : Slot) (m : Inode) (z : Zones) : Kernel :=
  { k.setInode i { k.inode i with toInode := m } with zones := z }

theorem remap_self (k : Kernel) (i : Slot) : k.remap i (k.inode i).toInode k.zones = k := by
  unfold Kernel.remap Kernel.setInode
  rw [show ({ k.inode i with toInode := (k.inode i).toInode } : CoreInode) = k.inode i from rfl,
    update_eq_self]

@[simp] theorem remap_inode (m : Inode) (z : Zones) :
    (k.remap i m z).inode i = { k.inode i with toInode := m } := update_self _ _ _

theorem inodeSlot_lifts {Q : Inode → Zones → Prop}
    (h : Returns (Fs.inodeSlot create (k.inode i).toInode n) k.zones Q) :
    Returns (inodeSlot create i n) k fun a k' =>
      ∃ m z, Q m z ∧ a = m.iZone n ∧ k' = k.remap i m z := by
  unfold Fs.inodeSlot at h
  refine .step rfl ?_
  by_cases hc : create ∧ (k.inode i).iZone n = 0
  · rw [if_pos hc] at h ⊢
    refine returns_bind.mpr (onZones_returns.mpr ((returns_bind.mp h).imp fun a z hz => ?_))
    refine .step rfl (returns_pure.mpr ?_)
    exact ⟨_, z, returns_pure.mp hz, (update_self n _ (k.inode i).iZone).symm, rfl⟩
  · rw [if_neg hc] at h ⊢
    exact returns_pure.mpr ⟨_, _, returns_pure.mp h, rfl, (remap_self k i).symm⟩

theorem blockSlot_lifts {Q : Nat → Zones → Prop} (hread : k.failures = [])
    (h : Returns (Fs.blockSlot create b n) k.zones Q) :
    Returns (blockSlot create b n) k fun a k' => Q a k'.zones ∧
      k' = { k with zones := k'.zones } := by
  have hend : ∀ {a : Nat} {k1 : Kernel} {z : Zones}, k1 = { k with zones := z } →
      Returns (Fs.brelse b >>= fun _ => pure a) z Q →
      Returns (brelse b >>= fun _ => pure a) k1 fun a k' =>
        Q a k'.zones ∧ k' = { k with zones := k'.zones } := by
    rintro a _ z rfl hz
    refine returns_bind.mpr (onZones_returns.mpr ((returns_bind.mp hz).imp fun _ z' hz' => ?_))
    exact returns_pure.mpr ⟨returns_pure.mp hz', rfl⟩
  unfold Fs.blockSlot at h
  rw [returns_bind, Fs.bread, returns_modify, returns_bind, returns_get] at h
  refine .step (bread_eq hread b) ?_
  rw [if_pos rfl, returns_bind, returns_get]
  simp only [Zones.hold_block, Kernel.hold] at h ⊢
  by_cases hc : create ∧ entry (k.zones.block b) n = 0
  · rw [if_pos hc] at h ⊢
    refine returns_bind.mpr (onZones_returns.mpr ((returns_bind.mp h).imp fun a z hz => ?_))
    by_cases ha : a ≠ 0
    · rw [if_pos ha, returns_bind, returns_modify] at hz
      rw [if_pos ha, returns_bind, modifyBlock, returns_modify]
      exact hend rfl hz
    · rw [if_neg ha] at hz ⊢
      exact hend rfl hz
  · rw [if_neg hc] at h ⊢
    exact hend rfl h

theorem bmap'_lifts (hread : k.failures = [])
    (h : Returns (Fs.bmap' create (k.inode i).toInode block) k.zones Q) :
    Returns (bmap' create i block) k fun a k' => ∃ m z, Q (m, a) z ∧ k' = k.remap i m z := by
  unfold Fs.bmap' at h
  unfold bmap'
  by_cases hbig : 7 + 512 + 512 * 512 ≤ block
  · rw [if_pos hbig] at h
    exact absurd h (by simp)
  rw [if_neg hbig] at h ⊢
  by_cases hdirect : block < 7
  · rw [if_pos hdirect] at h ⊢
    refine (inodeSlot_lifts (returns_bind.mp h)).imp fun a k' ⟨m, z, hm, ha, hk⟩ => ?_
    subst ha
    exact ⟨m, z, returns_pure.mp hm, hk⟩
  rw [if_neg hdirect] at h ⊢
  by_cases hsingle : block - 7 < 512
  · rw [if_pos hsingle] at h ⊢
    refine (inodeSlot_lifts (returns_bind.mp h)).bind fun a k1 ⟨m, z, hm, ha, hk⟩ => ?_
    subst ha hk
    by_cases h0 : m.iZone 7 = 0
    · rw [if_pos h0] at hm ⊢
      exact returns_pure.mpr ⟨m, z, returns_pure.mp hm, rfl⟩
    · rw [if_neg h0] at hm ⊢
      refine (blockSlot_lifts (k := k.remap i m z) hread (returns_bind.mp hm)).imp fun a k'
        ⟨ha, hk⟩ => ?_
      exact ⟨m, k'.zones, returns_pure.mp ha, hk⟩
  · rw [if_neg hsingle] at h ⊢
    refine (inodeSlot_lifts (returns_bind.mp h)).bind fun a k1 ⟨m, z, hm, ha, hk⟩ => ?_
    subst ha hk
    by_cases h0 : m.iZone 8 = 0
    · rw [if_pos h0] at hm ⊢
      exact returns_pure.mpr ⟨m, z, returns_pure.mp hm, rfl⟩
    rw [if_neg h0] at hm ⊢
    refine (blockSlot_lifts (k := k.remap i m z) hread (returns_bind.mp hm)).bind
      fun a k' ⟨ha, hk⟩ => ?_
    by_cases ha0 : a = 0
    · rw [if_pos ha0] at ha ⊢
      exact returns_pure.mpr ⟨m, k'.zones, returns_pure.mp ha, hk⟩
    rw [if_neg ha0] at ha ⊢
    have hread' : k'.failures = [] := by
      rw [hk]
      exact hread
    refine (blockSlot_lifts hread' (returns_bind.mp ha)).imp fun a' k'' ⟨ha', hk'⟩ => ?_
    refine ⟨m, k''.zones, returns_pure.mp ha', ?_⟩
    rw [hk', hk]
    rfl

theorem inodeSlot_of_ne (hz : (k.inode i).iZone n ≠ 0) :
    inodeSlot true i n k = .ok ((k.inode i).iZone n) k := by
  unfold inodeSlot
  rw [get_bind, if_neg fun hc => hz hc.2]
  rfl

theorem blockSlot_of_ne (hread : k.failures = []) (hz : entry (k.zones.block b) n ≠ 0) :
    blockSlot true b n k = .ok (entry (k.zones.block b) n) k := by
  have hz' : entry ((k.hold b).zones.block b) n ≠ 0 := hz
  unfold blockSlot
  rw [bind_of_eq (bread_eq hread b), if_pos rfl, get_bind,
    if_neg fun hc => hz' hc.2]
  exact bind_of_eq (brelse_eq k b)

theorem createBlock_of_ne (hread : k.failures = []) (hblock : block < maxBlocks)
    (hz : zoneAt k.zones.block (k.inode i).iZone block ≠ 0) :
    createBlock i block k = .ok (zoneAt k.zones.block (k.inode i).iZone block) k := by
  unfold maxBlocks at hblock
  unfold zoneAt at hz ⊢
  unfold createBlock bmap'
  rw [if_neg (by omega)]
  by_cases hdirect : block < 7
  · rw [if_pos hdirect] at hz
    rw [if_pos hdirect, if_pos hdirect]
    exact inodeSlot_of_ne hz
  rw [if_neg hdirect] at hz
  rw [if_neg hdirect, if_neg hdirect]
  by_cases hsingle : block - 7 < 512
  · rw [if_pos hsingle] at hz
    rw [if_pos hsingle, if_pos hsingle]
    by_cases h7 : (k.inode i).iZone 7 = 0
    · exact absurd (if_pos h7) hz
    · rw [if_neg h7] at hz
      rw [if_neg h7, bind_of_eq (inodeSlot_of_ne h7), if_neg h7]
      exact blockSlot_of_ne hread hz
  · rw [if_neg hsingle] at hz
    rw [if_neg hsingle, if_neg hsingle]
    by_cases h8 : (k.inode i).iZone 8 = 0
    · exact absurd (if_pos h8) hz
    rw [if_neg h8] at hz
    rw [if_neg h8, bind_of_eq (inodeSlot_of_ne h8), if_neg h8]
    by_cases hi : entry (k.zones.block ((k.inode i).iZone 8)) ((block - 7 - 512) / 512) = 0
    · exact absurd (if_pos hi) hz
    · rw [if_neg hi] at hz
      rw [if_neg hi, bind_of_eq (blockSlot_of_ne hread hi), if_neg hi]
      exact blockSlot_of_ne hread hz

theorem bmap'_dirty {inode : Inode} :
    Ensures (Fs.bmap' create inode block) z fun p _ => p.1.iDirt = true ∨ p.1 = inode := by
  have hslot : ∀ n z, Ensures (Fs.inodeSlot create inode n) z fun m _ => m.iDirt = true ∨
    m = inode := by
    intro n z
    refine ensures_ite.mpr ⟨fun hc => ?_, fun _ => ensures_pure.mpr (.inr rfl)⟩
    refine ensures_bind.mpr fun a z' _ => ensures_pure.mpr ?_
    by_cases ha : a % 65536 = 0
    · right
      rw [ha, show update inode.iZone n 0 = inode.iZone by rw [← hc.2, update_eq_self]]
      simp
    · left
      simp [ha]
  refine ensures_ite.mpr ⟨fun _ => ?_, fun _ => ensures_ite.mpr ⟨fun _ => ?_, fun _ =>
    ensures_ite.mpr ⟨fun _ => ?_, fun _ => ?_⟩⟩⟩
  · exact fun a t h => by cases h
  · exact (hslot _ z).bind fun m z' hm => ensures_pure.mpr hm
  · refine (hslot _ z).bind fun m z' hm =>
      ensures_ite.mpr ⟨fun _ => ensures_pure.mpr hm, fun _ => ?_⟩
    exact ensures_bind.mpr fun _ _ _ => ensures_pure.mpr hm
  · refine (hslot _ z).bind fun m z' hm =>
      ensures_ite.mpr ⟨fun _ => ensures_pure.mpr hm, fun _ => ?_⟩
    refine ensures_bind.mpr fun _ _ _ => ensures_ite.mpr ⟨fun _ => ensures_pure.mpr hm, fun _ => ?_⟩
    exact ensures_bind.mpr fun _ _ _ => ensures_pure.mpr hm

theorem zoneAt_eq {ι : Type*} {zone : ι → Nat → Nat} {d : ι} {iZone : Nat → Nat}
    (hd : zone d = iZone) (hblock : block < maxBlocks) :
    zoneAt z.block iZone block = zoneOf z zone d block := by
  subst hd
  unfold zoneAt
  by_cases hdirect : block < 7
  · rw [if_pos hdirect, zoneOf, slot, dif_pos hdirect]
    rfl
  rw [if_neg hdirect]
  by_cases hsingle : block - 7 < 512
  · rw [if_pos hsingle, zoneOf, slot, dif_neg hdirect, dif_pos hsingle]
    rfl
  obtain ⟨lo, hi, hslot, hlo, hhi⟩ := slot_double (by omega) hblock
  rw [if_neg hsingle, zoneOf, hslot, ← hlo, ← hhi, value_cons, value_cons]
  by_cases h8 : zone d 8 = 0
  · rw [if_pos h8, if_pos]
    exact if_pos h8
  · rw [if_neg h8]
    have hind : (if (forest z zone).value (d, ⟨8, by decide⟩) [] = 0 then 0
        else (forest z zone).ent ((forest z zone).value (d, ⟨8, by decide⟩) []) hi) =
        entry (z.block (zone d 8)) hi := if_neg h8
    rw [hind]
    rfl

end Linux001.Namei
