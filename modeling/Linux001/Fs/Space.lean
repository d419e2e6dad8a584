import Linux001.Fs.BlockMap

/-! The zones that are left, and the zones that blocks of a file still need: `create_block` takes as
many from the ones as from the others, and fails exactly when too few are left. -/

namespace Linux001.Fs

open Function ProofKit ProofKit.Forest

variable {ι : Type*} {z z' : Zones} {zone zone' : ι → Nat → Nat} {i : ι} {block : Nat} {n : Nat}
  {S : Finset ZoneSlot} {q : ZoneSlot} {path : List (Fin 512)} {k : Fin 9} {inode : Inode}
  {p : Inode × Nat}

def Zones.free (z : Zones) : Finset Nat :=
  (Finset.range z.sb.sNzones).filter fun n =>
    z.sb.sFirstdatazone ≤ n ∧ (z.zmap (z.nr n / 8192)).isSome ∧ z.used n = false

abbrev ZoneSlot := Fin 9 × List (Fin 512)

def slots (lo hi : Nat) : Finset ZoneSlot := (Finset.Ico lo hi).biUnion fun b => (nodes b).toFinset

def missing (z : Zones) (zone : ι → Nat → Nat) (i : ι) (S : Finset ZoneSlot) : Finset ZoneSlot :=
  S.filter fun q => (forest z zone).value (i, q.1) q.2 = 0

theorem Zones.mem_free :
    n ∈ z.free ↔ z.IsData n ∧ (z.zmap (z.nr n / 8192)).isSome ∧ z.used n = false := by
  rw [Zones.free, Finset.mem_filter, Finset.mem_range, Zones.IsData]
  constructor
  · rintro ⟨hlt, hle, hmap, hused⟩
    exact ⟨⟨hle, hlt⟩, hmap, hused⟩
  · rintro ⟨⟨hle, hlt⟩, hmap, hused⟩
    exact ⟨hlt, hle, hmap, hused⟩

theorem mem_missing :
    q ∈ missing z zone i S ↔ q ∈ S ∧ (forest z zone).value (i, q.1) q.2 = 0 := Finset.mem_filter

theorem mem_slots {lo hi : Nat} :
    q ∈ slots lo hi ↔ ∃ b, lo ≤ b ∧ b < hi ∧ q ∈ nodes b := by
  simp [slots, and_assoc]

theorem length_of_mem_nodes (h : q ∈ nodes block) : q.2.length ≤ depth (i, q.1) := by
  obtain ⟨path, hpath, rfl⟩ := List.mem_map.mp h
  rw [List.mem_tails] at hpath
  exact (hpath.length_le).trans (length_slot block).le

theorem slot_mem_nodes : slot block ∈ nodes block :=
  List.mem_map.mpr ⟨(slot block).2, (List.mem_tails _ _).mpr (List.suffix_refl _), rfl⟩

theorem value_ne_of_zoneOf (h : zoneOf z zone i block ≠ 0) (hq : q ∈ nodes block) :
    (forest z zone).value (i, q.1) q.2 ≠ 0 := by
  obtain ⟨path, hpath, rfl⟩ := List.mem_map.mp hq
  obtain ⟨front, hfront⟩ := (List.mem_tails _ _).mp hpath
  intro h0
  apply h
  rw [zoneOf, ← hfront]
  exact value_append_of_eq h0 front

theorem Zones.Full.free_eq (h : z.Full) : z.free = ∅ := by
  refine Finset.eq_empty_of_forall_notMem fun n hn => ?_
  obtain ⟨hdata, hmap, hused⟩ := Zones.mem_free.mp hn
  rw [h n hdata hmap] at hused
  cases hused

section Balance

variable {S : Finset ZoneSlot}

theorem Added.free_eq {r : ι × Fin 9}
    (ha : Added z zone r path n z' zone') : z'.free = z.free.erase n ∧ n ∈ z.free := by
  have hdata : ∀ m, z'.IsData m ↔ z.IsData m := fun m => Zones.IsData.congr ha.sb
  have hnr : ∀ m, z'.nr m = z.nr m := fun m => by rw [Zones.nr, ha.sb, Zones.nr]
  have hn' : z'.used n = true := by rw [ha.used n ha.data, decide_eq_true rfl, Bool.true_or]
  have hmap : (z.zmap (z.nr n / 8192)).isSome := by
    rw [← ha.maps, ← hnr]
    by_contra hcon
    rw [Zones.used, Option.not_isSome_iff_eq_none.mp hcon] at hn'
    cases hn'
  refine ⟨?_, Zones.mem_free.mpr ⟨ha.data, hmap, ha.free⟩⟩
  ext m
  rw [Finset.mem_erase, Zones.mem_free, Zones.mem_free, hdata, hnr, ha.maps]
  constructor
  · rintro ⟨hm, hmm, hused⟩
    rw [ha.used m hm, Bool.or_eq_false_iff, decide_eq_false_iff_not] at hused
    exact ⟨hused.1, hm, hmm, hused.2⟩
  · rintro ⟨hne, hm, hmm, hused⟩
    rw [ha.used m hm, decide_eq_false hne, Bool.false_or]
    exact ⟨hm, hmm, hused⟩

theorem Zones.Exhausted.free_eq (he : z.Exhausted z') (hmaps : z.SameMaps z') :
    z'.free = z.free := by
  ext m
  have hnr : z'.nr m = z.nr m := by rw [Zones.nr, he.sb, Zones.nr]
  rw [Zones.mem_free, Zones.mem_free, Zones.IsData.congr he.sb, hnr, hmaps]
  constructor
  · rintro ⟨hm, hmm, hused⟩
    exact ⟨hm, hmm, he.used m hm ▸ hused⟩
  · rintro ⟨hm, hmm, hused⟩
    exact ⟨hm, hmm, (he.used m hm).trans hused⟩

section
variable (hlen : ∀ q ∈ S, q.2.length ≤ depth (i, q.1))
include hlen

theorem Added.missing_eq (hmem : (k, path) ∈ S) (ha : Added z zone (i, k) path n z' zone') :
    missing z' zone' i S = (missing z zone i S).erase (k, path) ∧
      (k, path) ∈ missing z zone i S := by
  refine ⟨?_, mem_missing.mpr ⟨hmem, ha.adds.absent⟩⟩
  ext q
  rw [Finset.mem_erase, mem_missing, mem_missing]
  constructor
  · rintro ⟨hq, h0⟩
    rcases ha.adds.value_eq (i, q.1) q.2 (hlen q hq) with ⟨hv, -⟩ | ⟨hv, hne⟩
    · exact absurd (hv.symm.trans h0) ha.adds.ne
    · refine ⟨?_, hq, hv.symm.trans h0⟩
      rintro rfl
      exact hne ⟨rfl, rfl⟩
  · rintro ⟨hne, hq, h0⟩
    rcases ha.adds.value_eq (i, q.1) q.2 (hlen q hq) with ⟨-, hr, hpath⟩ | ⟨hv, -⟩
    · exact absurd (Prod.ext (Prod.mk.inj hr).2 hpath) hne
    · exact ⟨hq, hv.trans h0⟩

theorem Fill.balance (hmem : (k, path) ∈ S) (hf : Fill z zone (i, k) path z' zone') :
    z.free.card + (missing z' zone' i S).card = z'.free.card + (missing z zone i S).card := by
  cases hf with
  | kept => rfl
  | full he hmaps =>
    rw [he.free_eq hmaps, missing, missing, forest, he.block, forest]
  | added ha =>
    obtain ⟨hfree', hn⟩ := ha.free_eq
    obtain ⟨hmissing', hq⟩ := ha.missing_eq hlen hmem
    have h1 := Finset.card_erase_add_one hn
    have h2 := Finset.card_erase_add_one hq
    rw [hfree', hmissing']
    omega

theorem Fills.balance {s t : Pointers ι}
    (hmem : ∀ q ∈ nodes block, q ∈ S) (hf : Fills i block s t) :
    s.1.free.card + (missing t.1 t.2 i S).card = t.1.free.card + (missing s.1 s.2 i S).card := by
  induction hf with
  | refl => rfl
  | tail _ hfill ih =>
    obtain ⟨q, hq, hfill⟩ := hfill
    have hstep := hfill.balance hlen (hmem q hq)
    omega

end

end Balance

theorem length_of_mem_slots {lo hi : Nat} (h : q ∈ slots lo hi) :
    q.2.length ≤ depth (i, q.1) := by
  obtain ⟨b, -, -, hq⟩ := mem_slots.mp h
  exact length_of_mem_nodes hq

theorem mem_slots_of_nodes {lo hi : Nat} (hlo : lo ≤ block) (hhi : block < hi)
    (h : q ∈ nodes block) : q ∈ slots lo hi := mem_slots.mpr ⟨block, hlo, hhi, h⟩

theorem CreatesSlots.lt_of_eq_zero [DecidableEq ι] (hlen : ∀ q ∈ S, q.2.length ≤ depth (i, q.1))
    (hmem : ∀ q ∈ nodes block, q ∈ S) (h : CreatesSlots z zone i inode block p z') (h0 : p.2 = 0) :
    z.free.card < (missing z zone i S).card := by
  obtain ⟨hf, -, hn, hfull⟩ := h
  have hbalance := hf.balance hlen hmem
  have hslot : slot block ∈ missing z' (update zone i p.1.iZone) i S :=
    mem_missing.mpr ⟨hmem _ slot_mem_nodes, hn.symm.trans h0⟩
  have hpos := Finset.card_pos.mpr ⟨_, hslot⟩
  dsimp only at hbalance
  rw [(hfull h0).free_eq, Finset.card_empty] at hbalance
  omega

theorem missing_of_zoneOf (h : zoneOf z zone i block ≠ 0) :
    missing z zone i (slots block (block + 1)) = ∅ := by
  refine Finset.eq_empty_of_forall_notMem fun q hq => ?_
  obtain ⟨hq, hv⟩ := mem_missing.mp hq
  obtain ⟨b, hlo, hhi, hnode⟩ := mem_slots.mp hq
  obtain rfl : b = block := by omega
  exact value_ne_of_zoneOf h hnode hv

theorem CreatesSlots.eq_zero_iff [DecidableEq ι] (h : CreatesSlots z zone i inode block p z') :
    p.2 = 0 ↔ z.free.card < (missing z zone i (slots block (block + 1))).card := by
  have hlen : ∀ q ∈ slots block (block + 1), q.2.length ≤ depth (i, q.1) :=
    fun q hq => length_of_mem_slots hq
  have hmem : ∀ q ∈ nodes block, q ∈ slots block (block + 1) :=
    fun q hq => mem_slots_of_nodes (Nat.le_refl _) (Nat.lt_succ_self _) hq
  refine ⟨h.lt_of_eq_zero hlen hmem, fun hlt => ?_⟩
  by_contra h0
  have hbalance := h.1.balance hlen hmem
  have hempty : missing z' (update zone i p.1.iZone) i (slots block (block + 1)) = ∅ :=
    missing_of_zoneOf (h.2.2.1 ▸ h0)
  dsimp only at hbalance
  rw [hempty, Finset.card_empty] at hbalance
  omega

theorem Zoned.missing_store (h : Zoned z zone) (d : Block)
    (hlen : ∀ q ∈ S, q.2.length ≤ depth (i, q.1)) (hv : zoneOf z zone i block ≠ 0) :
    missing (z.setBlock (zoneOf z zone i block) d) zone i S = missing z zone i S := by
  ext q
  rw [mem_missing, mem_missing]
  refine and_congr_right fun hq => ?_
  have hvalue := h.value_store d (length_slot block) hv (i, q.1) q.2 (hlen q hq)
  rw [zoneOf, hvalue]

end Linux001.Fs
