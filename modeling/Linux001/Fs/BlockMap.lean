import Linux001.Fs.ZoneMap
import Linux001.ProofKit.PointerForest

/-! The zones of a family of inodes as a forest: the roots are the nine pointers of each inode.
`create_block` adds zones to the forest and changes no byte of a file. -/

namespace Linux001.Fs

open Function ProofKit ProofKit.Forest

variable {ι : Type*} {z z' z'' : Zones} {zone zone' zone'' : ι → Nat → Nat} {i : ι} {r : ι × Fin 9}
  {path : List (Fin 512)} {n block : Nat} {k : Fin 9}

def depth (r : ι × Fin 9) : Nat := if r.2.val < 7 then 0 else if r.2.val = 7 then 1 else 2

/-- The pointers of the inodes, with `i_zone` as `zone`, and of their blocks. -/
def forest (z : Zones) (zone : ι → Nat → Nat) : Forest (ι × Fin 9) (Fin 512) where
  top r := zone r.1 r.2
  ent b k := entry (z.block b) k

def content (z : Zones) (zone : ι → Nat → Nat) (r : ι × Fin 9) (path : List (Fin 512)) : Block :=
  fun off => if (forest z zone).value r path = 0 then 0
    else z.block ((forest z zone).value r path) off

/-- The zones in use are data zones with their bit set, each in one slot. -/
structure Zoned (z : Zones) (zone : ι → Nat → Nat) : Prop where
  reserved : z.Reserved
  unheld : z.Unheld
  range : ∀ n, n ≠ 0 → Points depth (forest z zone) n → z.IsData n
  distinct : Distinct depth (forest z zone)
  used : ∀ n, n ≠ 0 → Points depth (forest z zone) n → z.used n = true

def Exact (z : Zones) (zone : ι → Nat → Nat) : Prop :=
  ∀ n, z.IsData n → z.used n = true → Points depth (forest z zone) n

structure Grows (z : Zones) (zone : ι → Nat → Nat) (i : ι) (z' : Zones) (zone' : ι → Nat → Nat) :
    Prop where
  sb : z'.sb = z.sb
  count : z'.count = z.count
  zoned : Zoned z' zone'
  exact : Exact z zone → Exact z' zone'
  others : ∀ i', i' ≠ i → zone' i' = zone i'
  kept : ∀ r path, path.length ≤ depth r → (forest z zone).value r path ≠ 0 →
    (forest z' zone').value r path = (forest z zone).value r path
  content : ∀ r path, path.length = depth r → content z' zone' r path = content z zone r path

theorem Grows.refl (h : Zoned z zone) : Grows z zone i z zone where
  sb := rfl
  count := rfl
  zoned := h
  exact := id
  others _ _ := rfl
  kept _ _ _ _ := rfl
  content _ _ _ := rfl

theorem Grows.trans (h : Grows z zone i z' zone') (h' : Grows z' zone' i z'' zone'') :
    Grows z zone i z'' zone'' where
  sb := h'.sb.trans h.sb
  count := h'.count.trans h.count
  zoned := h'.zoned
  exact he := h'.exact (h.exact he)
  others i' hi := (h'.others i' hi).trans (h.others i' hi)
  kept r path hlen hv := by
    have hv' := h.kept r path hlen hv
    exact (h'.kept r path hlen (hv' ▸ hv)).trans hv'
  content r path hlen := (h'.content r path hlen).trans (h.content r path hlen)

theorem Zoned.not_inner (h : Zoned z zone)
    (hlen : path.length = depth r) (hv : (forest z zone).value r path ≠ 0) :
    ¬Inner depth (forest z zone) ((forest z zone).value r path) := by
  rintro ⟨r', path', hlt, heq⟩
  obtain ⟨rfl, rfl⟩ := h.distinct r path r' path' (Nat.le_of_eq hlen) (Nat.le_of_lt hlt) hv heq.symm
  omega

structure Added (z : Zones) (zone : ι → Nat → Nat) (r : ι × Fin 9) (path : List (Fin 512)) (n : Nat)
    (z' : Zones) (zone' : ι → Nat → Nat) : Prop where
  adds : Adds depth (forest z zone) (forest z' zone') r path n
  sb : z'.sb = z.sb
  count : z'.count = z.count
  reserved : z'.Reserved
  data : z.IsData n
  free : z.used n = false
  used : ∀ m, z.IsData m → z'.used m = (decide (m = n) || z.used m)
  maps : z.SameMaps z'
  block : z'.block n = clearBlock
  other : ∀ m, m ≠ n → ¬Inner depth (forest z zone) m → z'.block m = z.block m
  zones : ∀ i', i' ≠ r.1 → zone' i' = zone i'

theorem Added.grows (h : Zoned z zone)
    (ha : Added z zone r path n z' zone') : Grows z zone r.1 z' zone' where
  sb := ha.sb
  count := ha.count
  zoned := by
    refine ⟨ha.reserved, fun m hm hfree => ?_, fun m hm hp => ?_, ha.adds.distinct_after,
      fun m hm hp => ?_⟩
    · rw [Zones.IsData.congr ha.sb] at hm
      rw [ha.used m hm, Bool.or_eq_false_iff] at hfree
      rw [ha.count]
      exact h.unheld m hm hfree.2
    · rw [Zones.IsData.congr ha.sb]
      rcases (ha.adds.points_iff hm).mp hp with rfl | hp
      · exact ha.data
      · exact h.range m hm hp
    · rcases (ha.adds.points_iff hm).mp hp with rfl | hp
      · rw [ha.used m ha.data, decide_eq_true rfl, Bool.true_or]
      · rw [ha.used m (h.range m hm hp), h.used m hm hp, Bool.or_true]
  exact he m hm hu := by
    rw [Zones.IsData.congr ha.sb] at hm
    rw [ha.used m hm, Bool.or_eq_true, decide_eq_true_iff] at hu
    exact (ha.adds.points_iff hm.ne_zero).mpr (hu.imp_right (he m hm))
  others := ha.zones
  kept r' path' hlen hv := by
    rcases ha.adds.value_eq r' path' hlen with ⟨-, rfl, rfl⟩ | ⟨hv', -⟩
    · exact absurd ha.adds.absent hv
    · exact hv'
  content r' path' hlen := by
    funext off
    unfold Fs.content
    rcases ha.adds.value_eq r' path' (Nat.le_of_eq hlen) with ⟨hv, rfl, rfl⟩ | ⟨hv, -⟩
    · rw [hv, if_neg ha.adds.ne, ha.block, if_pos ha.adds.absent]
      rfl
    · rw [hv]
      by_cases h0 : (forest z zone).value r' path' = 0
      · rw [if_pos h0, if_pos h0]
      · rw [if_neg h0, if_neg h0, ha.other _ _ (h.not_inner hlen h0)]
        exact fun hn => ha.adds.fresh ⟨r', path', Nat.le_of_eq hlen, hn⟩

theorem Grows.of_exhausted (h : Zoned z zone) (he : z.Exhausted z') : Grows z zone i z' zone := by
  have hforest : forest z' zone = forest z zone := by rw [forest, he.block, forest]
  refine ⟨he.sb, he.count, ⟨he.reserved, fun m hm hfree => ?_, fun m hm hp => ?_, ?_,
    fun m hm hp => ?_⟩, fun hex m hm hu => ?_, fun _ _ => rfl, fun r path _ _ => ?_,
    fun r path _ => ?_⟩
  · rw [Zones.IsData.congr he.sb] at hm
    rw [he.used m hm] at hfree
    rw [he.count]
    exact h.unheld m hm hfree
  · rw [hforest] at hp
    exact (Zones.IsData.congr he.sb).mpr (h.range m hm hp)
  · rw [hforest]
    exact h.distinct
  · rw [hforest] at hp
    rw [he.used m (h.range m hm hp), h.used m hm hp]
  · rw [Zones.IsData.congr he.sb] at hm
    rw [he.used m hm] at hu
    rw [hforest]
    exact hex m hm hu
  · rw [hforest]
  · funext off
    unfold Fs.content
    rw [hforest, he.block]

/-- What `create_block` does for one slot: nothing, or it adds a zone. -/
inductive Fill (z : Zones) (zone : ι → Nat → Nat) (r : ι × Fin 9) (path : List (Fin 512)) :
    Zones → (ι → Nat → Nat) → Prop
  | kept : Fill z zone r path z zone
  | full {z' : Zones} : z.Exhausted z' → z.SameMaps z' → Fill z zone r path z' zone
  | added {n : Nat} {z' : Zones} {zone' : ι → Nat → Nat} : Added z zone r path n z' zone' →
    Fill z zone r path z' zone'

theorem Fill.grows (h : Zoned z zone)
    (hf : Fill z zone r path z' zone') : Grows z zone r.1 z' zone' := by
  cases hf with
  | kept => exact .refl h
  | full he _ => exact .of_exhausted h he
  | added ha => exact ha.grows h

def Inode.Remapped (inode inode' : Inode) : Prop :=
  inode' = { inode with iZone := inode'.iZone, iDirt := inode'.iDirt }

theorem Inode.Remapped.iMode_eq {inode inode' : Inode} (h : inode.Remapped inode') :
    inode'.iMode = inode.iMode := by
  rw [h]

theorem Zoned.not_points (h : Zoned z zone) (hdata : z.IsData n)
    (hfree : z.used n = false) : ¬Points depth (forest z zone) n := fun hp => by
  rw [h.used n hdata.ne_zero hp] at hfree
  cases hfree

theorem Zoned.unheld_hold (h : Zoned z zone) {b : Nat} (hb : z.used b = true) :
    (z.hold b).Unheld := by
  intro n hn hfree
  have hne : n ≠ b := by
    rintro rfl
    rw [Zones.used_hold, hb] at hfree
    cases hfree
  rw [Zones.hold_count, update_of_ne hne]
  exact h.unheld n hn hfree

theorem blockSlot_fills (h : Zoned z zone)
    (hlen : path.length < depth r) (hv : (forest z zone).value r path ≠ 0) (k : Fin 512) :
    Returns (blockSlot true ((forest z zone).value r path) k) z fun n z' =>
      Fill z zone r (k :: path) z' zone ∧ n = (forest z' zone).value r (k :: path) ∧
        (n = 0 → z'.Full) := by
  have hp : Points depth (forest z zone) ((forest z zone).value r path) :=
    ⟨r, path, Nat.le_of_lt hlen, rfl⟩
  have hinner : Inner depth (forest z zone) ((forest z zone).value r path) := ⟨r, path, hlen, rfl⟩
  generalize hb : (forest z zone).value r path = b at *
  have hentry : (forest z zone).value r (k :: path) = entry (z.block b) k := by
    rw [value_cons_of_ne (hb ▸ hv), hb]
    rfl
  have hu := h.used b hv hp
  unfold blockSlot
  refine returns_ite.mpr ⟨fun hzero => ?_, fun hne => ?_⟩
  · have hk : entry (z.block b) k = 0 := hzero.2
    refine ((newBlock_returns (z := z.hold b) h.reserved (h.unheld_hold hu)).and_ensures
      newBlock_sameMaps).bind fun n z1 ⟨hz1, hmaps⟩ => ?_
    rcases hz1 with ⟨rfl, he⟩ | ha
    · rw [if_neg (not_not.mpr rfl), returns_bind, brelse_returns (count_ne_zero_of_hold he.count),
        returns_pure]
      have hfull : z.Exhausted (z1.release b) :=
        ⟨he.sb, release_hold_count he.count, he.block, he.reserved, he.full, he.used⟩
      refine ⟨.full hfull hmaps, ?_, fun _ => he.full⟩
      have hforest : forest (z1.release b) zone = forest z zone := by
        simp only [forest, Zones.release_block, he.block, Zones.hold_block]
      rw [hforest, hentry, hk]
    · have hcount : (z1.setBlock b (setEntry (z1.block b) k n)).count = (z.hold b).count := ha.count
      rw [if_pos ha.data.ne_zero, returns_bind, returns_modify, returns_bind,
        brelse_returns (count_ne_zero_of_hold hcount), returns_pure]
      have hbn : b ≠ n := by
        rintro rfl
        have := ha.free
        rw [Zones.used_hold, hu] at this
        cases this
      have hblock : z1.block b = z.block b := by rw [ha.block, update_of_ne hbn, Zones.hold_block]
      have hadds : Adds depth (forest z zone)
          (forest ((z1.setBlock b (setEntry (z1.block b) k n)).release b) zone) r
          (k :: path) n := by
        refine Adds.of_ent h.distinct hlen (hb ▸ hv) ?_ (h.not_points ha.data ha.free)
          ha.data.ne_zero rfl (fun j => ?_) ?_ fun b' k' hb' hne => ?_
        · rw [hb]
          exact hk
        · simp only [forest, Zones.release_block, Zones.setBlock_block, update_of_ne hbn.symm,
            ha.block, update_self, entry_clearBlock]
        · rw [hb]
          simp only [forest, Zones.release_block, Zones.setBlock_block, update_self]
          exact entry_setEntry_self ha.data.lt
        rw [hb] at hne
        simp only [forest, Zones.release_block, Zones.setBlock_block]
        by_cases hbb : b' = b
        · subst hbb
          have hkk : k'.val ≠ k.val := fun hkk => hne ⟨rfl, Fin.ext hkk⟩
          rw [update_self, entry_setEntry_of_ne hkk, hblock]
        · rw [update_of_ne hbb, ha.block, update_of_ne hb', Zones.hold_block]
      refine ⟨.added ⟨hadds, ha.sb, release_hold_count ha.count, ha.reserved, ha.data, ha.free,
        ha.used, hmaps, ?_, fun m hm hmi => ?_, fun _ _ => rfl⟩, hadds.slot.symm,
        fun h0 => absurd h0 ha.data.ne_zero⟩
      · simp only [Zones.release_block, Zones.setBlock_block, update_of_ne hbn.symm, ha.block,
          update_self]
      · have hmb : m ≠ b := fun hmb => hmi (hmb ▸ hinner)
        simp only [Zones.release_block, Zones.setBlock_block, update_of_ne hmb, ha.block,
          update_of_ne hm, Zones.hold_block]
  · rw [returns_bind, brelse_returns (count_ne_zero_of_hold rfl), returns_pure, release_hold]
    refine ⟨.kept, hentry.symm, fun h0 => absurd ⟨rfl, h0⟩ hne⟩

section Slots

variable [DecidableEq ι] {inode : Inode}

theorem inodeSlot_fills (h : Zoned z zone) (hi : zone i = inode.iZone) (k : Fin 9) :
    Returns (inodeSlot true inode k) z fun inode' z' =>
      Fill z zone (i, k) [] z' (update zone i inode'.iZone) ∧ inode.Remapped inode' ∧
        (inode'.iZone k = 0 → z'.Full) := by
  have hself : update zone i inode.iZone = zone := by rw [← hi, update_eq_self]
  refine returns_ite.mpr ⟨fun hzero => ?_, fun hne => ?_⟩
  · refine ((newBlock_returns h.reserved h.unheld).and_ensures newBlock_sameMaps).bind
      fun n z' ⟨hz', hmaps⟩ => ?_
    rw [returns_pure]
    refine ⟨?_, rfl, ?_⟩
    · rcases hz' with ⟨rfl, he⟩ | ha
      · have hzone : update inode.iZone k.val (0 % 65536) = inode.iZone := by
          rw [Nat.zero_mod, ← hzero.2, update_eq_self]
        simp only [hzone, hself]
        exact .full he hmaps
      have hmod : n % 65536 = n := Nat.mod_eq_of_lt ha.data.lt
      simp only [hmod]
      have htop : ∀ r' : ι × Fin 9, r' ≠ (i, k) →
          update zone i (update inode.iZone k.val n) r'.1 r'.2 = zone r'.1 r'.2 := by
        intro r' hr'
        by_cases h1 : r'.1 = i
        · have h2 : r'.2.val ≠ k.val := fun h2 => hr' (Prod.ext h1 (Fin.ext h2))
          rw [h1, update_self, update_of_ne h2, hi]
        · rw [update_of_ne h1]
      have hadds : Adds depth (forest z zone)
          (forest z' (update zone i (update inode.iZone k.val n))) (i, k) [] n := by
        refine Adds.of_top h.distinct ?_ (h.not_points ha.data ha.free) ha.data.ne_zero ?_
          (fun j => ?_) htop fun b hb => ?_
        · exact (congrFun hi k.val).trans hzero.2
        · simp only [forest, update_self]
        · simp only [forest, ha.block, update_self, entry_clearBlock]
        · simp only [forest, ha.block, update_of_ne hb]
      refine .added ⟨hadds, ha.sb, ha.count, ha.reserved, ha.data, ha.free, ha.used, hmaps, ?_,
        fun m hm _ => ?_, fun i' hi' => update_of_ne hi' _ _⟩
      · rw [ha.block, update_self]
      · rw [ha.block, update_of_ne hm]
    · intro hk
      rcases hz' with ⟨-, he⟩ | ha
      · exact he.full
      · have hmod : n % 65536 = n := Nat.mod_eq_of_lt ha.data.lt
        simp only [update_self, hmod] at hk
        exact absurd hk ha.data.ne_zero
  · rw [returns_pure, hself]
    refine ⟨.kept, rfl, fun hk => absurd ⟨rfl, hk⟩ hne⟩

theorem value_update_nil {f : Nat → Nat} :
    (forest z (update zone i f)).value (i, k) [] = f k := by
  have : update zone i f i k = f k := by rw [update_self]
  exact this

def slot (block : Nat) : Fin 9 × List (Fin 512) :=
  if h : block < 7 then (⟨block, by omega⟩, [])
  else if h : block - 7 < 512 then (⟨7, by decide⟩, [⟨block - 7, h⟩])
  else
    (⟨8, by decide⟩, [Fin.ofNat 512 ((block - 7 - 512) % 512),
      Fin.ofNat 512 ((block - 7 - 512) / 512)])

def maxBlocks : Nat := 7 + 512 + 512 * 512

theorem slot_double (hge : 7 + 512 ≤ block) (hlt : block < maxBlocks) :
    ∃ lo hi : Fin 512, slot block = (⟨8, by decide⟩, [lo, hi]) ∧
      lo.val = (block - 7 - 512) % 512 ∧ hi.val = (block - 7 - 512) / 512 := by
  unfold maxBlocks at hlt
  refine ⟨_, _, by rw [slot, dif_neg (by omega), dif_neg (by omega)], ?_, ?_⟩
  · simp only [Fin.val_ofNat]
    omega
  · simp only [Fin.val_ofNat]
    omega

def zoneOf (z : Zones) (zone : ι → Nat → Nat) (i : ι) (block : Nat) : Nat :=
  (forest z zone).value (i, (slot block).1) (slot block).2

/-- `create_block` adds zones for the block, or finds the disk full. -/
def Creates (z : Zones) (zone : ι → Nat → Nat) (i : ι) (inode : Inode) (block : Nat)
    (p : Inode × Nat) (z' : Zones) : Prop :=
  Grows z zone i z' (update zone i p.1.iZone) ∧ inode.Remapped p.1 ∧
    p.2 = zoneOf z' (update zone i p.1.iZone) i block ∧ (p.2 = 0 → z'.Full)

def nodes (block : Nat) : List (Fin 9 × List (Fin 512)) :=
  (slot block).2.tails.map fun path => ((slot block).1, path)

abbrev Pointers (ι : Type*) := Zones × (ι → Nat → Nat)

/-- Allocations for slots on the way to the block, one after the other. -/
def Fills (i : ι) (block : Nat) : Pointers ι → Pointers ι → Prop :=
  Relation.ReflTransGen fun s t => ∃ q ∈ nodes block, Fill s.1 s.2 (i, q.1) q.2 t.1 t.2

omit [DecidableEq ι] in
theorem Fills.grows {s t : Pointers ι} (h : Zoned s.1 s.2) (hf : Fills i block s t) :
    Grows s.1 s.2 i t.1 t.2 := by
  induction hf with
  | refl => exact .refl h
  | tail _ hfill ih =>
    obtain ⟨q, -, hfill⟩ := hfill
    exact ih.trans (hfill.grows ih.zoned)

omit [DecidableEq ι] in
theorem Fill.fills (hf : Fill z zone (i, k) path z' zone') (hmem : (k, path) ∈ nodes block) :
    Fills i block (z, zone) (z', zone') :=
  .single ⟨(k, path), hmem, hf⟩

def CreatesSlots (z : Zones) (zone : ι → Nat → Nat) (i : ι) (inode : Inode) (block : Nat)
    (p : Inode × Nat) (z' : Zones) : Prop :=
  Fills i block (z, zone) (z', update zone i p.1.iZone) ∧ inode.Remapped p.1 ∧
    p.2 = zoneOf z' (update zone i p.1.iZone) i block ∧ (p.2 = 0 → z'.Full)

theorem createBlock_single (h : Zoned z zone) (hi : zone i = inode.iZone)
    (hge : 7 ≤ block) (hlt : block - 7 < 512) :
    Returns (createBlock inode block) z (CreatesSlots z zone i inode block) := by
  have hslot : slot block = (⟨7, by decide⟩, [⟨block - 7, hlt⟩]) := by
    rw [slot, dif_neg (by omega), dif_pos hlt]
  unfold createBlock bmap'
  rw [if_neg (by omega), if_neg (by omega), if_pos hlt]
  refine (inodeSlot_fills h hi ⟨7, by decide⟩).bind fun inode' z' ⟨hf, hre, hfull⟩ => ?_
  have hg := hf.grows h
  have htop : (forest z' (update zone i inode'.iZone)).value (i, ⟨7, by decide⟩) [] =
      inode'.iZone 7 := value_update_nil
  have hfills := hf.fills (show _ ∈ nodes block by simp [nodes, hslot])
  rw [← htop]
  refine returns_ite.mpr ⟨fun h0 => ?_, fun h0 => ?_⟩
  · refine returns_pure.mpr ⟨hfills, hre, ?_, fun _ => hfull (htop.symm.trans h0)⟩
    rw [zoneOf, hslot]
    exact (value_cons_of_eq h0).symm
  · refine (blockSlot_fills hg.zoned (by simp [depth]) h0 ⟨block - 7, hlt⟩).bind
      fun n z2 ⟨hf2, hn, hfull2⟩ => ?_
    have hfills2 := hf2.fills (show _ ∈ nodes block by simp [nodes, hslot])
    refine returns_pure.mpr ⟨hfills.trans hfills2, hre, ?_, hfull2⟩
    rw [zoneOf, hslot]
    exact hn

theorem createBlock_double (h : Zoned z zone) (hi : zone i = inode.iZone)
    (hge : 7 + 512 ≤ block) (hlt : block < maxBlocks) :
    Returns (createBlock inode block) z (CreatesSlots z zone i inode block) := by
  obtain ⟨lo, hi8, hslot, hlo, hhi⟩ := slot_double hge hlt
  unfold createBlock bmap'
  rw [if_neg (by omega), if_neg (by omega), if_neg (by omega)]
  refine (inodeSlot_fills h hi ⟨8, by decide⟩).bind fun inode' z' ⟨hf, hre, hfull⟩ => ?_
  have hg := hf.grows h
  have htop : (forest z' (update zone i inode'.iZone)).value (i, ⟨8, by decide⟩) [] =
      inode'.iZone 8 := value_update_nil
  have hfills := hf.fills (show _ ∈ nodes block by simp [nodes, hslot])
  rw [← htop]
  refine returns_ite.mpr ⟨fun h0 => ?_, fun h0 => ?_⟩
  · refine returns_pure.mpr ⟨hfills, hre, ?_, fun _ => hfull (htop.symm.trans h0)⟩
    rw [zoneOf, hslot]
    exact (value_cons_of_eq (value_cons_of_eq h0)).symm
  rw [← hhi]
  refine (blockSlot_fills hg.zoned (by simp [depth]) h0 hi8).bind fun n z2 ⟨hf2, hn, hfull2⟩ => ?_
  have hg2 := hf2.grows hg.zoned
  have hfills2 := hfills.trans (hf2.fills (show _ ∈ nodes block by simp [nodes, hslot]))
  refine returns_ite.mpr ⟨fun hn0 => ?_, fun hn0 => ?_⟩
  · refine returns_pure.mpr ⟨hfills2, hre, ?_, fun _ => hfull2 hn0⟩
    rw [zoneOf, hslot]
    exact (value_cons_of_eq (hn.symm.trans hn0)).symm
  rw [hn] at hn0 ⊢
  rw [← hlo]
  refine (blockSlot_fills hg2.zoned (by simp [depth]) hn0 lo).bind
    fun m z3 ⟨hf3, hm, hfull3⟩ => ?_
  have hfills3 := hf3.fills (show _ ∈ nodes block by simp [nodes, hslot])
  refine returns_pure.mpr ⟨hfills2.trans hfills3, hre, ?_, hfull3⟩
  rw [zoneOf, hslot]
  exact hm

theorem createBlock_fills (h : Zoned z zone) (hi : zone i = inode.iZone)
    (hblock : block < maxBlocks) :
    Returns (createBlock inode block) z (CreatesSlots z zone i inode block) := by
  by_cases hdirect : block < 7
  · have hslot : slot block = (⟨block, by omega⟩, []) := by rw [slot, dif_pos hdirect]
    unfold createBlock bmap'
    rw [if_neg (by omega), if_pos hdirect]
    refine (inodeSlot_fills h hi ⟨block, by omega⟩).bind fun inode' z' ⟨hf, hre, hfull⟩ => ?_
    have hfills := hf.fills (show _ ∈ nodes block by simp [nodes, hslot])
    refine returns_pure.mpr ⟨hfills, hre, ?_, hfull⟩
    have htop : (forest z' (update zone i inode'.iZone)).value (i, ⟨block, by omega⟩) [] =
        inode'.iZone block := value_update_nil
    rw [zoneOf, hslot, htop]
  · by_cases hsingle : block - 7 < 512
    · exact createBlock_single h hi (by omega) hsingle
    · exact createBlock_double h hi (by omega) hblock

theorem createBlock_returns (h : Zoned z zone) (hi : zone i = inode.iZone)
    (hblock : block < maxBlocks) :
    Returns (createBlock inode block) z (Creates z zone i inode block) :=
  (createBlock_fills h hi hblock).imp fun _ _ ⟨hf, hre, hn, hfull⟩ =>
    ⟨hf.grows h, hre, hn, hfull⟩

end Slots

theorem length_slot (block : Nat) : (slot block).2.length = depth (i, (slot block).1) := by
  unfold slot
  split
  · rename_i h
    simp [depth, h]
  · split
    · simp [depth]
    · simp [depth]

def blockOf : Fin 9 × List (Fin 512) → Nat
  | (k, []) => k
  | (_, [lo]) => 7 + lo
  | (_, lo :: hi :: _) => 7 + 512 + hi * 512 + lo

theorem blockOf_slot (hb : block < maxBlocks) : blockOf (slot block) = block := by
  by_cases hdirect : block < 7
  · rw [slot, dif_pos hdirect]
    rfl
  by_cases hsingle : block - 7 < 512
  · rw [slot, dif_neg hdirect, dif_pos hsingle]
    change 7 + (block - 7) = block
    omega
  · obtain ⟨lo, hi, hslot, hlo, hhi⟩ := slot_double (by omega) hb
    rw [hslot]
    change 7 + 512 + hi.val * 512 + lo.val = block
    omega

theorem slot_injective {b b' : Nat} (hb : b < maxBlocks) (hb' : b' < maxBlocks)
    (h : slot b = slot b') : b = b' := by
  rw [← blockOf_slot hb, h, blockOf_slot hb']

theorem Zoned.value_store (h : Zoned z zone) (d : Block)
    (hlen : path.length = depth r) (hv : (forest z zone).value r path ≠ 0) (r' : ι × Fin 9)
    (path' : List (Fin 512)) (hlen' : path'.length ≤ depth r') :
    (forest (z.setBlock ((forest z zone).value r path) d) zone).value r' path' =
      (forest z zone).value r' path' := by
  refine value_congr_of_not_inner (F := forest z zone) rfl (fun b hb => ?_) (h.not_inner hlen hv)
    hlen'
  funext k
  change entry (update z.block _ d b) k = entry (z.block b) k
  rw [update_of_ne hb]

theorem Zoned.store (h : Zoned z zone) (d : Block)
    (hlen : path.length = depth r) (hv : (forest z zone).value r path ≠ 0) :
    Zoned (z.setBlock ((forest z zone).value r path) d) zone ∧
      (Exact z zone → Exact (z.setBlock ((forest z zone).value r path) d) zone) ∧
      content (z.setBlock ((forest z zone).value r path) d) zone r path = d ∧
      ∀ r' path', path'.length = depth r' → ¬(r' = r ∧ path' = path) →
        content (z.setBlock ((forest z zone).value r path) d) zone r' path' =
          content z zone r' path' := by
  have hvalue := h.value_store d hlen hv
  have hpoints : ∀ n, Points depth (forest (z.setBlock ((forest z zone).value r path) d) zone) n ↔
      Points depth (forest z zone) n := by
    intro n
    constructor
    · rintro ⟨r', path', hlen', rfl⟩
      exact ⟨r', path', hlen', (hvalue r' path' hlen').symm⟩
    · rintro ⟨r', path', hlen', rfl⟩
      exact ⟨r', path', hlen', hvalue r' path' hlen'⟩
  refine ⟨⟨h.reserved, h.unheld, fun n hn hp => h.range n hn ((hpoints n).mp hp), ?_,
    fun n hn hp => h.used n hn ((hpoints n).mp hp)⟩, fun he n hn hu => (hpoints n).mpr (he n hn hu),
    ?_, fun r' path' hlen' hne => ?_⟩
  · intro r1 p1 r2 p2 h1 h2 h0 heq
    rw [hvalue r1 p1 h1] at h0 heq
    rw [hvalue r2 p2 h2] at heq
    exact h.distinct r1 p1 r2 p2 h1 h2 h0 heq
  · funext off
    unfold content
    rw [hvalue r path (Nat.le_of_eq hlen), if_neg hv, Zones.setBlock_block, update_self]
  funext off
  unfold content
  rw [hvalue r' path' (Nat.le_of_eq hlen')]
  by_cases h0 : (forest z zone).value r' path' = 0
  · rw [if_pos h0, if_pos h0]
  · rw [if_neg h0, if_neg h0, Zones.setBlock_block, update_of_ne]
    intro heq
    exact hne (h.distinct r' path' r path (Nat.le_of_eq hlen') (Nat.le_of_eq hlen) h0 heq)

theorem blockSlot_read {b k : Nat} :
    Returns (blockSlot false b k) z fun n z' => n = entry (z.block b) k ∧ z' = z := by
  unfold blockSlot
  rw [returns_bind, bread_returns, returns_bind, returns_get, if_neg (by simp), returns_bind,
    brelse_returns (count_ne_zero_of_hold rfl), returns_pure, release_hold]
  exact ⟨rfl, rfl⟩

theorem bmap_returns {inode : Inode} (hi : zone i = inode.iZone) (hblock : block < maxBlocks) :
    Returns (bmap inode block) z fun p z' => p = (inode, zoneOf z zone i block) ∧ z' = z := by
  have htop : ∀ k : Fin 9, (forest z zone).value (i, k) [] = inode.iZone k := fun k => by
    rw [← hi]
    rfl
  have hread : ∀ k, inodeSlot false inode k = pure inode := fun k => if_neg (by simp)
  have hbig : ¬7 + 512 + 512 * 512 ≤ block := Nat.not_le.mpr hblock
  unfold bmap bmap'
  rw [if_neg hbig, hread, hread, hread]
  refine returns_ite.mpr ⟨fun hdirect => ?_, fun hind => returns_ite.mpr
    ⟨fun hsingle => ?_, fun hdouble => ?_⟩⟩
  · rw [returns_bind, returns_pure, returns_pure, zoneOf, slot, dif_pos hdirect, htop]
    exact ⟨rfl, rfl⟩
  · have h7 := htop ⟨7, by decide⟩
    rw [returns_bind, returns_pure, zoneOf, slot, dif_neg hind, dif_pos hsingle]
    refine returns_ite.mpr ⟨fun h0 => ?_, fun h0 => ?_⟩
    · rw [returns_pure, value_cons_of_eq (h7.trans h0)]
      exact ⟨rfl, rfl⟩
    · refine blockSlot_read.bind fun n z' ⟨hn, hz⟩ => ?_
      rw [returns_pure, hn, value_cons_of_ne (h7 ▸ h0), h7]
      exact ⟨rfl, hz⟩
  · have h8 := htop ⟨8, by decide⟩
    obtain ⟨lo, hi8, hslot, hlo, hhi⟩ := slot_double (by omega) hblock
    rw [returns_bind, returns_pure, zoneOf, hslot, ← hlo, ← hhi]
    refine returns_ite.mpr ⟨fun h0 => ?_, fun h0 => ?_⟩
    · rw [returns_pure, value_cons_of_eq (value_cons_of_eq (h8.trans h0))]
      exact ⟨rfl, rfl⟩
    have h88 : (forest z zone).value (i, ⟨8, by decide⟩) [hi8] =
        entry (z.block (inode.iZone 8)) hi8 := by
      rw [value_cons_of_ne (h8 ▸ h0), h8]
      rfl
    refine blockSlot_read.bind fun n z' ⟨hn, hz⟩ => ?_
    subst hn hz
    refine returns_ite.mpr ⟨fun hn0 => ?_, fun hn0 => ?_⟩
    · rw [returns_pure, value_cons_of_eq (h88.trans hn0)]
      exact ⟨rfl, rfl⟩
    · refine blockSlot_read.bind fun m z'' ⟨hm, hz'⟩ => ?_
      rw [returns_pure, hm, value_cons_of_ne (h88 ▸ hn0), h88]
      exact ⟨rfl, hz'⟩

end Linux001.Fs
