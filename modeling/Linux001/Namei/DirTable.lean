import Linux001.Fs.Space
import Linux001.Namei.Blocks
import Linux001.Namei.Entries
import Linux001.ProofKit.SlotMap

/-! `add_entry` on a directory without holes. A new name goes into the first entry that is not in
use, or behind the last, and the map of names stays as it is until the number of the inode is
stored. -/

namespace Linux001.Namei

open Function Fs ProofKit Kernel

variable {ι : Type*} {zone zone' zone'' : ι → Nat → Nat} {d : ι} {z : Zones} {block : Nat}
  {blocks : Nat → Block}
variable {k k' k'' : Kernel} {i : Slot} {b e n p : Nat} {name : List UInt8}

/-! ### Directories -/

def tableOf (blocks : Nat → Block) (entries : Nat) : SlotMap (List UInt8) Nat := fun p =>
  let block := blocks (p / dirEntriesPerBlock)
  let e := p % dirEntriesPerBlock
  if p < entries ∧ deInode block e ≠ 0 then some (entryName block e, deInode block e) else none

def Kernel.entries (k : Kernel) (i : Slot) : Nat := (k.inode i).iSize / 16

def Kernel.table (k : Kernel) (i : Slot) : SlotMap (List UInt8) Nat :=
  tableOf (fun block => k.zones.block (zoneAt k.zones.block (k.inode i).iZone block)) (k.entries i)

/-- The slot has a directory that can be read, with the zones of the file `d`. -/
structure Kernel.Directory (k : Kernel) (zone : ι → Nat → Nat) (d : ι) (i : Slot) : Prop where
  readable : k.failures = []
  zoned : Zoned k.zones zone
  inode : zone d = (k.inode i).iZone
  blocks : k.HoleFree (fields (k.inode i).toInode)
  whole : (k.inode i).iSize % 16 = 0

def fileBlock (z : Zones) (zone : ι → Nat → Nat) (d : ι) (block : Nat) : Block :=
  content z zone (d, (slot block).1) (slot block).2

theorem fileBlock_of_ne (hz : zoneOf z zone d block ≠ 0) :
    fileBlock z zone d block = z.block (zoneOf z zone d block) := by
  funext off
  exact if_neg hz

theorem tableOf_eq_none {entries : Nat} : tableOf blocks entries p = none ↔
    p < entries → deInode (blocks (p / dirEntriesPerBlock)) (p % dirEntriesPerBlock) = 0 := by
  unfold tableOf
  dsimp only
  split
  · rename_i h
    simp [h]
  · rename_i h
    simpa using h

theorem tableOf_congr {blocks' : Nat → Block} {entries : Nat}
    (h : ∀ p < entries, blocks' (p / dirEntriesPerBlock) = blocks (p / dirEntriesPerBlock)) :
    tableOf blocks' entries = tableOf blocks entries := by
  funext p
  unfold tableOf
  by_cases hp : p < entries
  · rw [h p hp]
  · rw [if_neg fun hc => hp hc.1, if_neg fun hc => hp hc.1]

section Directory

variable (h : k.Directory zone d i)

include h

theorem Kernel.Directory.size_eq : (k.inode i).iSize = 16 * k.entries i := by
  have := h.whole
  unfold entries
  omega

theorem Kernel.Directory.block_lt (hp : p < k.entries i) : p / dirEntriesPerBlock < maxBlocks := by
  have hsize : (k.inode i).iSize ≤ 1024 * maxBlocks := h.blocks.size
  have := h.size_eq
  unfold dirEntriesPerBlock
  omega

theorem Kernel.Directory.entryZone_eq {m : Fields} (hm : fields (k.inode i).toInode = m)
    (hp : p / dirEntriesPerBlock < maxBlocks) :
    k.entryZone m p = zoneOf k.zones zone d (p / dirEntriesPerBlock) := by
  subst hm
  exact zoneAt_eq h.inode hp

theorem Kernel.Directory.zone_ne (hp : p < k.entries i) :
    zoneOf k.zones zone d (p / dirEntriesPerBlock) ≠ 0 := by
  rw [← h.entryZone_eq rfl (h.block_lt hp)]
  exact h.blocks.zone p hp

theorem Kernel.Directory.table_eq :
    k.table i = tableOf (fileBlock k.zones zone d) (k.entries i) := by
  refine tableOf_congr fun p hp => ?_
  rw [fileBlock_of_ne (h.zone_ne hp), zoneAt_eq h.inode (h.block_lt hp)]

theorem Kernel.Directory.entries_lt : k.entries i / dirEntriesPerBlock < maxBlocks := by
  have hinj : Set.InjOn (zoneOf k.zones zone d)
    (Finset.range (k.entries i / dirEntriesPerBlock)) := by
    intro j hj j' hj' heq
    rw [Finset.coe_range, Set.mem_Iio] at hj hj'
    have hne : ∀ j < k.entries i / dirEntriesPerBlock, j < maxBlocks ∧
      zoneOf k.zones zone d j ≠ 0 := by
      intro j hj
      unfold dirEntriesPerBlock at hj
      have hlt := h.block_lt (show 64 * j < k.entries i by omega)
      have hz := h.zone_ne (show 64 * j < k.entries i by omega)
      unfold dirEntriesPerBlock at hlt hz
      rw [Nat.mul_div_cancel_left j (by decide)] at hlt hz
      exact ⟨hlt, hz⟩
    obtain ⟨hr, hpath⟩ := h.zoned.distinct _ _ _ _ (length_slot j).le
      (length_slot j').le (hne j hj).2 heq
    exact slot_injective (hne j hj).1 (hne j' hj').1 (Prod.ext (Prod.mk.inj hr).2 hpath)
  have hmaps : Set.MapsTo (zoneOf k.zones zone d) (Finset.range (k.entries i / dirEntriesPerBlock))
      (Finset.range 65536) := by
    intro j hj
    rw [Finset.coe_range, Set.mem_Iio] at hj ⊢
    by_cases hz : zoneOf k.zones zone d j = 0
    · omega
    · exact (h.zoned.range _ hz ⟨_, _, (length_slot j).le, rfl⟩).lt
  have hcard := Finset.card_le_card_of_injOn _ hmaps hinj
  rw [Finset.card_range, Finset.card_range] at hcard
  unfold maxBlocks
  omega

end Directory

/-! ### Changes of a directory -/

structure Edits (k : Kernel) (zone : ι → Nat → Nat) (d : ι) (i : Slot) (k' : Kernel)
    (zone' : ι → Nat → Nat) : Prop where
  dir : k'.Directory zone' d i
  exact : Exact k.zones zone → Exact k'.zones zone'
  others : ∀ d', d' ≠ d → zone' d' = zone d'
  content : ∀ r path, r.1 ≠ d → path.length = depth r →
    content k'.zones zone' r path = content k.zones zone r path
  sb : k'.zones.sb = k.zones.sb
  count : k'.zones.count = k.zones.count
  frame : k' = { k.setInode i (k'.inode i) with zones := k'.zones }
  same : k'.inode i = { k.inode i with
    iZone := (k'.inode i).iZone
    iSize := (k'.inode i).iSize
    iDirt := (k'.inode i).iDirt
    iMtime := (k'.inode i).iMtime }
  dirty : (k'.inode i).iDirt = true ∨ (k'.inode i).iDirt = (k.inode i).iDirt ∧
    (k'.inode i).iZone = (k.inode i).iZone ∧ (k'.inode i).iSize = (k.inode i).iSize

theorem Edits.trans (h : Edits k zone d i k' zone') (h' : Edits k' zone' d i k'' zone'') :
    Edits k zone d i k'' zone'' where
  dir := h'.dir
  exact := h'.exact ∘ h.exact
  others d' hd := (h'.others d' hd).trans (h.others d' hd)
  content r path hr hlen := (h'.content r path hr hlen).trans (h.content r path hr hlen)
  sb := h'.sb.trans h.sb
  count := h'.count.trans h.count
  frame := by
    have hframe := h'.frame
    rw [h.frame] at hframe
    simpa [setInode] using hframe
  same := by
    have hsame := h'.same
    rw [h.same] at hsame
    exact hsame
  dirty := by
    rcases h'.dirty with hd' | ⟨hd', hz', hs'⟩
    · exact .inl hd'
    · rw [hd', hz', hs']
      exact h.dirty

def Kernel.setBlock (k : Kernel) (b : Nat) (data : Block) : Kernel :=
  { k with zones := k.zones.setBlock b data }

section Steps

variable (h : k.Directory zone d i)

include h

section
variable (hz : zoneOf k.zones zone d block ≠ 0)
include hz

theorem Kernel.Directory.store (data : Block) :
    Edits k zone d i (k.setBlock (zoneOf k.zones zone d block) data) zone := by
  obtain ⟨hzoned, hexact, -, hother⟩ := h.zoned.store data (length_slot block) hz
  refine ⟨⟨h.readable, hzoned, h.inode, ⟨h.blocks.size, fun p hp => ?_⟩, h.whole⟩, hexact,
    fun _ _ => rfl, fun r path hr hlen => hother r path hlen fun hc => hr (congrArg Prod.fst hc.1),
      rfl,
    rfl, ?_, rfl, .inr ⟨rfl, rfl, rfl⟩⟩
  · have hlt := h.block_lt hp
    have hkept := h.zoned.value_store data (length_slot block) hz _ _
      (length_slot (i := d) (p / dirEntriesPerBlock)).le
    have hzone : (k.setBlock (zoneOf k.zones zone d block) data).entryZone
        (fields (k.inode i).toInode) p = zoneOf k.zones zone d (p / dirEntriesPerBlock) :=
      (zoneAt_eq h.inode hlt).trans hkept
    exact hzone ▸ h.zone_ne hp
  · unfold setInode
    rw [show (k.setBlock (zoneOf k.zones zone d block) data).inode i = k.inode i from rfl,
      update_eq_self]
    rfl

theorem Kernel.Directory.zoneOf_store (data : Block) (block' : Nat) :
    zoneOf (k.setBlock (zoneOf k.zones zone d block) data).zones zone d block' =
      zoneOf k.zones zone d block' :=
  h.zoned.value_store data (length_slot block) hz _ _ (length_slot block').le

theorem Kernel.Directory.fileBlock_store {block' : Nat}
    (hb : block < maxBlocks) (hb' : block' < maxBlocks) (data : Block) :
    fileBlock (k.setBlock (zoneOf k.zones zone d block) data).zones zone d block' =
      if block' = block then data else fileBlock k.zones zone d block' := by
  obtain ⟨-, -, hself, hother⟩ := h.zoned.store data (length_slot block) hz
  by_cases heq : block' = block
  · subst heq
    rw [if_pos rfl]
    exact hself
  · rw [if_neg heq]
    refine hother _ _ (length_slot block') fun hc => heq (slot_injective hb' hb ?_)
    exact Prod.ext (congrArg Prod.snd hc.1) hc.2

end

theorem Kernel.Directory.resize {m : CoreInode} (hsize : m.iSize ≤ 1024 * maxBlocks)
    (hwhole : m.iSize % 16 = 0)
    (hzone : ∀ p < m.iSize / 16, zoneOf k.zones zone d (p / dirEntriesPerBlock) ≠ 0)
    (hm : m = { k.inode i with iSize := m.iSize, iDirt := m.iDirt, iMtime := m.iMtime })
    (hdirty : m.iDirt = true ∨ m.iDirt = (k.inode i).iDirt ∧ m.iSize = (k.inode i).iSize) :
    Edits k zone d i (k.setInode i m) zone := by
  have hself : (k.setInode i m).inode i = m := update_self _ _ _
  have hiZone : m.iZone = (k.inode i).iZone := by rw [hm]
  refine ⟨⟨h.readable, h.zoned, ?_, ⟨?_, fun p hp => ?_⟩, ?_⟩, id, fun _ _ => rfl,
    fun _ _ _ _ => rfl, rfl, rfl, ?_, ?_, ?_⟩
  · rw [hself, hiZone]
    exact h.inode
  · rw [hself]
    exact hsize
  · rw [hself] at hp ⊢
    have hp' : p < m.iSize / 16 := hp
    have hlt : p / dirEntriesPerBlock < maxBlocks := by
      unfold dirEntriesPerBlock
      omega
    have hz : (k.setInode i m).entryZone (fields m.toInode) p =
        zoneOf k.zones zone d (p / dirEntriesPerBlock) :=
      zoneAt_eq (h.inode.trans hiZone.symm) hlt
    exact hz ▸ hzone p hp'
  · rw [hself]
    exact hwhole
  · rw [hself]
  · rw [hself, hiZone]
    exact hm
  · rw [hself, hiZone]
    exact hdirty.imp_right fun hd => ⟨hd.1, rfl, hd.2⟩

theorem Kernel.Directory.grow [DecidableEq ι] {m : Inode}
    (hg : Grows k.zones zone d z (update zone d m.iZone)) (hm : (k.inode i).Remapped m)
    (hdirty : m.iDirt = true ∨ m = (k.inode i).toInode) :
    Edits k zone d i (k.remap i m z) (update zone d m.iZone) := by
  have hsize : m.iSize = (k.inode i).iSize := by rw [hm]
  refine ⟨⟨h.readable, hg.zoned, ?_, ⟨?_, fun p hp => ?_⟩, ?_⟩, hg.exact,
    fun d' hd => update_of_ne hd _ _, fun r path hr hlen => hg.content r path hlen, hg.sb, hg.count,
    ?_, ?_, ?_⟩
  · rw [remap_inode, update_self]
  · rw [remap_inode]
    show m.iSize ≤ _
    rw [hsize]
    exact h.blocks.size
  · rw [remap_inode] at hp ⊢
    have hp' : p < k.entries i := by
      unfold entries
      rw [← hsize]
      exact hp
    have hz : (k.remap i m z).entryZone (fields m) p =
        zoneOf z (update zone d m.iZone) d (p / dirEntriesPerBlock) :=
      zoneAt_eq (update_self _ _ _) (h.block_lt hp')
    have hkept := hg.kept _ _ (length_slot (p / dirEntriesPerBlock)).le (h.zone_ne hp')
    have hne := h.zone_ne hp'
    rw [← zoneOf, ← zoneOf] at hkept
    exact hz ▸ hkept ▸ hne
  · rw [remap_inode]
    rw [hsize]
    exact h.whole
  · rw [remap_inode]
    rfl
  · rw [remap_inode]
    rw [hm]
  · rw [remap_inode]
    refine hdirty.imp_right fun heq => ?_
    rw [heq]
    exact ⟨rfl, rfl, rfl⟩

theorem Kernel.Directory.table_store (hp : p < k.entries i) {data : Block}
    (hsame : ∀ e, e ≠ p % dirEntriesPerBlock →
      deInode data e = deInode (fileBlock k.zones zone d (p / dirEntriesPerBlock)) e ∧
      entryName data e = entryName (fileBlock k.zones zone d (p / dirEntriesPerBlock)) e) :
    (k.setBlock (zoneOf k.zones zone d (p / dirEntriesPerBlock)) data).table i =
      update (k.table i) p (if deInode data (p % dirEntriesPerBlock) ≠ 0 then
        some (entryName data (p % dirEntriesPerBlock), deInode data (p % dirEntriesPerBlock))
      else none) := by
  have hz := h.zone_ne hp
  have hblock := h.block_lt hp
  rw [(h.store hz data).dir.table_eq, h.table_eq]
  funext q
  have hentries : (k.setBlock (zoneOf k.zones zone d (p / dirEntriesPerBlock)) data).entries i =
    k.entries i := rfl
  unfold tableOf
  dsimp only
  rw [hentries]
  by_cases hqp : q = p
  · subst hqp
    rw [update_self, h.fileBlock_store hz hblock hblock, if_pos rfl]
    simp only [hp, true_and]
  rw [update_of_ne hqp]
  by_cases hq : q < k.entries i
  · rw [h.fileBlock_store hz hblock (h.block_lt hq)]
    by_cases hb : q / dirEntriesPerBlock = p / dirEntriesPerBlock
    · obtain ⟨hinode, hname⟩ := hsame (q % dirEntriesPerBlock) (by
        unfold dirEntriesPerBlock at *
        omega)
      rw [if_pos hb, hb, hinode, hname]
    · rw [if_neg hb]
  · rw [if_neg fun hc => hq hc.1, if_neg fun hc => hq hc.1]

end Steps

/-! ### `add_entry` -/

structure Placed (k : Kernel) (zone : ι → Nat → Nat) (d : ι) (i : Slot) (name : List UInt8)
    (b e p : Nat) : Prop where
  lt : p < k.entries i
  block : b = zoneOf k.zones zone d (p / dirEntriesPerBlock)
  entry : e = p % dirEntriesPerBlock
  name : entryName (k.zones.block b) e = name

def Kernel.named (k : Kernel) (i : Slot) (name : List UInt8) (b e : Nat) : Kernel :=
  (k.setInode i { k.inode i with iMtime := k.now }).setBlock b (setDeName (k.zones.block b) e name)

def Kernel.extended (k : Kernel) (i : Slot) (p b e : Nat) : Kernel :=
  (k.setInode i { k.inode i with iSize := (p + 1) * 16, iDirt := true }).setBlock b
    (setDeInode (k.zones.block b) e 0)

theorem place_eq (k : Kernel) (i : Slot) (name : List UInt8) (p b e : Nat) :
    place i name p b e k =
      if deInode ((if (k.inode i).iSize ≤ p * 16 then k.extended i p b e else k).zones.block b) e =
        0
      then .ok true
        ((if (k.inode i).iSize ≤ p * 16 then k.extended i p b e else k).named i name b e)
      else .ok false (if (k.inode i).iSize ≤ p * 16 then k.extended i p b e else k) := by
  have hend : ∀ k : Kernel, (do
      if deInode ((← get).zones.block b) e = 0 then
        touch i
        modifyBlock b fun d => setDeName d e name
        pure true
      else pure false : K Bool) k =
      if deInode (k.zones.block b) e = 0 then .ok true (k.named i name b e) else .ok false k := by
    intro k
    rw [get_bind]
    split
    · rfl
    · rfl
  unfold place
  rw [get_bind]
  unfold doIf
  by_cases hs : (k.inode i).iSize ≤ p * 16
  · rw [if_pos hs, if_pos hs]
    exact hend (k.extended i p b e)
  · rw [if_neg hs, if_neg hs]
    exact hend k

theorem update_tableOf_succ {entries : Nat} :
    update (tableOf blocks (entries + 1)) entries none = tableOf blocks entries := by
  funext q
  by_cases hq : q = entries
  · subst hq
    rw [update_self]
    exact (tableOf_eq_none.mpr fun hlt => absurd hlt (Nat.lt_irrefl q)).symm
  · rw [update_of_ne hq]
    unfold tableOf
    simp only [show (q < entries + 1) = (q < entries) from propext (by omega)]

section Adding

variable (h : k.Directory zone d i)

include h

theorem Kernel.Directory.named (hp : p < k.entries i) (hfree : k.table i p = none) (h0 : 0 ∉ name)
    (hlen : name.length ≤ nameLen) (hb : b = zoneOf k.zones zone d (p / dirEntriesPerBlock))
    (he : e = p % dirEntriesPerBlock) :
    Edits k zone d i (k.named i name b e) zone ∧ (k.named i name b e).table i = k.table i ∧
      Placed (k.named i name b e) zone d i name b e p := by
  subst hb he
  have hz := h.zone_ne hp
  let k1 : Kernel := k.setInode i { k.inode i with iMtime := k.now }
  have hself : k1.inode i = { k.inode i with iMtime := k.now } := update_self _ _ _
  have hsize : (k1.inode i).iSize = (k.inode i).iSize := by rw [hself]
  have hiZone : (k1.inode i).iZone = (k.inode i).iZone := by rw [hself]
  have hentries : k1.entries i = k.entries i := by rw [entries, hsize, entries]
  have htouch : Edits k zone d i k1 zone :=
    h.resize h.blocks.size h.whole (fun q hq => h.zone_ne hq) rfl (.inr ⟨rfl, rfl⟩)
  have htable : k1.table i = k.table i := by rw [table, hiZone, hentries, table]; rfl
  have hname : k.named i name (zoneOf k.zones zone d (p / dirEntriesPerBlock))
      (p % dirEntriesPerBlock) = k1.setBlock (zoneOf k1.zones zone d (p / dirEntriesPerBlock))
        (setDeName (fileBlock k1.zones zone d (p / dirEntriesPerBlock)) (p % dirEntriesPerBlock)
          name) := by
    rw [fileBlock_of_ne (show zoneOf k1.zones zone d (p / dirEntriesPerBlock) ≠ 0 from hz)]
    rfl
  have hunused : deInode (fileBlock k1.zones zone d (p / dirEntriesPerBlock))
      (p % dirEntriesPerBlock) = 0 := by
    rw [h.table_eq, tableOf_eq_none] at hfree
    exact hfree hp
  rw [hname]
  refine ⟨htouch.trans (htouch.dir.store hz _), ?_, ?_, ?_, rfl, ?_⟩
  · rw [htouch.dir.table_store (by rw [hentries]; exact hp) fun e he =>
        ⟨deInode_setDeName, entryName_setDeName_of_ne he⟩, deInode_setDeName, hunused,
      if_neg fun hc => hc rfl, htable, ← hfree, update_eq_self]
  · show p < k1.entries i
    rw [hentries]
    exact hp
  · exact (htouch.dir.zoneOf_store hz _ _).symm
  · show entryName (update k1.zones.block (zoneOf k1.zones zone d (p / dirEntriesPerBlock)) _
      (zoneOf k.zones zone d (p / dirEntriesPerBlock))) (p % dirEntriesPerBlock) = name
    rw [show zoneOf k.zones zone d (p / dirEntriesPerBlock) =
      zoneOf k1.zones zone d (p / dirEntriesPerBlock) from rfl, update_self]
    exact entryName_setDeName h0 hlen

theorem Kernel.Directory.extended (hp : p = k.entries i)
    (hz : zoneOf k.zones zone d (p / dirEntriesPerBlock) ≠ 0)
    (hb : b = zoneOf k.zones zone d (p / dirEntriesPerBlock)) (he : e = p % dirEntriesPerBlock) :
    Edits k zone d i (k.extended i p b e) zone ∧ (k.extended i p b e).table i = k.table i ∧
      p < (k.extended i p b e).entries i ∧
      b = zoneOf (k.extended i p b e).zones zone d (p / dirEntriesPerBlock) := by
  subst hb he
  have hlt : p / dirEntriesPerBlock < maxBlocks := by
    rw [hp]
    exact h.entries_lt
  let k1 : Kernel := k.setInode i { k.inode i with iSize := (p + 1) * 16, iDirt := true }
  have hself : k1.inode i = { k.inode i with iSize := (p + 1) * 16, iDirt := true } :=
    update_self _ _ _
  have hentries : k1.entries i = p + 1 := by rw [entries, hself, Nat.mul_div_cancel _ (by decide)]
  have hgrown : Edits k zone d i k1 zone := by
    refine h.resize ?_ (Nat.mul_mod_left _ _) (fun q hq => ?_) rfl (.inl rfl)
    · show (p + 1) * 16 ≤ 1024 * maxBlocks
      unfold dirEntriesPerBlock at hlt
      omega
    have hq' : q < p + 1 := by
      have : q < (p + 1) * 16 / 16 := hq
      rwa [Nat.mul_div_cancel _ (by decide)] at this
    by_cases hqp : q = p
    · rw [hqp]
      exact hz
    · exact h.zone_ne (by omega)
  have hz1 : zoneOf k1.zones zone d (p / dirEntriesPerBlock) ≠ 0 := hz
  have hext : k.extended i p (zoneOf k.zones zone d (p / dirEntriesPerBlock))
      (p % dirEntriesPerBlock) = k1.setBlock (zoneOf k1.zones zone d (p / dirEntriesPerBlock))
        (setDeInode (fileBlock k1.zones zone d (p / dirEntriesPerBlock)) (p % dirEntriesPerBlock)
          0) := by
    rw [fileBlock_of_ne hz1]
    rfl
  rw [hext]
  refine ⟨hgrown.trans (hgrown.dir.store hz1 _), ?_, ?_, ?_⟩
  · rw [hgrown.dir.table_store (by rw [hentries]; exact Nat.lt_succ_self p) fun e he =>
        ⟨deInode_setDeInode_of_ne he, entryName_setDeInode⟩, deInode_setDeInode (by decide),
      if_neg fun hc => hc rfl, hgrown.dir.table_eq, hentries, update_tableOf_succ, h.table_eq, ← hp]
    rfl
  · show p < k1.entries i
    rw [hentries]
    exact Nat.lt_succ_self p
  · exact (hgrown.dir.zoneOf_store hz1 _ _).symm

theorem Kernel.Directory.place (hp : p ≤ k.entries i) (h0 : 0 ∉ name) (hlen : name.length ≤ nameLen)
    (hz : zoneOf k.zones zone d (p / dirEntriesPerBlock) ≠ 0)
    (hb : b = zoneOf k.zones zone d (p / dirEntriesPerBlock)) (he : e = p % dirEntriesPerBlock) :
    p < k.entries i ∧ k.table i p ≠ none ∧ place i name p b e (k.hold b) = .ok false (k.hold b) ∨
      k.table i p = none ∧ ∃ k', place i name p b e (k.hold b) = .ok true (k'.hold b) ∧
        Edits k zone d i k' zone ∧ k'.table i = k.table i ∧ Placed k' zone d i name b e p := by
  have hsize := h.size_eq
  rw [place_eq]
  have hinode : (k.hold b).inode i = k.inode i := rfl
  rw [hinode]
  by_cases hend : p = k.entries i
  · obtain ⟨hedits, htable, hlt, hb'⟩ := h.extended hend hz hb he
    have hfree : k.table i p = none := by
      rw [h.table_eq, tableOf_eq_none, hend]
      exact fun hc => absurd hc (Nat.lt_irrefl _)
    obtain ⟨hedits', htable', hplaced⟩ := hedits.dir.named hlt (by rw [htable]; exact hfree) h0 hlen
      hb' he
    refine .inr ⟨hfree, (k.extended i p b e).named i name b e, ?_, hedits.trans hedits',
      htable'.trans htable, hplaced⟩
    have hzero : deInode ((k.extended i p b e).zones.block b) e = 0 := by
      show deInode (update k.zones.block b _ b) e = 0
      rw [update_self]
      exact deInode_setDeInode (by decide)
    have hs : (k.inode i).iSize ≤ p * 16 := by omega
    rw [if_pos hs]
    exact if_pos hzero
  · have hlt : p < k.entries i := by omega
    have hinode : k.table i p = none ↔ deInode (k.zones.block b) e = 0 := by
      rw [h.table_eq, tableOf_eq_none, fileBlock_of_ne hz, ← hb, ← he]
      exact ⟨fun hc => hc hlt, fun hc _ => hc⟩
    have hs : ¬(k.inode i).iSize ≤ p * 16 := by omega
    rw [if_neg hs]
    by_cases hfree : k.table i p = none
    · obtain ⟨hedits, htable, hplaced⟩ := h.named hlt hfree h0 hlen hb he
      exact .inr ⟨hfree, k.named i name b e, if_pos (hinode.mp hfree), hedits, htable, hplaced⟩
    · exact .inl ⟨hlt, hfree, if_neg fun hc => hfree (hinode.mpr hc)⟩

end Adding

/-- Every entry is in use, and there are too few zones for one more block. -/
def Kernel.NoRoom (k : Kernel) (zone : ι → Nat → Nat) (d : ι) (i : Slot) : Prop :=
  (∀ p < k.entries i, k.table i p ≠ none) ∧
    k.zones.free.card < (missing k.zones zone d (slots (k.entries i / dirEntriesPerBlock)
      (k.entries i / dirEntriesPerBlock + 1))).card

/-- `add_entry` stores the name in an unused entry, or there is no room. -/
def AddsName (k : Kernel) (zone : ι → Nat → Nat) (d : ι) (i : Slot) (name : List UInt8) :
    Option (Nat × Nat) → Kernel → Prop
  | none, s => k.NoRoom zone d i ∧ ∃ zone', Edits k zone d i s zone' ∧ s.table i = k.table i ∧
      s.entries i = k.entries i
  | some (b, e), s => ¬k.NoRoom zone d i ∧ ∃ zone' k' p, s = k'.hold b ∧ Edits k zone d i k' zone' ∧
      k'.table i = k.table i ∧ k.table i p = none ∧ Placed k' zone' d i name b e p

section Loop

variable (h : k.Directory zone d i)

include h

theorem Kernel.Directory.addNext_of_lt (hp : p < k.entries i) :
    addNext i p k = .ok (some (.entry (zoneOf k.zones zone d (p / dirEntriesPerBlock)) 0))
      (k.hold (zoneOf k.zones zone d (p / dirEntriesPerBlock))) := by
  have hblock := h.block_lt hp
  have hz := h.zone_ne hp
  rw [← zoneAt_eq h.inode hblock] at hz ⊢
  unfold addNext
  rw [bind_of_eq (createBlock_of_ne h.readable hblock hz), if_neg hz,
    bind_of_eq (bread_eq h.readable _), if_pos rfl]
  rfl

variable [DecidableEq ι]

theorem Kernel.Directory.addNext_end :
    Returns (addNext i (k.entries i)) k fun r s => ∃ zone' k', Edits k zone d i k' zone' ∧
      k'.table i = k.table i ∧ k'.entries i = k.entries i ∧
      (r = none ∧ s = k' ∧ k.zones.free.card < (missing k.zones zone d
          (slots (k.entries i / dirEntriesPerBlock) (k.entries i / dirEntriesPerBlock + 1))).card ∨
        ∃ b, b = zoneOf k'.zones zone' d (k.entries i / dirEntriesPerBlock) ∧ b ≠ 0 ∧
          r = some (.entry b 0) ∧ s = k'.hold b ∧ ¬k.zones.free.card < (missing k.zones zone d
          (slots (k.entries i / dirEntriesPerBlock)
            (k.entries i / dirEntriesPerBlock + 1))).card) := by
  have hcreate := (createBlock_fills h.zoned h.inode h.entries_lt).and_ensures bmap'_dirty
  refine (bmap'_lifts h.readable hcreate).bind fun a k' ⟨m, z, ⟨hslots, hdirty⟩, hk⟩ => ?_
  subst hk
  have hgrows : Grows k.zones zone d z (update zone d m.iZone) := hslots.1.grows h.zoned
  have hm : (k.inode i).toInode.Remapped m := hslots.2.1
  have hedits := h.grow hgrows hm hdirty
  have hsize : ((k.remap i m z).inode i).iSize = (k.inode i).iSize := by
    rw [remap_inode]
    rw [hm]
  have hentries : (k.remap i m z).entries i = k.entries i := by rw [entries, hsize, entries]
  have htable : (k.remap i m z).table i = k.table i := by
    rw [hedits.dir.table_eq, h.table_eq, hentries]
    exact tableOf_congr fun p _ => hgrows.content _ _ (length_slot _)
  have hzero := hslots.eq_zero_iff
  by_cases ha : a = 0
  · rw [if_pos ha]
    exact returns_pure.mpr ⟨_, _, hedits, htable, hentries, .inl ⟨rfl, rfl, hzero.mp ha⟩⟩
  · rw [if_neg ha, returns_bind, returns_of_eq (bread_eq (k := k.remap i m z) h.readable a),
      if_pos rfl,
      returns_pure]
    exact ⟨_, _, hedits, htable, hentries,
      .inr ⟨a, hslots.2.2.1, ha, rfl, rfl, fun hc => ha (hzero.mpr hc)⟩⟩

/-- The entries before `p` are in use, and `e` is its place. -/
theorem Kernel.Directory.addLoop (h0 : 0 ∉ name) (hlen : name.length ≤ nameLen) {fuel : Nat}
    (hp : p ≤ k.entries i) (hfuel : k.entries i < p + fuel) (hused : ∀ q < p, k.table i q ≠ none)
    (hat : b = zoneOf k.zones zone d (p / dirEntriesPerBlock) ∧ b ≠ 0 ∧ e = p % dirEntriesPerBlock ∨
      e = dirEntriesPerBlock ∧ p % dirEntriesPerBlock = 0) :
    Returns (addLoop i name fuel p (some (b, e))) (k.hold b) (AddsName k zone d i name) := by
  induction fuel generalizing p b e with
  | zero => omega
  | succ fuel ih =>
    -- the name is stored at `p`, or the loop goes on behind it
    have hplace : ∀ b e, b = zoneOf k.zones zone d (p / dirEntriesPerBlock) → b ≠ 0 →
        e = p % dirEntriesPerBlock →
        Returns (do
          if ← Namei.place i name p b e then pure (some (b, e))
          else Namei.addLoop i name fuel (p + 1) (some (b, e + 1))) (k.hold b)
          (AddsName k zone d i name) := by
      intro b e hb hb0 he
      have hz := hb ▸ hb0
      rcases h.place hp h0 hlen hz hb he with
        ⟨hlt, huse, heq⟩ | ⟨hfree, k', heq, hedits, htable, hplaced⟩
      · rw [returns_bind, returns_of_eq heq, if_neg Bool.false_ne_true]
        refine ih (by omega) (by omega) (fun q hq => ?_) ?_
        · by_cases hqp : q = p
          · rw [hqp]
            exact huse
          · exact hused q (by omega)
        · unfold dirEntriesPerBlock at *
          by_cases hlast : p % 64 + 1 = 64
          · exact .inr ⟨by omega, by omega⟩
          · refine .inl ⟨?_, hb0, by omega⟩
            rw [show (p + 1) / 64 = p / 64 by omega]
            exact hb
      · rw [returns_bind, returns_of_eq heq, if_pos rfl, returns_pure]
        refine ⟨fun ⟨hall, hlt⟩ => ?_, zone, k', p, rfl, hedits, htable, hfree, hplaced⟩
        by_cases hend : p < k.entries i
        · exact hall p hend hfree
        · rw [← Nat.le_antisymm hp (Nat.not_lt.mp hend), missing_of_zoneOf hz] at hlt
          exact Nat.not_lt_zero _ hlt
    unfold Namei.addLoop
    rcases hat with ⟨hb, hb0, he⟩ | ⟨he, hfirst⟩
    · have hlt : e < dirEntriesPerBlock := by
        unfold dirEntriesPerBlock at *
        omega
      have hpointer : addPointer i p (some (b, e)) (k.hold b) =
        .ok (some (.entry b e)) (k.hold b) := by
        unfold addPointer
        dsimp only
        rw [if_pos hlt]
        rfl
      rw [returns_bind, returns_of_eq hpointer]
      exact hplace b e hb hb0 he
    · have hpointer : addPointer i p (some (b, e)) (k.hold b) = addNext i p k := by
        unfold addPointer
        dsimp only
        rw [if_neg (by omega)]
        exact bind_of_eq (brelse_eq k b)
      by_cases hend : p < k.entries i
      · rw [returns_bind, returns_of_eq (hpointer.trans (h.addNext_of_lt hend))]
        exact hplace _ 0 rfl (h.zone_ne hend) hfirst.symm
      obtain rfl : p = k.entries i := by omega
      have hnext := h.addNext_end
      rw [returns_bind]
      unfold Returns at hnext ⊢
      rw [hpointer]
      refine Returns.imp hnext fun r s hrs => ?_
      obtain ⟨zone', k', hedits, htable, hentries, hr⟩ := hrs
      rcases hr with ⟨rfl, rfl, hlt⟩ | ⟨b', hb', hb0, rfl, rfl, hroom⟩
      · exact returns_pure.mpr ⟨⟨hused, hlt⟩, zone', hedits, htable, hentries⟩
      rcases hedits.dir.place hentries.symm.le h0 hlen (hb' ▸ hb0) hb' hfirst.symm with
        ⟨hlt, -⟩ | ⟨hfree, k'', heq, hedits', htable', hplaced⟩
      · omega
      · show Returns (_ >>= _) _ _
        rw [returns_bind, returns_of_eq heq, if_pos rfl, returns_pure]
        exact ⟨fun hc => hroom hc.2, zone', k'', k.entries i, rfl, hedits.trans hedits',
          htable'.trans htable, htable ▸ hfree, hplaced⟩

theorem Kernel.Directory.addEntry (hname : name ≠ []) (h0 : 0 ∉ name)
    (hfirst : (k.inode i).iZone 0 ≠ 0) :
    Returns (addEntry i name) k (AddsName k zone d i (name.take nameLen)) := by
  have hsize : (k.inode i).iSize ≤ 1024 * maxBlocks := h.blocks.size
  have := h.size_eq
  have hzone : (k.inode i).iZone 0 = zoneOf k.zones zone d (0 / dirEntriesPerBlock) :=
    zoneAt_eq h.inode (show 0 < maxBlocks by decide)
  unfold Namei.addEntry
  rw [returns_bind, returns_get, if_neg (by simp [nameLen, hname, hfirst]), returns_bind,
    returns_of_eq (bread_eq h.readable _), if_pos rfl]
  refine h.addLoop (fun hc => h0 (List.mem_of_mem_take hc)) (List.length_take_le _ _)
    (Nat.zero_le _) (by unfold maxBlocks at hsize; omega)
      (fun q hq => absurd hq (Nat.not_lt_zero q))
    (.inl ⟨hzone, hfirst, rfl⟩)

end Loop

end Linux001.Namei
