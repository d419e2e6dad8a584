import Linux001.Namei.DirTable

/-! A directory as a map from names to inodes, for `add_entry` and `find_entry`. `match` compares
unsigned bytes of the user with signed ones of the entry, so that a name with a byte above 127 is
added but is never found. -/

namespace Linux001.Namei

open Function Fs ProofKit ProofKit.Forest Kernel

variable {ι : Type*} {zone : ι → Nat → Nat} {d : ι}
variable {k k₁ k₂ : Kernel} {i : Slot} {b e n p : Nat} {name : List UInt8}

def Kernel.find (k : Kernel) (i : Slot) (name : List UInt8) : Except Stop (Option Nat) :=
  match findEntry i name k with
  | .ok found k' => .ok (found.map fun p => deInode (k'.zones.block p.1) p.2)
  | .error stop _ => .error stop

structure Inserted (k : Kernel) (i : Slot) (name : List UInt8) (n : Nat) (k' : Kernel) : Prop where
  finds : ∀ m, 0 ∉ m → k'.find i m =
    if m.take nameLen = name.take nameLen then .ok (some n) else k.find i m
  unique : (k'.table i).Unique
  restores : ∀ b e k₁ k₂, findEntry i name k' = .ok (some (b, e)) k₁ →
    fillEntry b e 0 k₁ = .ok ⟨⟩ k₂ → ∀ m, 0 ∉ m → k₂.find i m = k.find i m

theorem table_of_lt (hp : p < k.entries i) : k.table i p =
    if k.entryInode (fields (k.inode i).toInode) p ≠ 0 then
      some (entryName (k.zones.block (k.entryZone (fields (k.inode i).toInode) p))
        (p % dirEntriesPerBlock), k.entryInode (fields (k.inode i).toInode) p)
    else none := by
  unfold table tableOf
  simp only [hp, true_and]
  rfl

theorem lt_of_table {x : List UInt8} (hp : k.table i p = some (x, n)) :
    p < k.entries i ∧ k.entryInode (fields (k.inode i).toInode) p = n := by
  have hlt : p < k.entries i := by
    by_contra hge
    have hnone : k.table i p = none := tableOf_eq_none.mpr fun hc => absurd hc hge
    rw [hnone] at hp
    cases hp
  rw [table_of_lt hlt] at hp
  split at hp
  · exact ⟨hlt, congrArg Prod.snd (Option.some.inj hp)⟩
  · cases hp

theorem entryFits_iff (h0 : 0 ∉ name) (hp : p < k.entries i) :
    k.entryFits (fields (k.inode i).toInode) name p = true ↔ Plain name ∧
      k.table i p = some (name.take nameLen, k.entryInode (fields (k.inode i).toInode) p) := by
  have hzero : 0 ∉ name.take nameLen := fun hc => h0 (List.mem_of_mem_take hc)
  rw [entryFits, matchEntry_iff hzero (List.length_take_le _ _), table_of_lt hp]
  constructor
  · rintro ⟨hinode, hname, hplain⟩
    have hused : k.entryInode (fields (k.inode i).toInode) p ≠ 0 := hinode
    rw [if_pos hused, hname]
    exact ⟨hplain, rfl⟩
  · rintro ⟨hplain, hslot⟩
    by_cases hinode : k.entryInode (fields (k.inode i).toInode) p ≠ 0
    · rw [if_pos hinode] at hslot
      exact ⟨hinode, congrArg Prod.fst (Option.some.inj hslot), hplain⟩
    · rw [if_neg hinode] at hslot
      cases hslot

section Directory

variable (h : k.Directory zone d i)

include h

theorem Kernel.Directory.hold {block : Nat} (hb : b = zoneOf k.zones zone d block) (hb0 : b ≠ 0) :
    (k.hold b).Directory zone d i where
  readable := h.readable
  zoned := by
    have hused : k.zones.used b = true :=
      h.zoned.used b hb0 ⟨_, _, (length_slot block).le, hb.symm⟩
    exact ⟨h.zoned.reserved, h.zoned.unheld_hold hused, h.zoned.range, h.zoned.distinct,
      h.zoned.used⟩
  inode := h.inode
  blocks := ⟨h.blocks.size, h.blocks.zone⟩
  whole := h.whole

theorem Kernel.Directory.fill (hp : p < k.entries i) (hn : n < 65536)
    (hb : b = zoneOf k.zones zone d (p / dirEntriesPerBlock)) (he : e = p % dirEntriesPerBlock) :
    Edits k zone d i (k.setBlock b (setDeInode (k.zones.block b) e n)) zone ∧
      (k.setBlock b (setDeInode (k.zones.block b) e n)).table i =
        update (k.table i) p (if n ≠ 0 then some (entryName (k.zones.block b) e, n) else none) := by
  subst hb he
  have hz := h.zone_ne hp
  refine ⟨h.store hz _, ?_⟩
  rw [← fileBlock_of_ne hz, h.table_store hp fun e he =>
    ⟨deInode_setDeInode_of_ne he, entryName_setDeInode⟩, deInode_setDeInode hn,
      entryName_setDeInode]

theorem Kernel.Directory.find_eq (hunique : (k.table i).Unique) (h0 : 0 ∉ name) :
    ∃ r, k.find i name = .ok r ∧
      ∀ v, r = some v ↔ name ≠ [] ∧ Plain name ∧ (k.table i).Maps (name.take nameLen) v := by
  let m := fields (k.inode i).toInode
  have hfind : k.find i name = .ok ((k.entryOf m name).map (k.entryInode m)) := by
    unfold find
    rw [findEntry_eq h.readable rfl h.blocks]
    cases hentry : k.entryOf (fields (k.inode i).toInode) name with
    | none => simp [found, m]
    | some p => simp [found, m, entryInode]; rfl
  refine ⟨_, hfind, fun v => ?_⟩
  unfold entryOf
  by_cases hname : name = []
  · simp [hname]
  rw [if_neg hname]
  constructor
  · intro hv
    obtain ⟨p, hp, rfl⟩ := Option.map_eq_some_iff.mp hv
    have hlt : p < k.entries i := List.mem_range.mp (List.mem_of_find?_eq_some hp)
    obtain ⟨hplain, hslot⟩ := (entryFits_iff h0 hlt).mp (List.find?_some hp)
    exact ⟨hname, hplain, p, hslot⟩
  · rintro ⟨-, hplain, p, hslot⟩
    obtain ⟨hlt, hinode⟩ := lt_of_table hslot
    have hfits : k.entryFits m name p = true := by
      refine (entryFits_iff h0 hlt).mpr ⟨hplain, ?_⟩
      rw [hinode]
      exact hslot
    obtain ⟨q, hq⟩ : ∃ q, (List.range (m.iSize / 16)).find? (k.entryFits m name) = some q := by
      cases hfind' : (List.range (m.iSize / 16)).find? (k.entryFits m name) with
      | some q => exact ⟨q, rfl⟩
      | none => exact absurd hfits (List.find?_eq_none.mp hfind' p (List.mem_range.mpr hlt))
    have hqlt : q < k.entries i := List.mem_range.mp (List.mem_of_find?_eq_some hq)
    obtain ⟨-, hqslot⟩ := (entryFits_iff h0 hqlt).mp (List.find?_some hq)
    obtain rfl := hunique q p _ _ _ hqslot hslot
    rw [hq, Option.map_some]
    exact congrArg some hinode

theorem Kernel.Directory.find_of_not_plain (h0 : 0 ∉ name) (hplain : ¬Plain name) :
    k.find i name = .ok none := by
  have hentry : k.entryOf (fields (k.inode i).toInode) name = none := by
    unfold entryOf
    split
    · rfl
    · rw [List.find?_eq_none]
      intro p hp hfits
      exact hplain ((entryFits_iff h0 (List.mem_range.mp hp)).mp hfits).1
  unfold find
  rw [findEntry_eq h.readable rfl h.blocks, hentry]
  rfl

end Directory

theorem find_congr {zone' : ι → Nat → Nat} {k' : Kernel} (h : k.Directory zone d i)
    (h' : k'.Directory zone' d i) (hunique : (k.table i).Unique) (hunique' : (k'.table i).Unique)
    (h0 : 0 ∉ name)
    (hmaps : ∀ v, (k'.table i).Maps (name.take nameLen) v ↔
      (k.table i).Maps (name.take nameLen) v) : k'.find i name = k.find i name := by
  obtain ⟨r, hr, hmem⟩ := h.find_eq hunique h0
  obtain ⟨r', hr', hmem'⟩ := h'.find_eq hunique' h0
  rw [hr, hr']
  refine congrArg _ (Option.ext fun v => ?_)
  rw [hmem, hmem', hmaps]

theorem not_inserted_of_not_plain (h : k₂.Directory zone d i) (h0 : 0 ∉ name)
    (hplain : ¬Plain name) : ¬Inserted k i name n k₂ := by
  intro hins
  have hfound := hins.finds name h0
  rw [if_pos rfl, h.find_of_not_plain h0 hplain] at hfound
  cases hfound

section Insert

variable [DecidableEq ι] (h : k.Directory zone d i) (hunique : (k.table i).Unique)
  (hname : name ≠ [])
  (h0 : 0 ∉ name) (hnone : k.find i name = .ok none) (hn : n ≠ 0) (hlt : n < 65536)
  (hadd : addEntry i name k = .ok (some (b, e)) k₁) (hfill : fillEntry b e n k₁ = .ok ⟨⟩ k₂)

include h hname h0 hn hlt hadd hfill

theorem addEntry_puts : ∃ (zone' : ι → Nat → Nat) (p : Nat), k₂.Directory zone' d i ∧
    k.table i p = none ∧ k₂.table i = (k.table i).put p (name.take nameLen) n := by
  have hfirst : (k.inode i).iZone 0 ≠ 0 := by
    intro hz
    unfold addEntry at hadd
    rw [get_bind, if_pos (.inr hz)] at hadd
    cases hadd
  obtain ⟨r, s, hr, hs⟩ := h.addEntry hname h0 hfirst
  obtain ⟨rfl, rfl⟩ : r = some (b, e) ∧ s = k₁ := by
    rw [hadd] at hr
    cases hr
    exact ⟨rfl, rfl⟩
  obtain ⟨-, zone', k', p, rfl, hedits, htable, hfree, hplaced⟩ := hs
  have hb0 : b ≠ 0 := by
    rw [hplaced.block]
    exact hedits.dir.zone_ne hplaced.lt
  obtain ⟨hedits', htable'⟩ := hedits.dir.fill hplaced.lt hlt hplaced.block hplaced.entry
  obtain rfl : (k'.setBlock b (setDeInode (k'.zones.block b) e n)).hold b = k₂ := by
    cases hfill
    rfl
  have hblock : b = zoneOf (k'.setBlock b (setDeInode (k'.zones.block b) e n)).zones zone' d
      (p / dirEntriesPerBlock) := by
    rw [hplaced.block]
    exact (hedits.dir.zoneOf_store (hplaced.block ▸ hb0) _ _).symm
  refine ⟨zone', p, hedits'.dir.hold hblock hb0, hfree, ?_⟩
  rw [if_pos hn, hplaced.name, htable] at htable'
  exact htable'

include hunique hnone

/-- The name is added to the map exactly if no byte of it is above 127. -/
theorem inserted_iff : Inserted k i name n k₂ ↔ ∀ c ∈ name.take nameLen, c.toNat < 128 := by
  obtain ⟨zone', p, h2, hfree, htable⟩ := addEntry_puts h hname h0 hn hlt hadd hfill
  constructor
  · intro hins
    by_contra hplain
    exact not_inserted_of_not_plain h2 h0 hplain hins
  intro hplain
  have habsent : ∀ v, ¬(k.table i).Maps (name.take nameLen) v := by
    intro v hv
    obtain ⟨r, hr, hmem⟩ := h.find_eq hunique h0
    rw [hnone] at hr
    cases Except.ok.inj hr
    cases (hmem v).mpr ⟨hname, hplain, hv⟩
  have hunique2 : (k₂.table i).Unique := by
    rw [htable]
    exact hunique.put habsent
  refine ⟨fun m hm => ?_, hunique2, fun b' e' k3 k4 hfound hclear m hm => ?_⟩
  · by_cases heq : m.take nameLen = name.take nameLen
    · obtain ⟨r, hr, hmem⟩ := h2.find_eq hunique2 hm
      rw [if_pos heq, hr, (hmem n).mpr]
      refine ⟨?_, ?_, ?_⟩
      · rintro rfl
        simp [nameLen, hname] at heq
      · rw [Plain, heq]
        exact hplain
      · rw [heq, htable]
        exact SlotMap.maps_put_self
    · rw [if_neg heq]
      refine find_congr h h2 hunique hunique2 hm fun v => ?_
      rw [htable]
      exact SlotMap.maps_put_of_ne hfree heq
  · -- the entry that is found is the one that was added
    rw [findEntry_eq h2.readable rfl h2.blocks] at hfound
    cases hentry : k₂.entryOf (fields (k₂.inode i).toInode) name with
    | none =>
      rw [hentry] at hfound
      cases hfound
    | some q =>
      rw [hentry] at hfound
      obtain ⟨rfl, rfl, rfl⟩ : k₂.entryZone (fields (k₂.inode i).toInode) q = b' ∧
          q % dirEntriesPerBlock = e' ∧ k₂.hold
          (k₂.entryZone (fields (k₂.inode i).toInode) q) = k3 := by
        cases hfound
        exact ⟨rfl, rfl, rfl⟩
      rw [entryOf, if_neg hname] at hentry
      have hq : q < k₂.entries i := List.mem_range.mp (List.mem_of_find?_eq_some hentry)
      have hqslot := ((entryFits_iff h0 hq).mp (List.find?_some hentry)).2
      have hpslot : k₂.table i p = some (name.take nameLen, n) := by
        rw [htable]
        exact update_self _ _ _
      obtain rfl := hunique2 q p _ _ _ hqslot hpslot
      have hzone := h2.entryZone_eq rfl (h2.block_lt hq)
      have h3 := h2.hold hzone (h2.blocks.zone q hq)
      obtain ⟨hedits, hcleared⟩ := h3.fill hq (show 0 < 65536 by decide) hzone rfl
      have htable3 : (k₂.hold (k₂.entryZone (fields (k₂.inode i).toInode) q)).table i =
        k₂.table i := rfl
      have hsame : k4.table i = k.table i := by
        cases hclear
        rw [htable3, htable] at hcleared
        exact hcleared.trans (SlotMap.clear_put hfree)
      have h4 : k4.Directory zone' d i := by
        cases hclear
        exact hedits.dir
      exact find_congr h h4 hunique (by rw [hsame]; exact hunique) hm fun v => by rw [hsame]

end Insert

def rootZone : Unit → Nat → Nat := fun _ => rootInode.iZone

theorem mounted_value {r : Unit × Fin 9} {path : List (Fin 512)} (hlen : path.length ≤ depth r) :
    (forest mounted.zones rootZone).value r path = 0 ∨
    (forest mounted.zones rootZone).value r path = 10 ∧
      r = ((), 0) ∧ path = [] := by
  obtain ⟨u, l⟩ := r
  by_cases hl : l = 0
  · subst hl
    obtain rfl : path = [] := List.length_eq_zero_iff.mp (Nat.le_zero.mp hlen)
    exact .inr ⟨rfl, rfl, rfl⟩
  · left
    clear hlen
    induction path with
    | nil => exact if_neg fun hc => hl (Fin.ext hc)
    | cons c path ih => exact value_cons_of_eq ih

theorem mounted_directory : mounted.Directory rootZone () 0 where
  readable := rfl
  zoned := by
    have hpoints : ∀ n, n ≠ 0 → Points depth (forest mounted.zones rootZone) n → n = 10 := by
      rintro n hn ⟨r, path, hlen, hv⟩
      rcases mounted_value hlen with h0 | ⟨h10, -⟩
      · exact absurd (hv.symm.trans h0) hn
      · exact hv.symm.trans h10
    refine ⟨fun p hp => ?_, fun _ _ _ => rfl, fun n hn hp => ?_,
      fun r path r' path' hlen hlen' hne heq => ?_,
      fun n hn hp => ?_⟩
    · cases hp
      decide
    · obtain rfl := hpoints n hn hp
      exact ⟨by decide, by decide⟩
    · rcases mounted_value hlen with h0 | ⟨-, hr, hpath⟩
      · exact absurd h0 hne
      · rcases mounted_value hlen' with h0' | ⟨-, hr', hpath'⟩
        · exact absurd (heq.trans h0') hne
        · exact ⟨hr.trans hr'.symm, hpath.trans hpath'.symm⟩
    · obtain rfl := hpoints n hn hp
      decide
  inode := rfl
  blocks := by
    have hsize : (fields (mounted.inode 0).toInode).iSize / 16 = 2 := by decide
    refine ⟨by decide, fun j hj => ?_⟩
    obtain rfl | rfl : j = 0 ∨ j = 1 := by omega
    · decide
    · decide
  whole := by decide

theorem mounted_table : (∀ p, 2 ≤ p → mounted.table 0 p = none) ∧
    mounted.table 0 0 = some ([46], 1) ∧ mounted.table 0 1 = some ([46, 46], 1) := by
  refine ⟨fun p hp => tableOf_eq_none.mpr fun hlt => ?_, by decide +kernel, by decide +kernel⟩
  have hentries : mounted.entries 0 = 2 := by decide
  omega

theorem mounted_unique : (mounted.table 0).Unique := by
  obtain ⟨hnone, hdot, hdots⟩ := mounted_table
  have hslots : ∀ p x v, mounted.table 0 p = some (x, v) → p = 0 ∧ x = [46] ∨ p = 1 ∧
    x = [46, 46] := by
    intro p x v hp
    rcases p with _ | _ | p
    · cases hp
      exact .inl ⟨rfl, rfl⟩
    · cases hp
      exact .inr ⟨rfl, rfl⟩
    · cases hp
  intro p q x v w hp hq
  rcases hslots p x v hp with ⟨rfl, rfl⟩ | ⟨rfl, rfl⟩ <;>
    rcases hslots q _ w hq with ⟨rfl, hx⟩ | ⟨rfl, hx⟩
  · rfl
  · cases hx
  · cases hx
  · rfl

theorem mounted_adds (hname : name ≠ []) (h0 : 0 ∉ name) : ∃ b e k₁,
    addEntry 0 name mounted = .ok (some (b, e)) k₁ := by
  obtain ⟨r, s, hr, hs⟩ := mounted_directory.addEntry hname h0 (by decide)
  cases r with
  | some p => exact ⟨p.1, p.2, s, hr⟩
  | none =>
    have hmissing : missing mounted.zones rootZone ()
      (slots (mounted.entries 0 / dirEntriesPerBlock)
        (mounted.entries 0 / dirEntriesPerBlock + 1)) = ∅ := missing_of_zoneOf (by decide)
    have hlt := hs.1.2
    exact absurd hlt (Nat.not_lt_zero _)

/-- The name "a" in the root directory. -/
theorem inserted_iff_mounted : ∃ b e k₁ k₂, addEntry 0 [97] mounted = .ok (some (b, e)) k₁ ∧
    fillEntry b e 2 k₁ = .ok ⟨⟩ k₂ ∧
    (Inserted mounted 0 [97] 2 k₂ ↔ ∀ c ∈ [(97 : UInt8)].take nameLen, c.toNat < 128) := by
  obtain ⟨b, e, k₁, hadd⟩ := mounted_adds (List.cons_ne_nil 97 []) (by decide)
  exact ⟨b, e, k₁, _, hadd, rfl,
    inserted_iff mounted_directory mounted_unique (List.cons_ne_nil _ _) (by decide)
    rfl (by decide) (by decide) hadd rfl⟩

/-- The name "é" is added to the root directory and is not found afterwards. -/
theorem accented_not_inserted : mounted.find 0 [195, 169] = .ok none ∧
    ∃ b e k₁ k₂, addEntry 0 [195, 169] mounted = .ok (some (b, e)) k₁ ∧
      fillEntry b e 2 k₁ = .ok ⟨⟩ k₂ ∧ k₂.find 0 [195, 169] = .ok none ∧
      ¬Inserted mounted 0 [195, 169] 2 k₂ := by
  have hplain : ¬Plain [195, 169] := fun hp => absurd (hp 195 (by simp [nameLen])) (by decide)
  obtain ⟨b, e, k₁, hadd⟩ := mounted_adds (List.cons_ne_nil 195 [169]) (by decide)
  obtain ⟨zone', p, h2, -⟩ := addEntry_puts (n := 2) mounted_directory (List.cons_ne_nil _ _)
    (by decide)
    (by decide) (by decide) hadd rfl
  exact ⟨mounted_directory.find_of_not_plain (by decide) hplain, b, e, k₁, _, hadd, rfl,
    h2.find_of_not_plain (by decide) hplain, not_inserted_of_not_plain h2 (by decide) hplain⟩

end Linux001.Namei
