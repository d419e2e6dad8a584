import Linux001.Fs.BlockMap
import Linux001.ProofKit.Update

/-! `truncate` frees exactly the zones of its inode: the direct blocks, and the trees of zones below
`i_zone[7]` and `i_zone[8]`. -/

namespace Linux001.Fs

open Function ProofKit ProofKit.Forest

variable {ι : Type*} {z z1 z2 : Zones} {zone : ι → Nat → Nat} {r : ι × Fin 9}
  {path : List (Fin 512)} {stale : Nat → Block} {free : Nat → ZoneM Unit} {S : Nat → Prop} {n : Nat}
  {T : Nat → Prop}

structure Agrees (z z₁ : Zones) (S : Nat → Prop) : Prop where
  sb : z₁.sb = z.sb
  block : ∀ n, S n → z₁.block n = z.block n
  used : ∀ n, S n → z₁.used n = z.used n

theorem Agrees.refl : Agrees z z S := ⟨rfl, fun _ _ => rfl, fun _ _ => rfl⟩

theorem Agrees.mono (h : Agrees z z1 T) (hST : ∀ n, S n → T n) :
    Agrees z z1 S :=
  ⟨h.sb, fun n hn => h.block n (hST n hn), fun n hn => h.used n (hST n hn)⟩

theorem Agrees.frees (h : Agrees z z1 S) (hf : z1.Frees T z2)
    (hdata : ∀ n, S n → z.IsData n) (hST : ∀ n, S n → ¬T n) : Agrees z z2 S where
  sb := hf.sb.trans h.sb
  block n hn := (hf.block n (hST n hn)).trans (h.block n hn)
  used n hn := by
    rw [← h.used n hn, Bool.eq_iff_iff, hf.used n ((Zones.IsData.congr h.sb).mpr (hdata n hn))]
    exact and_iff_left fun hT => hST n hn hT.1

theorem Agrees.hold {b : Nat} (h : Agrees z z1 S) : Agrees z (z1.hold b) S :=
  ⟨h.sb, h.block, h.used⟩

theorem Zoned.below_isData (h : Zoned z zone)
    (hn : Below depth (forest z zone) r path n) : z.IsData n := h.range n hn.1 hn.points

theorem Zoned.below_used (h : Zoned z zone)
    (hn : Below depth (forest z zone) r path n) : z.used n = true := h.used n hn.1 hn.points

/-- `free`, called for the pointer in a slot, frees the tree below the slot. -/
def FreesTree (z : Zones) (zone : ι → Nat → Nat) (r : ι × Fin 9) (path : List (Fin 512))
    (free : Nat → ZoneM Unit) : Prop :=
  ∀ z₁, Agrees z z₁ (Below depth (forest z zone) r path) →
    Returns (free ((forest z zone).value r path)) z₁ fun _ z₂ =>
      z₁.Frees (Below depth (forest z zone) r path) z₂

theorem freesTree_leaf (h : Zoned z zone) (hlen : path.length = depth r)
    (hv : (forest z zone).value r path ≠ 0) : FreesTree z zone r path (freeBlock stale) := by
  intro z1 hz1
  have hbelow : ∀ n, n = (forest z zone).value r path ↔ Below depth (forest z zone) r path n := by
    intro n
    rw [below_iff (Nat.le_of_eq hlen) hv]
    refine ⟨.inl, fun hn => hn.resolve_right fun hlt => ?_⟩
    exact Nat.lt_irrefl _ (hlen ▸ hlt.1)
  have hself := (hbelow _).mp rfl
  have hdata := (Zones.IsData.congr hz1.sb).mpr (h.below_isData hself)
  have hused := (hz1.used _ hself).trans (h.below_used hself)
  exact (freeBlock_returns stale hdata hused).imp fun _ z2 hz2 => hz2.congr hbelow

/-- The trees of zones below the first `i` entries of an indirect block. -/
def Entries (z : Zones) (zone : ι → Nat → Nat) (r : ι × Fin 9) (path : List (Fin 512)) (i n : Nat) :
    Prop :=
  ∃ k : Fin 512, k.val < i ∧ Below depth (forest z zone) r (k :: path) n

theorem entries_succ {k : Fin 512} :
    Entries z zone r path k n ∨ Below depth (forest z zone) r (k :: path) n ↔
      Entries z zone r path (k + 1) n := by
  constructor
  · rintro (⟨k', hk', hn⟩ | hn)
    · exact ⟨k', by omega, hn⟩
    · exact ⟨k, by omega, hn⟩
  · rintro ⟨k', hk', hn⟩
    by_cases hkk : k' = k
    · exact .inr (hkk ▸ hn)
    · exact .inl ⟨k', by omega, hn⟩

theorem freeEntries_loop (h : Zoned z zone) (hlen : path.length < depth r)
    (hv : (forest z zone).value r path ≠ 0)
    (hfree : ∀ k, (forest z zone).value r (k :: path) ≠ 0 → FreesTree z zone r (k :: path) free)
    (hz1 : Agrees z z1 (Below depth (forest z zone) r path)) :
    Returns ((List.range 512).forM fun i => do
      let n := entry ((← get).block ((forest z zone).value r path)) i
      if n ≠ 0 then free n else pure ()) z1
      fun _ z2 => z1.Frees (Entries z zone r path 512) z2 := by
  have hdist := h.distinct
  refine returns_forM_range (I := fun i s => z1.Frees (Entries z zone r path i) s) ?_ ?_
  · exact .nothing fun n ⟨k, hk, _⟩ => absurd hk (Nat.not_lt_zero _)
  intro i s hi hs
  obtain ⟨k, rfl⟩ : ∃ k : Fin 512, k.val = i := ⟨⟨i, hi⟩, rfl⟩
  have hself : Below depth (forest z zone) r path ((forest z zone).value r path) :=
    ⟨hv, [], Nat.le_of_lt hlen, rfl⟩
  have hother : ¬Entries z zone r path k ((forest z zone).value r path) := fun ⟨k', _, hn⟩ =>
    not_below_cons hdist (Nat.le_of_lt hlen) hv hn
  have hentry : entry (s.block ((forest z zone).value r path)) k =
      (forest z zone).value r (k :: path) := by
    rw [hs.block _ hother, hz1.block _ hself, value_cons_of_ne hv]
    rfl
  have hchild : ∀ n, Below depth (forest z zone) r (k :: path) n →
      Below depth (forest z zone) r path n := fun n hn =>
    (below_iff (Nat.le_of_lt hlen) hv).mpr (.inr ⟨hlen, k, hn⟩)
  have hdisj : ∀ n, Entries z zone r path k n →
      ¬Below depth (forest z zone) r (k :: path) n := by
    rintro n ⟨k', hk', hn'⟩ hn
    obtain ⟨-, hkk⟩ := hn'.slot_eq hdist hn rfl
    obtain rfl : k' = k := (List.cons.inj hkk).1
    exact Nat.lt_irrefl _ hk'
  rw [returns_bind, returns_get]
  simp only [hentry]
  refine returns_ite.mpr ⟨fun h0 => ?_, fun h0 => ?_⟩
  · have hagrees : Agrees z s (Below depth (forest z zone) r (k :: path)) :=
      (hz1.mono hchild).frees hs (fun n hn => h.below_isData hn) fun n hn hn' =>
        hdisj n hn' hn
    refine (hfree k h0 s hagrees).imp fun _ t ht => ?_
    exact (hs.append ht hdisj).congr fun n => entries_succ
  · rw [not_not] at h0
    refine returns_pure.mpr (hs.congr fun n => ?_)
    rw [← entries_succ, or_iff_left (not_below_of_eq h0)]

theorem freesTree_node (h : Zoned z zone) (hlen : path.length < depth r)
    (hfree : ∀ k, (forest z zone).value r (k :: path) ≠ 0 → FreesTree z zone r (k :: path) free) :
    FreesTree z zone r path (freeEntries stale free) := by
  intro z1 hz1
  refine returns_ite.mpr ⟨fun hv => ?_, fun hv => ?_⟩
  · exact returns_pure.mpr (.nothing fun n => not_below_of_eq hv)
  have hself : Below depth (forest z zone) r path ((forest z zone).value r path) :=
    ⟨hv, [], Nat.le_of_lt hlen, rfl⟩
  have hother : ¬Entries z zone r path 512 ((forest z zone).value r path) := fun ⟨k, _, hn⟩ =>
    not_below_cons h.distinct (Nat.le_of_lt hlen) hv hn
  rw [returns_bind, bread_returns]
  refine (freeEntries_loop h hlen hv hfree hz1.hold).bind fun _ s hs => ?_
  have hcount : s.count ((forest z zone).value r path) ≠ 0 := by
    rw [hs.count _ fun hn => absurd hn hother]
    exact count_ne_zero_of_hold rfl
  rw [returns_bind, brelse_returns hcount]
  have hfrees := hs.of_hold hother
  have hdata := (Zones.IsData.congr hz1.sb).mpr (h.below_isData hself)
  have hused : (s.release ((forest z zone).value r path)).used ((forest z zone).value r path) =
      true :=
    (hfrees.used _ hdata).mpr
      ⟨(hz1.used _ hself).trans (h.below_used hself), fun hn => hother hn.1⟩
  refine (freeBlock_returns stale ((Zones.IsData.congr hfrees.sb).mpr hdata) hused).imp
    fun _ t ht => ?_
  refine (hfrees.append ht fun n hn hv' => hother (hv' ▸ hn)).congr fun n => ?_
  rw [below_iff (Nat.le_of_lt hlen) hv]
  constructor
  · rintro (⟨k, _, hn⟩ | hn)
    · exact .inr ⟨hlen, k, hn⟩
    · exact .inl hn
  · rintro (hn | ⟨-, k, hn⟩)
    · exact .inr hn
    · exact .inl ⟨k, k.isLt, hn⟩

def Roots (z : Zones) (zone : ι → Nat → Nat) (i : ι) (j n : Nat) : Prop :=
  ∃ k : Fin 9, k.val < j ∧ Below depth (forest z zone) (i, k) [] n

def Owned (z : Zones) (zone : ι → Nat → Nat) (i : ι) (n : Nat) : Prop := Roots z zone i 9 n

section Truncate

variable {i : ι} {k : Fin 9} {n : Nat}

theorem roots_succ :
    Roots z zone i k n ∨ Below depth (forest z zone) (i, k) [] n ↔ Roots z zone i (k + 1) n := by
  constructor
  · rintro (⟨k', hk', hn⟩ | hn)
    · exact ⟨k', by omega, hn⟩
    · exact ⟨k, by omega, hn⟩
  · rintro ⟨k', hk', hn⟩
    by_cases hkk : k' = k
    · exact .inr (hkk ▸ hn)
    · exact .inl ⟨k', by omega, hn⟩

theorem roots_step (h : Zoned z zone) (hs : z.Frees (Roots z zone i k) z1)
    (hfree : FreesTree z zone (i, k) [] free) :
    Returns (free (zone i k)) z1 fun _ z2 => z.Frees (Roots z zone i (k + 1)) z2 := by
  have hdisj : ∀ n, Roots z zone i k n → ¬Below depth (forest z zone) (i, k) [] n := by
    rintro n ⟨k', hk', hn'⟩ hn
    obtain ⟨hr, -⟩ := hn'.slot_eq h.distinct hn rfl
    obtain rfl : k' = k := (Prod.mk.inj hr).2
    exact Nat.lt_irrefl _ hk'
  have hagrees : Agrees z z1 (Below depth (forest z zone) (i, k) []) :=
    Agrees.refl.frees hs (fun n hn => h.below_isData hn) fun n hn hn' => hdisj n hn' hn
  exact (hfree z1 hagrees).imp fun _ z2 hz2 => (hs.append hz2 hdisj).congr fun n => roots_succ

theorem freesTree_freeInd (h : Zoned z zone) (hlen : path.length + 1 = depth r) :
    FreesTree z zone r path (freeInd stale) :=
  freesTree_node h (by omega) fun _ hv => freesTree_leaf h hlen hv

theorem freesTree_freeDind (h : Zoned z zone) (hlen : path.length + 2 = depth r) :
    FreesTree z zone r path (freeDind stale) :=
  freesTree_node h (by omega) fun _ _ => freesTree_freeInd h hlen

/-- The first `j` pointers are freed and cleared. -/
structure Cleared (z : Zones) (zone : ι → Nat → Nat) (i : ι) (inode : Inode) (j : Nat)
    (inode' : Inode) (z' : Zones) : Prop where
  frees : z.Frees (Roots z zone i j) z'
  rest : inode' = { inode with iZone := inode'.iZone }
  cleared : ∀ k < j, inode'.iZone k = 0
  kept : ∀ k, j ≤ k → inode'.iZone k = inode.iZone k

theorem freeDirect_cleared (h : Zoned z zone) {inode inode' : Inode} (hi : zone i = inode.iZone)
    (hk : k.val < 7) (hc : Cleared z zone i inode k inode' z1) :
    Returns (freeDirect stale inode' k) z1 fun inode'' z2 =>
      Cleared z zone i inode (k + 1) inode'' z2 := by
  have hz : zone i k = inode'.iZone k := by rw [hi, hc.kept k (Nat.le_refl _)]
  refine returns_ite.mpr ⟨fun hv => ?_, fun hv => ?_⟩
  · have hdepth : depth (i, k) = 0 := if_pos hk
    have hv' : (forest z zone).value (i, k) [] ≠ 0 := fun h0 => hv (hz.symm.trans h0)
    have hleaf : FreesTree z zone (i, k) [] (freeBlock stale) := freesTree_leaf h hdepth.symm hv'
    rw [← hz]
    refine (roots_step h hc.frees hleaf).bind fun _ z2 hz2 => returns_pure.mpr ?_
    refine ⟨hz2, ?_, fun k' hk' => ?_, fun k' hk' => ?_⟩
    · rw [hc.rest]
    · exact update_eq fun hkk => hc.cleared k' (by omega)
    · have hkk : k' ≠ k := by omega
      exact (update_of_ne hkk _ _).trans (hc.kept k' (by omega))
  · rw [not_not] at hv
    have hv' : (forest z zone).value (i, k) [] = 0 := hz.trans hv
    refine returns_pure.mpr ⟨hc.frees.congr fun n => ?_, hc.rest, fun k' hk' => ?_, fun k' hk' =>
      hc.kept k' (by omega)⟩
    · rw [← roots_succ, or_iff_left (not_below_of_eq hv')]
    · by_cases hkk : k' = k
      · rw [hkk, hv]
      · exact hc.cleared k' (by omega)

theorem truncate_returns (h : Zoned z zone) {inode : Inode} (hi : zone i = inode.iZone)
    (hfile : (isReg inode.iMode || isDir inode.iMode) = true) :
    Returns (truncate stale inode) z fun inode' z' =>
      z.Frees (Owned z zone i) z' ∧
        inode' = { inode with iZone := inode'.iZone, iSize := 0, iDirt := true } ∧
        ∀ k < 9, inode'.iZone k = 0 := by
  unfold truncate
  rw [if_pos hfile]
  have hloop : Returns ((List.range 7).foldlM (freeDirect stale) inode) z fun inode' z' =>
      Cleared z zone i inode 7 inode' z' := by
    refine returns_foldlM_range (I := fun j inode' z' => Cleared z zone i inode j inode' z') ?_ ?_
    · exact ⟨.nothing fun n ⟨k, hk, _⟩ => Nat.not_lt_zero _ hk, rfl,
        fun k hk => absurd hk (Nat.not_lt_zero _), fun _ _ => rfl⟩
    · intro j inode' z1 hj hc
      exact freeDirect_cleared (k := ⟨j, by omega⟩) h hi hj hc
  refine hloop.bind fun inode' z1 hc => ?_
  have h7 : zone i 7 = inode'.iZone 7 := by rw [hi, hc.kept 7 (Nat.le_refl _)]
  have h8 : zone i 8 = inode'.iZone 8 := by rw [hi, hc.kept 8 (by omega)]
  rw [← h7, ← h8]
  refine (roots_step (k := ⟨7, by decide⟩) h hc.frees (freesTree_freeInd h rfl)).bind
    fun _ z2 hz2 => ?_
  refine (roots_step (k := ⟨8, by decide⟩) h hz2 (freesTree_freeDind h rfl)).bind
    fun _ z3 hz3 => returns_pure.mpr ⟨hz3, ?_, fun k hk => ?_⟩
  · rw [hc.rest]
  exact update_eq fun h8 => update_eq fun h7 => hc.cleared k (by omega)

end Truncate

/-- What the freeing of the zones of the inode `i` does to the zones of all inodes. -/
structure Shrinks (z : Zones) (zone : ι → Nat → Nat) (i : ι) (z' : Zones) (zone' : ι → Nat → Nat) :
    Prop where
  sb : z'.sb = z.sb
  zoned : Zoned z' zone'
  count : (∀ n, Owned z zone i n → z.count n = 0) → z'.count = z.count
  exact : (∀ n, Owned z zone i n → z.count n = 0) → Exact z zone → Exact z' zone'
  others : ∀ i', i' ≠ i → zone' i' = zone i'
  gone : ∀ k path, content z' zone' (i, k) path = clearBlock
  content : ∀ r path, r.1 ≠ i → path.length ≤ depth r →
    content z' zone' r path = content z zone r path

section Shrinks

variable {i : ι} {z' : Zones} {zone' : ι → Nat → Nat}

theorem owned_iff :
    Owned z zone i n ↔ n ≠ 0 ∧ ∃ r path, r.1 = i ∧ path.length ≤ depth r ∧
      (forest z zone).value r path = n := by
  constructor
  · rintro ⟨k, -, hn, q, hq, hv⟩
    rw [List.append_nil] at hq hv
    exact ⟨hn, (i, k), q, rfl, hq, hv⟩
  · rintro ⟨hn, ⟨_, k⟩, path, rfl, hlen, hv⟩
    refine ⟨k, k.isLt, hn, path, ?_, ?_⟩
    · rwa [List.append_nil]
    · rwa [List.append_nil]

theorem Zoned.drops (h : Zoned z zone) (hf : z.Frees (Owned z zone i) z')
    (hgone : ∀ k < 9, zone' i k = 0) (hkept : ∀ i', i' ≠ i → zone' i' = zone i') :
    Drops depth (forest z zone) (forest z' zone') (fun r => r.1 = i) where
  distinct := h.distinct
  top_gone := by
    rintro ⟨_, k⟩ rfl
    exact hgone k k.isLt
  top_kept r hr := congrFun (hkept r.1 hr) r.2
  ent b k hb := by
    have hnot : ¬Owned z zone i b := fun ho => by
      obtain ⟨-, r, path, hr, hlen, hv⟩ := owned_iff.mp ho
      exact hb r path hr hlen hv
    change entry (z'.block b) k = entry (z.block b) k
    rw [hf.block b hnot]

theorem Zoned.shrinks (h : Zoned z zone) (hf : z.Frees (Owned z zone i) z')
    (hgone : ∀ k < 9, zone' i k = 0) (hkept : ∀ i', i' ≠ i → zone' i' = zone i') :
    Shrinks z zone i z' zone' := by
  have hdrops := h.drops hf hgone hkept
  have hnot : ∀ n, n ≠ 0 → Points depth (forest z' zone') n →
      Points depth (forest z zone) n ∧ ¬Owned z zone i n := by
    intro n hn hp
    obtain ⟨hp', hfree⟩ := (hdrops.points_iff hn).mp hp
    refine ⟨hp', fun ho => ?_⟩
    obtain ⟨-, r, path, hr, hlen, hv⟩ := owned_iff.mp ho
    exact hfree r path hr hlen hv
  refine ⟨hf.sb, ⟨hf.reserved h.reserved, fun n hn hfree => ?_, fun n hn hp => ?_,
    hdrops.distinct_after, fun n hn hp => ?_⟩, fun hidle => ?_, fun hidle he n hn hu => ?_, hkept,
    fun k path => ?_, fun r path hr hlen => ?_⟩
  · rw [Zones.IsData.congr hf.sb] at hn
    have hcount : z.count n = 0 := by
      rw [← Bool.not_eq_true, hf.used n hn, not_and_or, not_not, Bool.not_eq_true] at hfree
      rcases hfree with hfree | hfree
      · exact h.unheld n hn hfree
      · exact hfree.2
    exact (hf.count n fun _ => hcount).trans hcount
  · exact (Zones.IsData.congr hf.sb).mpr (h.range n hn (hnot n hn hp).1)
  · obtain ⟨hp', ho⟩ := hnot n hn hp
    exact (hf.used n (h.range n hn hp')).mpr ⟨h.used n hn hp', fun ho' => ho ho'.1⟩
  · funext n
    exact hf.count n (hidle n)
  · rw [Zones.IsData.congr hf.sb] at hn
    obtain ⟨hused, hfree⟩ := (hf.used n hn).mp hu
    refine (hdrops.points_iff hn.ne_zero).mpr ⟨he n hn hused, fun r path hr hlen hv => ?_⟩
    have ho := owned_iff.mpr ⟨hn.ne_zero, r, path, hr, hlen, hv⟩
    exact hfree ⟨ho, hidle n ho⟩
  · funext off
    have hv : (forest z' zone').value (i, k) path = 0 := hdrops.value_gone rfl
    unfold Fs.content
    rw [if_pos hv]
    rfl
  · funext off
    unfold Fs.content
    rw [hdrops.value_kept hr hlen]
    by_cases h0 : (forest z zone).value r path = 0
    · rw [if_pos h0, if_pos h0]
    · rw [if_neg h0, if_neg h0, hf.block]
      intro ho
      obtain ⟨-, r', path', hr', hlen', hv⟩ := owned_iff.mp ho
      obtain ⟨rfl, -⟩ := h.distinct r path r' path' hlen hlen' h0 hv.symm
      exact hr hr'

end Shrinks

end Linux001.Fs
