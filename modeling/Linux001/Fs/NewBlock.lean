import Linux001.Fs.ZoneMap

/-! `new_block` and `free_block` of `fs/bitmap.c` with the flags of the buffers: the buffers of the
zone bitmaps, and the buffers of the zones in the cache. -/

namespace Linux001.Fs

open Function ProofKit

structure MapBuffer where
  bData : Bitmap
  bDirt : Bool

structure BufferHead where
  bData : Block
  bUptodate : Bool
  bDirt : Bool
  bCount : Nat

/-- A mounted device: the super block with its `s_zmap`, and the cache. -/
structure Device where
  sb : SuperBlock
  sZmap : Nat → Option MapBuffer
  cache : Nat → Option BufferHead

/-- The unused buffer of `getblk`, the bytes there, and whether it wrote first. -/
structure Reuse where
  victim : Option Nat
  bytes : Block
  synced : Bool

abbrev DeviceM := EStateM Panic Device

namespace Device

def setMap (d : Device) (i : Nat) (b : MapBuffer) : Device :=
  { d with sZmap := update d.sZmap i (some b) }

def setBuffer (d : Device) (n : Nat) (bh : BufferHead) : Device :=
  { d with cache := update d.cache n (some bh) }

def syncDev (d : Device) : Device :=
  { d with
    sZmap := fun i => (d.sZmap i).map fun b => { b with bDirt := false }
    cache := fun n => (d.cache n).map fun bh => { bh with bDirt := false } }

def evict (d : Device) : Option Nat → Device
  | none => d
  | some n =>
    match d.cache n with
    | some bh => if bh.bCount = 0 then { d with cache := update d.cache n none } else d
    | none => d

def getblk (d : Device) (r : Reuse) (block : Nat) : BufferHead × Device :=
  match d.cache block with
  | some bh => ({ bh with bCount := bh.bCount + 1 }, d)
  | none => (⟨r.bytes, false, false, 1⟩, (if r.synced then d.syncDev else d).evict r.victim)

def maps (d : Device) (i : Nat) : Option Bitmap := (d.sZmap i).map MapBuffer.bData

def newBlock (r : Reuse) : DeviceM Nat := do
  let d ← get
  match firstZero d.maps with
  | none => pure 0
  | some (i, j, p) =>
    let s := setBit j p
    if s.1 then throw .blockAlreadySet
    else
      let d := d.setMap i ⟨s.2, true⟩
      let j := j + i * 8192 + (d.sb.sFirstdatazone - 1)
      if d.sb.sNzones ≤ j then
        set d
        pure 0
      else
        let (bh, d) := d.getblk r j
        if bh.bCount ≠ 1 then throw .newBlockCount
        else
          -- `brelse` gives the reference back.
          set (d.setBuffer j ⟨clearBlock, true, true, bh.bCount - 1⟩)
          pure j

def nr (d : Device) (n : Nat) : Nat := n - (d.sb.sFirstdatazone - 1)

/-- The second half of `free_block`: the bit of the zone is cleared. -/
def clearZone (block : Nat) : DeviceM Unit := do
  let d ← get
  match d.sZmap (d.nr block / 8192) with
  | none => throw .nullPointer
  | some b =>
    let r := clearBit (d.nr block % 8192) b.bData
    if r.1 then throw .blockAlreadyCleared else set (d.setMap (d.nr block / 8192) ⟨r.2, true⟩)

/-- `free_block`. A reference is given back only if it is the only one. -/
def freeBlock (block : Nat) : DeviceM Unit := do
  let d ← get
  if block < d.sb.sFirstdatazone ∨ d.sb.sNzones ≤ block then throw .notInDatazone
  else
    match d.cache block with
    | none => clearZone block
    | some bh =>
      if bh.bCount + 1 ≠ 1 then set (d.setBuffer block { bh with bCount := bh.bCount + 1 })
      else
        set (d.setBuffer block { bh with bDirt := false, bUptodate := false })
        clearZone block

def IsData (d : Device) (n : Nat) : Prop := d.sb.sFirstdatazone ≤ n ∧ n < d.sb.sNzones

def bit (d : Device) (k : Nat) : Option Bool :=
  (d.maps (k / 8192)).map fun p => p.bit (k % 8192)

/-- 1 to 8 bitmap blocks with a bit for every zone; bit 0 is set. -/
structure Covered (d : Device) : Prop where
  pos : 1 ≤ d.sb.sZmapBlocks
  le : d.sb.sZmapBlocks ≤ 8
  present : ∀ i, (d.sZmap i).isSome ↔ i < d.sb.sZmapBlocks
  zones : ∀ n, d.IsData n → d.nr n < d.sb.sZmapBlocks * 8192
  reserved : d.bit 0 = some true

structure LeastFree (d : Device) (n : Nat) : Prop where
  data : d.IsData n
  free : d.bit (d.nr n) = some false
  least : ∀ m, d.IsData m → d.bit (d.nr m) = some false → n ≤ m

/-- `new_block` allocates the zone `n`, and `free_block` of it takes that back. -/
structure Allocated (d : Device) (n : Nat) (d' : Device) : Prop where
  bit : d'.bit (d.nr n) = some true
  others : ∀ k, k ≠ d.nr n → d'.bit k = d.bit k
  buffer : d'.cache n = some ⟨clearBlock, true, true, 0⟩
  undone : Returns (freeBlock n) d' fun _ d'' => ∀ k, d''.bit k = d.bit k

/-- The least free zone is allocated, or there is none and nothing changes. -/
def Exact (d : Device) : Prop :=
  ∀ r : Reuse,
    (∀ n, d.LeastFree n → Returns (newBlock r) d fun j d' => j = n ∧ d.Allocated n d') ∧
      ((∀ n, ¬d.LeastFree n) → Returns (newBlock r) d fun j d' =>
        j = 0 ∧ (∀ k, d'.bit k = d.bit k) ∧
          (∀ i, (d'.sZmap i).map MapBuffer.bDirt = (d.sZmap i).map MapBuffer.bDirt) ∧
          ∀ n, (d'.cache n).map BufferHead.bDirt = (d.cache n).map BufferHead.bDirt)

def Unused (d : Device) (n : Nat) : Prop := ∀ bh, d.cache n = some bh → bh.bCount = 0

/-- No bit of the bitmaps is clear, behind the last zone either. -/
def AllSet (d : Device) : Prop := ∀ k, d.bit k ≠ some false

variable {d : Device} {r : Reuse} {i j k n : Nat} {p : Bitmap}

def zone (d : Device) (i j : Nat) : Nat := j + i * 8192 + (d.sb.sFirstdatazone - 1)

section Bits

theorem nr_zone : d.nr (d.zone i j) = j + i * 8192 := by
  unfold nr zone
  omega

theorem bit_of_maps (h : d.maps i = some p) (hj : j < 8192) :
    d.bit (j + i * 8192) = some (p.bit j) := by
  have hdiv : (j + i * 8192) / 8192 = i := by omega
  have hmod : (j + i * 8192) % 8192 = j := by omega
  rw [bit, hdiv, hmod, h, Option.map_some]

theorem maps_setMap {b : MapBuffer} : (d.setMap i b).maps = update d.maps i (some b.bData) := by
  funext k
  by_cases hk : k = i
  · simp [maps, setMap, hk]
  · simp [maps, setMap, hk]

theorem bit_setMap {q : Bitmap} {dirt : Bool} (h : d.maps i = some p)
    (hq : ∀ m, m ≠ j → q.bit m = p.bit m) (hk : k ≠ j + i * 8192) :
    (d.setMap i ⟨q, dirt⟩).bit k = d.bit k := by
  rw [bit, bit, maps_setMap]
  by_cases hi : k / 8192 = i
  · have hne : k % 8192 ≠ j := by omega
    rw [hi, update_self, h, Option.map_some, Option.map_some, hq _ hne]
  · rw [update_of_ne hi]

theorem maps_syncDev : d.syncDev.maps = d.maps := by
  funext i
  simp [maps, syncDev, Option.map_map, Function.comp_def]

theorem sZmap_evict (v : Option Nat) : (d.evict v).sZmap = d.sZmap := by
  unfold evict
  split
  · rfl
  · split
    · split <;> rfl
    · rfl

theorem sb_evict (v : Option Nat) : (d.evict v).sb = d.sb := by
  unfold evict
  split
  · rfl
  · split
    · split <;> rfl
    · rfl

theorem maps_getblk : (d.getblk r n).2.maps = d.maps := by
  unfold getblk
  split
  · rfl
  have hevict : ∀ e : Device, (e.evict r.victim).maps = e.maps := fun e => by
    funext i
    rw [maps, maps, sZmap_evict]
  rw [hevict]
  split
  · exact maps_syncDev
  · rfl

theorem sb_getblk : (d.getblk r n).2.sb = d.sb := by
  unfold getblk
  split
  · rfl
  · rw [sb_evict]
    split <;> rfl

end Bits

section NewBlock

theorem getblk_bCount (h : d.Unused n) : (d.getblk r n).1.bCount = 1 := by
  unfold getblk
  split
  · rename_i bh hbh
    rw [h bh hbh]
  · rfl

theorem getblk_bCount_ne (h : ¬d.Unused n) : (d.getblk r n).1.bCount ≠ 1 := by
  unfold getblk
  split
  · rename_i bh hbh
    intro hcount
    refine h fun bh' hbh' => ?_
    cases hbh.symm.trans hbh'
    simpa using hcount
  · rename_i hnone
    exact absurd (fun bh hbh => by cases hnone.symm.trans hbh) h

theorem newBlock_of_none (h : firstZero d.maps = none) : newBlock r d = .ok 0 d := by
  unfold newBlock
  rw [get_bind, h]
  rfl

def marked (d : Device) (i j : Nat) (p : Bitmap) : Device := d.setMap i ⟨(setBit j p).2, true⟩

def given (d : Device) (r : Reuse) (n : Nat) : Device :=
  (d.getblk r n).2.setBuffer n ⟨clearBlock, true, true, 0⟩

section
variable (h : firstZero d.maps = some (i, j, p))
include h

theorem newBlock_of_some :
    newBlock r d =
      if d.sb.sNzones ≤ d.zone i j then .ok 0 (d.marked i j p)
      else if ((d.marked i j p).getblk r (d.zone i j)).1.bCount ≠ 1 then .error .newBlockCount d
      else .ok (d.zone i j) ((d.marked i j p).given r (d.zone i j)) := by
  obtain ⟨-, -, -, hbit, -, -⟩ := firstZero_eq_some h
  have hset : (setBit j p).1 = false := setBit_fst.trans hbit
  unfold newBlock
  rw [get_bind, h]
  dsimp only
  rw [hset, if_neg Bool.false_ne_true]
  change (if d.sb.sNzones ≤ d.zone i j then _
    else if ((d.marked i j p).getblk r (d.zone i j)).1.bCount ≠ 1 then _ else _ : DeviceM Nat) d = _
  split
  · rfl
  split
  · rfl
  · rename_i hcount
    change EStateM.Result.ok (d.zone i j) (((d.marked i j p).getblk r (d.zone i j)).2.setBuffer
      (d.zone i j) ⟨clearBlock, true, true,
        ((d.marked i j p).getblk r (d.zone i j)).1.bCount - 1⟩) = _
    rw [not_not.mp hcount]
    rfl

theorem newBlock_of_behind
    (hbehind : d.sb.sNzones ≤ d.zone i j) : newBlock r d = .ok 0 (d.marked i j p) := by
  rw [newBlock_of_some h, if_pos hbehind]

theorem newBlock_of_zone (hzone : d.zone i j < d.sb.sNzones) (hu : d.Unused (d.zone i j)) :
    newBlock r d = .ok (d.zone i j) ((d.marked i j p).given r (d.zone i j)) := by
  have hcount : ((d.marked i j p).getblk r (d.zone i j)).1.bCount = 1 := getblk_bCount hu
  rw [newBlock_of_some h, if_neg (Nat.not_le.mpr hzone), if_neg (not_not_intro hcount)]

theorem newBlock_of_held (hzone : d.zone i j < d.sb.sNzones) (hu : ¬d.Unused (d.zone i j)) :
    newBlock r d = .error .newBlockCount d := by
  have hcount : ((d.marked i j p).getblk r (d.zone i j)).1.bCount ≠ 1 := getblk_bCount_ne hu
  rw [newBlock_of_some h, if_neg (Nat.not_le.mpr hzone), if_pos hcount]

theorem bit_of_lt_firstZero (hk : k < j + i * 8192) :
    d.bit k ≠ some false := by
  intro hfree
  obtain ⟨-, hj, hp, -, hlow, hfull⟩ := firstZero_eq_some h
  obtain ⟨q, hq, hqbit⟩ := Option.map_eq_some_iff.mp hfree
  by_cases hdiv : k / 8192 = i
  · rw [hdiv, hp] at hq
    cases hq
    rw [hlow _ (by omega)] at hqbit
    cases hqbit
  · rw [hfull _ (by omega) q hq _ (Nat.mod_lt _ (by decide))] at hqbit
    cases hqbit

theorem bit_firstZero :
    d.bit (j + i * 8192) = some false := by
  obtain ⟨-, hj, hp, hbit, -, -⟩ := firstZero_eq_some h
  rw [bit_of_maps hp hj, hbit]

end

theorem leastFree_of_firstZero (hc : d.Covered) (h : firstZero d.maps = some (i, j, p))
    (hzone : d.zone i j < d.sb.sNzones) : d.LeastFree (d.zone i j) := by
  have hpos : j + i * 8192 ≠ 0 := by
    intro hzero
    have hbit := bit_firstZero h
    rw [hzero, hc.reserved] at hbit
    cases hbit
  refine ⟨⟨by unfold zone; omega, hzone⟩, nr_zone ▸ bit_firstZero h, fun m hm hfree => ?_⟩
  by_contra hlt
  refine bit_of_lt_firstZero h ?_ hfree
  unfold zone at hlt
  unfold nr
  omega

theorem not_leastFree_of_behind (h : firstZero d.maps = some (i, j, p))
    (hbehind : d.sb.sNzones ≤ d.zone i j) : ¬d.LeastFree n := by
  intro hn
  refine bit_of_lt_firstZero h ?_ hn.free
  have := hn.data.1
  have := hn.data.2
  unfold zone at hbehind
  unfold nr
  omega

theorem allSet_of_none (hc : d.Covered) (h : firstZero d.maps = none) : d.AllSet := by
  intro k hk
  obtain ⟨p, hp, hbit⟩ := Option.map_eq_some_iff.mp hk
  have hsome : (d.sZmap (k / 8192)).isSome := by
    rw [maps, Option.map_eq_some_iff] at hp
    obtain ⟨b, hb, -⟩ := hp
    rw [hb]
    rfl
  have hlt : k / 8192 < 8 := Nat.lt_of_lt_of_le ((hc.present _).mp hsome) hc.le
  rw [firstZero_eq_none h hlt hp (Nat.mod_lt _ (by decide))] at hbit
  cases hbit

theorem LeastFree.unique {m : Nat} (hn : d.LeastFree n) (hm : d.LeastFree m) : n = m :=
  Nat.le_antisymm (hn.least m hm.data hm.free) (hm.least n hn.data hn.free)

end NewBlock

section Undo

theorem maps_given : (d.given r n).maps = d.maps := maps_getblk

theorem bit_given : (d.given r n).bit k = d.bit k := by
  rw [bit, maps_given, bit]

theorem sb_given : (d.given r n).sb = d.sb := sb_getblk

theorem cache_given : (d.given r n).cache n = some ⟨clearBlock, true, true, 0⟩ := update_self ..

theorem bit_marked_self (hj : j < 8192) :
    (d.marked i j p).bit (j + i * 8192) = some true := by
  have hmaps : (d.marked i j p).maps i = some (setBit j p).2 := by
    rw [marked, maps_setMap, update_self]
  rw [bit_of_maps hmaps hj, bit_setBit, decide_eq_true rfl, Bool.true_or]

theorem bit_marked_of_ne (hp : d.maps i = some p) (hk : k ≠ j + i * 8192) :
    (d.marked i j p).bit k = d.bit k := by
  refine bit_setMap hp (fun m hm => ?_) hk
  rw [bit_setBit, decide_eq_false hm, Bool.false_or]

theorem clearZone_returns (hbit : d.bit (d.nr n) = some true) :
    Returns (clearZone n) d fun _ d' =>
      d'.bit (d.nr n) = some false ∧ ∀ k, k ≠ d.nr n → d'.bit k = d.bit k := by
  obtain ⟨p, hp, hpbit⟩ := Option.map_eq_some_iff.mp hbit
  obtain ⟨b, hb, rfl⟩ := Option.map_eq_some_iff.mp hp
  have hlt : d.nr n % 8192 < 8192 := Nat.mod_lt _ (by decide)
  have hsplit : d.nr n % 8192 + d.nr n / 8192 * 8192 = d.nr n := by omega
  have hset : (clearBit (d.nr n % 8192) b.bData).1 = false := by
    rw [clearBit_fst, hpbit]
    rfl
  have hmaps : (d.setMap (d.nr n / 8192) ⟨(clearBit (d.nr n % 8192) b.bData).2, true⟩).maps
      (d.nr n / 8192) = some (clearBit (d.nr n % 8192) b.bData).2 := by
    rw [maps_setMap, update_self]
  unfold clearZone
  rw [returns_bind, returns_get]
  rw [hb]
  refine returns_ite.mpr ⟨fun hcon => ?_, fun _ => returns_set.mpr ⟨?_, fun k hk => ?_⟩⟩
  · exact absurd (hset.symm.trans hcon) Bool.false_ne_true
  · have hself := bit_of_maps hmaps hlt
    rw [hsplit, bit_clearBit] at hself
    simpa using hself
  · refine bit_setMap hp (fun m hm => ?_) (hsplit.symm ▸ hk)
    rw [bit_clearBit, decide_eq_true hm, Bool.true_and]

theorem freeBlock_returns (hn : d.IsData n) (hbit : d.bit (d.nr n) = some true)
    (hu : d.Unused n) : Returns (freeBlock n) d fun _ d' =>
      d'.bit (d.nr n) = some false ∧ ∀ k, k ≠ d.nr n → d'.bit k = d.bit k := by
  have hrange : ¬(n < d.sb.sFirstdatazone ∨ d.sb.sNzones ≤ n) := by
    have := hn.1
    have := hn.2
    omega
  unfold freeBlock
  rw [returns_bind, returns_get, if_neg hrange]
  cases hcache : d.cache n with
  | none => exact clearZone_returns hbit
  | some bh =>
    dsimp only
    rw [hu bh hcache, if_neg (by decide), returns_bind, returns_set]
    exact clearZone_returns (d := d.setBuffer n _) hbit

/-- The zone that is given can be taken back by `free_block`. -/
theorem allocated_given (hn : d.IsData (d.zone i j)) (hp : d.maps i = some p) (hj : j < 8192)
    (hbit : p.bit j = false) :
    d.Allocated (d.zone i j) ((d.marked i j p).given r (d.zone i j)) := by
  have hself : ((d.marked i j p).given r (d.zone i j)).bit (d.nr (d.zone i j)) = some true := by
    rw [bit_given, nr_zone, bit_marked_self hj]
  have hothers : ∀ k, k ≠ d.nr (d.zone i j) →
      ((d.marked i j p).given r (d.zone i j)).bit k = d.bit k := by
    intro k hk
    rw [bit_given]
    exact bit_marked_of_ne hp (nr_zone ▸ hk)
  have hsb : ((d.marked i j p).given r (d.zone i j)).sb = d.sb := sb_given
  refine ⟨hself, hothers, cache_given, ?_⟩
  have hnr : ∀ n, ((d.marked i j p).given r (d.zone i j)).nr n = d.nr n := fun n => by
    rw [nr, hsb, nr]
  have hdata : ((d.marked i j p).given r (d.zone i j)).IsData (d.zone i j) := by
    rw [IsData, hsb]
    exact hn
  have hunused : ((d.marked i j p).given r (d.zone i j)).Unused (d.zone i j) := by
    intro bh hbh
    cases cache_given.symm.trans hbh
    rfl
  refine (freeBlock_returns hdata (by rw [hnr]; exact hself) hunused).imp ?_
  rintro - d'' ⟨hclear, hrest⟩ k
  rw [hnr] at hclear hrest
  by_cases hk : k = d.nr (d.zone i j)
  · rw [hk, hclear, nr_zone, bit_of_maps hp hj, hbit]
  · rw [hrest k hk, hothers k hk]

end Undo

/-- `new_block` allocates the least free zone exactly when that has no buffer in use or no bit is
clear. -/
theorem newBlock_exact_iff (hc : d.Covered) :
    d.Exact ↔ (∃ n, d.LeastFree n ∧ d.Unused n) ∨ d.AllSet := by
  cases h : firstZero d.maps with
  | none =>
    have hset := allSet_of_none hc h
    refine iff_of_true (fun r => ⟨fun n hn => absurd hn.free (hset _), fun _ => ?_⟩) (.inr hset)
    rw [returns_of_eq (newBlock_of_none h)]
    exact ⟨rfl, fun _ => rfl, fun _ => rfl, fun _ => rfl⟩
  | some x =>
    obtain ⟨i, j, p⟩ := x
    obtain ⟨-, hj, hp, hbit, -, -⟩ := firstZero_eq_some h
    have hnot : ¬d.AllSet := fun hset => hset _ (bit_firstZero h)
    by_cases hzone : d.zone i j < d.sb.sNzones
    · have hleast := leastFree_of_firstZero hc h hzone
      by_cases hu : d.Unused (d.zone i j)
      · refine iff_of_true (fun r => ⟨fun n hn => ?_, fun hnone => absurd hleast (hnone _)⟩)
          (.inl ⟨_, hleast, hu⟩)
        rw [returns_of_eq (newBlock_of_zone h hzone hu), hn.unique hleast]
        exact ⟨rfl, allocated_given hleast.data hp hj hbit⟩
      · refine iff_of_false (fun hexact => ?_) ?_
        · obtain ⟨n, d', heq, -⟩ := (hexact ⟨none, clearBlock, false⟩).1 _ hleast
          cases (newBlock_of_held h hzone hu).symm.trans heq
        · rintro (⟨n, hn, hun⟩ | hset)
          · exact hu (hn.unique hleast ▸ hun)
          · exact hnot hset
    · -- The bit behind the last zone is set, and the result is 0.
      have hbehind := Nat.not_lt.mp hzone
      refine iff_of_false (fun hexact => ?_) ?_
      · have hret := (hexact ⟨none, clearBlock, false⟩).2 fun n =>
          not_leastFree_of_behind h hbehind
        rw [returns_of_eq (newBlock_of_behind h hbehind)] at hret
        have hsame := hret.2.1 (j + i * 8192)
        rw [bit_marked_self hj, bit_firstZero h] at hsame
        cases hsame
      · rintro (⟨n, hn, -⟩ | hset)
        · exact not_leastFree_of_behind h hbehind hn
        · exact hnot hset

/-- Five blocks before the only zone, which is in use; later bits are clear. -/
def full : Device where
  sb := oneZone
  sZmap i := if i = 0 then some ⟨fun w => if w = 0 then 3 else 0, false⟩ else none
  cache _ := none

theorem full_covered : full.Covered := by
  refine ⟨by decide, by decide, fun i => ?_, ?_, rfl⟩
  · by_cases hi : i = 0 <;> simp [full, oneZone, hi]
  · rintro n ⟨hfirst, hlast⟩
    change n - 4 < 8192
    change n < 6 at hlast
    omega

/-- The statement at a device without a free zone. -/
theorem newBlock_exact_iff_full :
    full.Covered ∧ (full.Exact ↔ (∃ n, full.LeastFree n ∧ full.Unused n) ∨ full.AllSet) :=
  ⟨full_covered, newBlock_exact_iff full_covered⟩

/-- `new_block` returns 0 for a full device and sets a bit behind the zones. -/
theorem full_not_exact : ¬full.Exact := by
  intro h
  have hnone : ∀ n, ¬full.LeastFree n := by
    rintro n ⟨⟨hfirst, hlast⟩, hfree, -⟩
    obtain rfl : n = 5 := by
      change 5 ≤ n at hfirst
      change n < 6 at hlast
      omega
    exact absurd hfree (by decide)
  obtain ⟨n, d', hrun, -, hsame, -⟩ := (h ⟨none, clearBlock, false⟩).2 hnone
  have hbit := hsame 2
  cases hrun
  revert hbit
  decide

end Device

end Linux001.Fs
