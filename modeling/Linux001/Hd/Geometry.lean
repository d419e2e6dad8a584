import Linux001.Hd.Driver

/-! From block numbers to cylinders, heads and sectors: `rw_hd` of `kernel/hd.c`, and the tables it
reads, as `hd_init` and `sys_setup` fill them.  The integers have the widths of the source. -/

namespace Linux001.Hd

open Function

def maxHd : Nat := 2

/-- The fields of `struct hd_i_struct` that give the size of a drive. -/
structure HdInfo where
  head : Int32
  sect : Int32
  cyl : Int32

structure HdStruct where
  startSect : Int64
  nrSects : Int64

/-- `hd_info` with `NR_HD`, and `hd`: each drive, then its four partitions. -/
structure Drives where
  nrHd : Nat
  hdInfo : Nat → HdInfo
  hd : Nat → HdStruct
  nrHd_le : nrHd ≤ maxHd

structure BlockId where
  bDev : UInt16
  bBlocknr : UInt16
  deriving DecidableEq

structure Call where
  cmd : Cmd
  nr : UInt32
  sec : UInt32
  head : UInt32
  cyl : UInt32
  bh : Nat
  deriving DecidableEq

inductive DivideError
  | divideError
  deriving DecidableEq

/-- `divl` with zero in `%edx`: the quotient and the remainder. -/
def divl (eax divisor : UInt32) : Except DivideError (UInt32 × UInt32) :=
  if divisor = 0 then .error .divideError else .ok (eax / divisor, eax % divisor)

def BlockId.minor (b : BlockId) : UInt32 := (b.bDev &&& 0xff).toUInt32

def toLong (x : UInt32) : Int64 := x.toUInt64.toInt64

def rwHd (d : Drives) (cmd : Cmd) (bh : Nat) (b : BlockId) : Except DivideError (Option Call) := do
  let block : UInt32 := b.bBlocknr.toUInt32 <<< 1
  let dev := b.minor
  if dev.toNat ≥ 5 * d.nrHd ∨ toLong (block + 2) > (d.hd dev.toNat).nrSects then
    return none
  let block := (toLong block + (d.hd dev.toNat).startSect).toUInt64.toUInt32
  let dev := dev / 5
  let (block, sec) ← divl block (d.hdInfo dev.toNat).sect.toUInt32
  let (cyl, head) ← divl block (d.hdInfo dev.toNat).head.toUInt32
  return some ⟨cmd, dev, sec + 1, head, cyl, bh⟩

def hdInit (d : Drives) : Drives :=
  { d with
    hd := (List.range d.nrHd).foldl (fun hd i =>
      let p := d.hdInfo i
      update hd (i * 5) ⟨0, (p.head * p.sect * p.cyl).toInt64⟩) d.hd }

def wordAt (data : Sector) (k : Nat) : UInt32 :=
  let byte (i : Nat) : UInt32 := (data (Fin.ofNat 512 (k + i))).toUInt32
  byte 0 ||| byte 1 <<< 8 ||| byte 2 <<< 16 ||| byte 3 <<< 24

def partitionAt (data : Sector) (i : Nat) : HdStruct :=
  ⟨toLong (wordAt data (0x1BE + 16 * i + 8)), toLong (wordAt data (0x1BE + 16 * i + 12))⟩

inductive SetupPanic
  | unableToRead (drive : Nat)
  | badPartitionTable (drive : Nat)
  deriving DecidableEq

/-- The loop body of `sys_setup`; `first` are the first sectors. -/
def setupDrive (first : Nat → Option Sector) (d : Drives) (drive : Nat) :
    Except SetupPanic Drives :=
  match first drive with
  | none => .error (.unableToRead drive)
  | some data =>
    if data 510 ≠ 0x55 ∨ data 511 ≠ 0xAA then .error (.badPartitionTable drive)
    else .ok { d with
      hd := (List.range 4).foldl (fun hd i => update hd (i + 1 + 5 * drive) (partitionAt data i))
        d.hd }

def sysSetup (d : Drives) (first : Nat → Option Sector) : Except SetupPanic Drives :=
  (List.range d.nrHd).foldlM (setupDrive first) d

namespace Drives

def size (d : Drives) (i : Nat) : Int :=
  (d.hdInfo i).head.toInt * (d.hdInfo i).sect.toInt * (d.hdInfo i).cyl.toInt

def partition (d : Drives) (minor : Nat) : Set (Nat × Int) :=
  {p | p.1 = minor / 5 ∧ (d.hd minor).startSect.toInt ≤ p.2 ∧
    p.2 < (d.hd minor).startSect.toInt + (d.hd minor).nrSects.toInt}

def Inside (d : Drives) (minor : Nat) : Prop :=
  0 ≤ (d.hd minor).startSect.toInt ∧
    (d.hd minor).startSect.toInt + (d.hd minor).nrSects.toInt ≤ d.size (minor / 5)

def firstSector (d : Drives) (b : BlockId) : Int :=
  (d.hd b.minor.toNat).startSect.toInt + 2 * b.bBlocknr.toNat

def blockSectors (d : Drives) (b : BlockId) : Set (Nat × Int) :=
  {(b.minor.toNat / 5, d.firstSector b), (b.minor.toNat / 5, d.firstSector b + 1)}

/-- The minor number is one of a partition, and the block lies in it. -/
def Has (d : Drives) (b : BlockId) : Prop :=
  b.minor.toNat < 5 * d.nrHd ∧ d.blockSectors b ⊆ d.partition b.minor.toNat

def sectorOf (d : Drives) (q : Call) : Int :=
  (q.cyl.toNat * (d.hdInfo q.nr.toNat).head.toInt + q.head.toNat) *
    (d.hdInfo q.nr.toNat).sect.toInt + q.sec.toNat - 1

def callSectors (d : Drives) (q : Call) : Set (Nat × Int) :=
  {(q.nr.toNat, d.sectorOf q), (q.nr.toNat, d.sectorOf q + 1)}

/-- The call is one for the block, with its cylinder, head and sector. -/
structure Maps (d : Drives) (cmd : Cmd) (bh : Nat) (b : BlockId) (q : Call) : Prop where
  cmd : q.cmd = cmd
  bh : q.bh = bh
  nr : q.nr.toNat = b.minor.toNat / 5
  sec_pos : 1 ≤ q.sec.toNat
  sec_le : (q.sec.toNat : Int) ≤ (d.hdInfo q.nr.toNat).sect.toInt
  head_lt : (q.head.toNat : Int) < (d.hdInfo q.nr.toNat).head.toInt
  cyl_lt : (q.cyl.toNat : Int) < (d.hdInfo q.nr.toNat).cyl.toInt
  sector : d.sectorOf q = d.firstSector b

structure WellFormed (d : Drives) : Prop where
  head_pos : ∀ i < d.nrHd, 0 < (d.hdInfo i).head.toInt
  sect_pos : ∀ i < d.nrHd, 0 < (d.hdInfo i).sect.toInt
  inside : ∀ minor < 5 * d.nrHd, d.Inside minor

end Drives

theorem toInt_toLong (x : UInt32) : (toLong x).toInt = x.toNat := by
  have hlt := x.toNat_lt
  have heq : (toLong x).toBitVec.toNat = x.toNat := UInt32.toNat_toUInt64 x
  rw [← Int64.toInt_toBitVec, BitVec.toInt_eq_toNat_cond, heq]
  omega

theorem toNat_truncate {x : Int64} (hlow : 0 ≤ x.toInt) (hhigh : x.toInt < 2 ^ 32) :
    (x.toUInt64.toUInt32.toNat : Int) = x.toInt := by
  have heq : x.toUInt64.toNat = x.toBitVec.toNat := rfl
  rw [← Int64.toInt_toBitVec, BitVec.toInt_eq_toNat_cond] at hlow hhigh ⊢
  rw [UInt64.toNat_toUInt32, heq]
  omega

theorem toNat_toUInt32_of_pos {x : Int32} (h : 0 < x.toInt) :
    (x.toUInt32.toNat : Int) = x.toInt := by
  have heq : x.toUInt32.toNat = x.toBitVec.toNat := rfl
  rw [← Int32.toInt_toBitVec, BitVec.toInt_eq_toNat_cond] at h ⊢
  omega

theorem toNat_doubled (x : UInt16) : (x.toUInt32 <<< 1).toNat = 2 * x.toNat := by
  have hlt := x.toNat_lt
  rw [UInt32.toNat_shiftLeft, UInt16.toNat_toUInt32]
  simp only [UInt32.reduceToNat, Nat.one_mod, Nat.shiftLeft_eq, Nat.pow_one]
  omega

theorem toNat_doubled_add_two (x : UInt16) : (x.toUInt32 <<< 1 + 2).toNat = 2 * x.toNat + 2 := by
  have hlt := x.toNat_lt
  rw [UInt32.toNat_add, toNat_doubled]
  simp only [UInt32.reduceToNat]
  omega

theorem sector_recombines (n sects heads : Nat) :
    (n / sects / heads * heads + n / sects % heads) * sects + n % sects = n := by
  rw [Nat.div_add_mod', Nat.div_add_mod']

theorem cylinder_lt {n sects heads cyls : Nat} (h : n < heads * sects * cyls) :
    n / sects / heads < cyls := by
  rw [Nat.div_div_eq_div_mul]
  apply Nat.div_lt_of_lt_mul
  rwa [Nat.mul_comm sects heads]

namespace Drives

variable {d : Drives} {cmd : Cmd} {bh : Nat} {b : BlockId} {q : Call}

theorem has_iff : d.Has b ↔ b.minor.toNat < 5 * d.nrHd ∧
    (2 * b.bBlocknr.toNat + 2 : Int) ≤ (d.hd b.minor.toNat).nrSects.toInt := by
  refine and_congr_right fun _ => ⟨fun h => ?_, fun h p hp => ?_⟩
  · obtain ⟨-, -, hlt⟩ := h (Set.mem_insert_of_mem _ rfl)
    unfold firstSector at hlt
    omega
  · rcases hp with rfl | rfl
    · exact ⟨rfl, by unfold firstSector; omega, by unfold firstSector; omega⟩
    · exact ⟨rfl, by unfold firstSector; omega, by unfold firstSector; omega⟩

theorem refused_iff : (b.minor.toNat ≥ 5 * d.nrHd ∨
    toLong (b.bBlocknr.toUInt32 <<< 1 + 2) > (d.hd b.minor.toNat).nrSects) ↔ ¬d.Has b := by
  have hlong : toLong (b.bBlocknr.toUInt32 <<< 1 + 2) > (d.hd b.minor.toNat).nrSects ↔
      (d.hd b.minor.toNat).nrSects.toInt < 2 * b.bBlocknr.toNat + 2 := by
    rw [gt_iff_lt, Int64.lt_iff_toInt_lt, toInt_toLong, toNat_doubled_add_two]
    rfl
  rw [hlong, has_iff]
  omega

def truncatedSector (d : Drives) (b : BlockId) : UInt32 :=
  (toLong (b.bBlocknr.toUInt32 <<< 1) + (d.hd b.minor.toNat).startSect).toUInt64.toUInt32

theorem toNat_truncatedSector (hstart : 0 ≤ (d.hd b.minor.toNat).startSect.toInt)
    (hlt : d.firstSector b < 2 ^ 32) :
    ((d.truncatedSector b).toNat : Int) = d.firstSector b := by
  have hblock : (toLong (b.bBlocknr.toUInt32 <<< 1)).toInt = 2 * b.bBlocknr.toNat := by
    rw [toInt_toLong, toNat_doubled]
    rfl
  have hfirst : d.firstSector b = (d.hd b.minor.toNat).startSect.toInt + 2 * b.bBlocknr.toNat := rfl
  have hsum : (toLong (b.bBlocknr.toUInt32 <<< 1) + (d.hd b.minor.toNat).startSect).toInt =
      d.firstSector b := by
    rw [Int64.toInt_add, hblock, Int.bmod_eq_of_le (by omega) (by omega), hfirst, Int.add_comm]
  unfold truncatedSector
  rw [toNat_truncate (by omega) (by omega), hsum]

def callFor (d : Drives) (cmd : Cmd) (bh : Nat) (b : BlockId) : Call :=
  let info := d.hdInfo (b.minor / 5).toNat
  let n := d.truncatedSector b
  ⟨cmd, b.minor / 5, n % info.sect.toUInt32 + 1, n / info.sect.toUInt32 % info.head.toUInt32,
    n / info.sect.toUInt32 / info.head.toUInt32, bh⟩

theorem rwHd_of_not_has (h : ¬d.Has b) : rwHd d cmd bh b = .ok none := by
  exact if_pos (refused_iff.mpr h)

theorem divl_of_pos {eax : UInt32} {x : Int32} (h : 0 < x.toInt) :
    divl eax x.toUInt32 = .ok (eax / x.toUInt32, eax % x.toUInt32) := by
  apply if_neg
  intro hzero
  have hnat := toNat_toUInt32_of_pos h
  rw [hzero] at hnat
  have : (0 : UInt32).toNat = 0 := rfl
  omega

theorem rwHd_of_has (h : d.Has b) (hhead : 0 < (d.hdInfo (b.minor / 5).toNat).head.toInt)
    (hsect : 0 < (d.hdInfo (b.minor / 5).toNat).sect.toInt) :
    rwHd d cmd bh b = .ok (some (d.callFor cmd bh b)) := by
  unfold rwHd
  rw [if_neg (refused_iff.not.mpr (not_not.mpr h))]
  simp only [divl_of_pos hhead, divl_of_pos hsect]
  rfl

theorem toNat_drive : (b.minor / 5).toNat = b.minor.toNat / 5 := by
  rfl

theorem toNat_mod_add_one {x y : UInt32} (h : 0 < y.toNat) :
    (x % y + 1).toNat = x.toNat % y.toNat + 1 := by
  have hmod := Nat.mod_lt x.toNat h
  have hlt := y.toNat_lt
  have hone : (1 : UInt32).toNat = 1 := rfl
  rw [UInt32.toNat_add, UInt32.toNat_mod, hone]
  omega

/-- The call for a block is right, if its sector number fits into 32 bits. -/
theorem maps_callFor (h : d.Has b) (hwf : d.WellFormed) (hlt : d.firstSector b < 2 ^ 32) :
    d.Maps cmd bh b (d.callFor cmd bh b) := by
  obtain ⟨hminor, hblock⟩ := has_iff.mp h
  have hdrive : (b.minor / 5).toNat < d.nrHd := by rw [toNat_drive]; omega
  obtain ⟨hstart, hend⟩ := hwf.inside _ hminor
  have hn := toNat_truncatedSector hstart hlt
  have hspos := hwf.sect_pos _ hdrive
  have hhpos := hwf.head_pos _ hdrive
  have hs := toNat_toUInt32_of_pos hspos
  have hh := toNat_toUInt32_of_pos hhpos
  have hsize : d.firstSector b < d.size (b.minor / 5).toNat := by
    rw [toNat_drive]
    unfold firstSector at hlt ⊢
    omega
  have hsec : (d.callFor cmd bh b).sec.toNat = (d.truncatedSector b).toNat %
      (d.hdInfo (b.minor / 5).toNat).sect.toUInt32.toNat + 1 := toNat_mod_add_one (by omega)
  have hhead : (d.callFor cmd bh b).head.toNat = (d.truncatedSector b).toNat /
      (d.hdInfo (b.minor / 5).toNat).sect.toUInt32.toNat %
      (d.hdInfo (b.minor / 5).toNat).head.toUInt32.toNat := UInt32.toNat_mod _ _
  have hcyl : (d.callFor cmd bh b).cyl.toNat = (d.truncatedSector b).toNat /
      (d.hdInfo (b.minor / 5).toNat).sect.toUInt32.toNat /
      (d.hdInfo (b.minor / 5).toNat).head.toUInt32.toNat := UInt32.toNat_div _ _
  have hnr : (d.callFor cmd bh b).nr = b.minor / 5 := rfl
  unfold size at hsize
  refine ⟨rfl, rfl, toNat_drive, ?_, ?_, ?_, ?_, ?_⟩
  · omega
  · rw [hsec, hnr, ← hs]
    exact_mod_cast Nat.succ_le_of_lt (Nat.mod_lt _ (by omega))
  · rw [hhead, hnr, ← hh]
    exact_mod_cast Nat.mod_lt _ (by omega)
  · rw [hcyl, hnr]
    rw [← hs, ← hh, ← hn] at hsize
    -- The product is positive, so the number of cylinders is.
    have hcpos : 0 ≤ (d.hdInfo (b.minor / 5).toNat).cyl.toInt := by
      by_contra hneg
      have hle := Int.mul_nonpos_of_nonneg_of_nonpos
        (Int.natCast_nonneg ((d.hdInfo (b.minor / 5).toNat).head.toUInt32.toNat *
          (d.hdInfo (b.minor / 5).toNat).sect.toUInt32.toNat)) (Int.le_of_lt (not_le.mp hneg))
      push_cast at hle
      omega
    obtain ⟨c, hc⟩ := Int.eq_ofNat_of_zero_le hcpos
    rw [hc] at hsize ⊢
    exact_mod_cast cylinder_lt (by exact_mod_cast hsize)
  · unfold sectorOf
    rw [hsec, hhead, hcyl, hnr, ← hs, ← hh, ← hn]
    have hrec := congrArg Int.ofNat (sector_recombines (d.truncatedSector b).toNat
      (d.hdInfo (b.minor / 5).toNat).sect.toUInt32.toNat
      (d.hdInfo (b.minor / 5).toNat).head.toUInt32.toNat)
    simp only [Int.ofNat_eq_natCast] at hrec
    push_cast at hrec ⊢
    omega

theorem firstSector_lt (h : d.Has b) (hwf : d.WellFormed) :
    d.firstSector b + 1 < d.size (b.minor.toNat / 5) := by
  obtain ⟨hminor, hblock⟩ := has_iff.mp h
  obtain ⟨-, hend⟩ := hwf.inside _ hminor
  unfold firstSector
  omega

theorem Maps.callSectors_eq (h : d.Maps cmd bh b q) : d.callSectors q = d.blockSectors b := by
  unfold callSectors blockSectors
  rw [h.nr, h.sector]

theorem disjoint_blockSectors {b' : BlockId} (hminor : b.minor = b'.minor)
    (hne : b.bBlocknr ≠ b'.bBlocknr) : Disjoint (d.blockSectors b) (d.blockSectors b') := by
  have hne' : b.bBlocknr.toNat ≠ b'.bBlocknr.toNat := fun h => hne (UInt16.toNat_inj.mp h)
  rw [Set.disjoint_left]
  intro p hp hp'
  unfold blockSectors firstSector at hp hp'
  rw [← hminor] at hp'
  rcases hp with rfl | rfl <;> rcases hp' with hp' | hp' <;>
    · have := congrArg Prod.snd hp'
      omega

end Drives

section Setup

variable {d e : Drives} {first : Nat → Option Sector} {n : Nat}

theorem toInt_product {i : Nat} (hlow : 0 ≤ d.size i) (hhigh : d.size i < 2 ^ 31) :
    ((d.hdInfo i).head * (d.hdInfo i).sect * (d.hdInfo i).cyl).toInt64.toInt = d.size i := by
  unfold Drives.size at *
  rw [Int32.toInt_toInt64, Int32.toInt_mul, Int32.toInt_mul, Int.bmod_mul_bmod]
  exact Int.bmod_eq_of_le (by omega) (by omega)

theorem foldl_hdInit (n minor : Nat) :
    ((List.range n).foldl (fun hd i =>
      let p := d.hdInfo i
      update hd (i * 5) ⟨0, (p.head * p.sect * p.cyl).toInt64⟩) d.hd) minor =
    if minor % 5 = 0 ∧ minor / 5 < n then
      let p := d.hdInfo (minor / 5)
      ⟨0, (p.head * p.sect * p.cyl).toInt64⟩
    else d.hd minor := by
  induction n with
  | zero => simp
  | succ n ih =>
    rw [List.range_succ, List.foldl_append, List.foldl_cons, List.foldl_nil]
    by_cases h : minor = n * 5
    · have hdiv : minor / 5 = n := by omega
      rw [h, update_self, ← h, hdiv, if_pos (by omega)]
    · rw [update_of_ne h, ih]
      congr 1
      rw [eq_iff_iff]
      omega

theorem hdInit_hd (minor : Nat) : (hdInit d).hd minor =
    if minor % 5 = 0 ∧ minor / 5 < d.nrHd then
      let p := d.hdInfo (minor / 5)
      ⟨0, (p.head * p.sect * p.cyl).toInt64⟩
    else d.hd minor := foldl_hdInit d.nrHd minor

theorem foldl_setupDrive (data : Sector) (drive minor : Nat) (hn : n ≤ 4) :
    ((List.range n).foldl (fun hd i => update hd (i + 1 + 5 * drive) (partitionAt data i)) d.hd)
      minor =
    if minor / 5 = drive ∧ minor % 5 ≠ 0 ∧ minor % 5 ≤ n then partitionAt data (minor % 5 - 1)
    else d.hd minor := by
  induction n with
  | zero => simp
  | succ n ih =>
    rw [List.range_succ, List.foldl_append, List.foldl_cons, List.foldl_nil]
    by_cases h : minor = n + 1 + 5 * drive
    · have hmod : minor % 5 = n + 1 := by omega
      rw [h, update_self, ← h, hmod, if_pos (by omega), Nat.add_sub_cancel]
    · rw [update_of_ne h, ih (by omega)]
      congr 1
      rw [eq_iff_iff]
      omega

theorem setupDrive_ok {drive : Nat} (h : setupDrive first d drive = .ok e) :
    ∃ data, first drive = some data ∧ e.nrHd = d.nrHd ∧ e.hdInfo = d.hdInfo ∧
      ∀ minor, e.hd minor = if minor / 5 = drive ∧ minor % 5 ≠ 0 then
        partitionAt data (minor % 5 - 1) else d.hd minor := by
  unfold setupDrive at h
  split at h
  · cases h
  rename_i data hdata
  split at h
  · cases h
  · cases h
    refine ⟨data, hdata, rfl, rfl, fun minor => ?_⟩
    refine (foldl_setupDrive data drive minor (Nat.le_refl 4)).trans ?_
    congr 1
    rw [eq_iff_iff]
    omega

/-- After `n` rounds the partitions of `n` drives are those on the disks. -/
theorem foldlM_setupDrive (h : (List.range n).foldlM (setupDrive first) d = .ok e) :
    e.nrHd = d.nrHd ∧ e.hdInfo = d.hdInfo ∧ ∀ minor,
      if minor % 5 ≠ 0 ∧ minor / 5 < n then
        ∃ data, first (minor / 5) = some data ∧ e.hd minor = partitionAt data (minor % 5 - 1)
      else e.hd minor = d.hd minor := by
  induction n generalizing e with
  | zero =>
    cases h
    refine ⟨rfl, rfl, fun minor => ?_⟩
    rw [if_neg (by omega)]
  | succ n ih =>
    rw [List.range_succ, List.foldlM_append] at h
    cases hn : (List.range n).foldlM (setupDrive first) d with
    | error p =>
      rw [hn] at h
      cases h
    | ok u =>
      rw [hn] at h
      obtain ⟨hnr, hinfo, hhd⟩ := ih hn
      have hlast : setupDrive first u n = .ok e := by
        simp only [List.foldlM_cons, List.foldlM_nil, bind_pure] at h
        exact h
      obtain ⟨data, hdata, hnr', hinfo', hhd'⟩ := setupDrive_ok hlast
      refine ⟨hnr'.trans hnr, hinfo'.trans hinfo, fun minor => ?_⟩
      rw [hhd' minor]
      by_cases hround : minor / 5 = n ∧ minor % 5 ≠ 0
      · rw [if_pos hround, if_pos ⟨hround.2, by omega⟩, hround.1]
        exact ⟨data, hdata, rfl⟩
      · have hiff : (minor % 5 ≠ 0 ∧ minor / 5 < n + 1) ↔ (minor % 5 ≠ 0 ∧ minor / 5 < n) := by
          omega
        simp only [if_neg hround, hiff]
        exact hhd minor

/-- On drives of less than `2^31` sectors, the tables are well formed. -/
theorem wellFormed_of_setup (h : sysSetup (hdInit d) first = .ok e)
    (hhead : ∀ i < d.nrHd, 0 < (d.hdInfo i).head.toInt)
    (hsect : ∀ i < d.nrHd, 0 < (d.hdInfo i).sect.toInt)
    (hsize : ∀ i < d.nrHd, 0 ≤ d.size i ∧ d.size i < 2 ^ 31)
    (htable : ∀ i < d.nrHd, ∀ data, first i = some data → ∀ k < 4,
      (partitionAt data k).startSect.toInt + (partitionAt data k).nrSects.toInt ≤ d.size i) :
    e.WellFormed := by
  obtain ⟨hnr, hinfo, hhd⟩ := foldlM_setupDrive h
  change e.nrHd = d.nrHd at hnr
  change e.hdInfo = d.hdInfo at hinfo
  refine ⟨?_, ?_, fun minor hlt => ?_⟩
  · rwa [hnr, hinfo]
  · rwa [hnr, hinfo]
  rw [hnr] at hlt
  have hentry := hhd minor
  have hdrive : minor / 5 < d.nrHd := by omega
  have hsame : e.size = d.size := by
    unfold Drives.size
    rw [hinfo]
  unfold Drives.Inside
  rw [hsame]
  by_cases hmod : minor % 5 = 0
  · rw [if_neg (by omega)] at hentry
    rw [hentry, hdInit_hd, if_pos ⟨hmod, hdrive⟩]
    have hprod := toInt_product (hsize _ hdrive).1 (hsize _ hdrive).2
    have hzero : (0 : Int64).toInt = 0 := rfl
    dsimp only
    rw [hprod, hzero]
    omega
  · rw [if_pos ⟨hmod, hdrive⟩] at hentry
    obtain ⟨data, hdata, heq⟩ := hentry
    rw [heq]
    refine ⟨?_, htable _ hdrive data hdata _ (by omega)⟩
    change 0 ≤ (toLong _).toInt
    rw [toInt_toLong]
    omega

end Setup

section Mapping

variable {d : Drives}

/-- `rw_hd` maps exactly the blocks of the partitions, and those of disjoint ones apart. -/
theorem rwHd_maps_blocks (hwf : d.WellFormed) (hsize : ∀ i < d.nrHd, d.size i ≤ 2 ^ 32) :
    (∀ cmd bh b, (rwHd d cmd bh b = .ok none ∧ ¬d.Has b) ∨
      ∃ q, rwHd d cmd bh b = .ok (some q) ∧ d.Has b ∧ d.Maps cmd bh b q) ∧
    ∀ cmd bh b q cmd' bh' b' q',
      rwHd d cmd bh b = .ok (some q) → rwHd d cmd' bh' b' = .ok (some q') →
      (b.minor = b'.minor ∧ b.bBlocknr ≠ b'.bBlocknr ∨
        Disjoint (d.partition b.minor.toNat) (d.partition b'.minor.toNat)) →
      Disjoint (d.callSectors q) (d.callSectors q') := by
  have hone : ∀ cmd bh b, (rwHd d cmd bh b = .ok none ∧ ¬d.Has b) ∨
      ∃ q, rwHd d cmd bh b = .ok (some q) ∧ d.Has b ∧ d.Maps cmd bh b q := by
    intro cmd bh b
    by_cases h : d.Has b
    · have hdrive : b.minor.toNat / 5 < d.nrHd := by
        have := h.1
        omega
      have hlt := Drives.firstSector_lt h hwf
      have hle := hsize _ hdrive
      have hcall : rwHd d cmd bh b = .ok (some (d.callFor cmd bh b)) := Drives.rwHd_of_has h
        (hwf.head_pos _ (by rwa [Drives.toNat_drive]))
        (hwf.sect_pos _ (by rwa [Drives.toNat_drive]))
      exact .inr ⟨_, hcall, h, Drives.maps_callFor h hwf (by omega)⟩
    · exact .inl ⟨Drives.rwHd_of_not_has h, h⟩
  refine ⟨hone, ?_⟩
  intro cmd bh b q cmd' bh' b' q' hq hq' hsep
  have hmaps : ∀ {cmd bh b q}, rwHd d cmd bh b = .ok (some q) → d.Has b ∧ d.Maps cmd bh b q := by
    intro cmd bh b q hq
    rcases hone cmd bh b with ⟨hnone, -⟩ | ⟨q', hq', h, hm⟩
    · rw [hnone] at hq
      cases hq
    · rw [hq'] at hq
      cases hq
      exact ⟨h, hm⟩
  obtain ⟨hb, hm⟩ := hmaps hq
  obtain ⟨hb', hm'⟩ := hmaps hq'
  rw [hm.callSectors_eq, hm'.callSectors_eq]
  rcases hsep with ⟨hminor, hne⟩ | hdisj
  · exact Drives.disjoint_blockSectors hminor hne
  · exact hdisj.mono hb.2 hb'.2

end Mapping

/-- Two drives of 5 heads, 17 sectors and 980 cylinders, as in `config.h`. -/
def cp3044 : Drives := ⟨2, fun _ => ⟨5, 17, 980⟩, fun _ => ⟨0, 0⟩, by decide⟩

/-- A first sector with one partition, of the sectors 17 to 40016. -/
def onePartition : Sector := fun k =>
  if k = 0x1C6 then 17 else if k = 0x1CA then 0x40 else if k = 0x1CB then 0x9C
  else if k = 510 then 0x55 else if k = 511 then 0xAA else 0

/-- Block 1000 of the second drive's partition is at cylinder 23, head 3, sector 12. -/
theorem rwHd_maps_blocks_cp3044 : ∃ d,
    sysSetup (hdInit cp3044) (fun _ => some onePartition) = .ok d ∧
    d.WellFormed ∧ (∀ i < d.nrHd, d.size i ≤ 2 ^ 32) ∧
    rwHd d .winRead 0 ⟨0x306, 1000⟩ = .ok (some ⟨.winRead, 1, 12, 3, 23, 0⟩) ∧
    ∀ q, rwHd d .winWrite 0 ⟨0x306, 1001⟩ = .ok (some q) →
      Disjoint (d.callSectors ⟨.winRead, 1, 12, 3, 23, 0⟩) (d.callSectors q) := by
  have hsize : ∀ i, cp3044.size i = 83300 := fun _ =>
    (by decide : (5 : Int32).toInt * (17 : Int32).toInt * (980 : Int32).toInt = 83300)
  have htable : ∀ k < 4, (partitionAt onePartition k).startSect.toInt +
      (partitionAt onePartition k).nrSects.toInt ≤ 83300 := by decide +kernel
  obtain ⟨d, hd, hread⟩ : ∃ d, sysSetup (hdInit cp3044) (fun _ => some onePartition) = .ok d ∧
      rwHd d .winRead 0 ⟨0x306, 1000⟩ = .ok (some ⟨.winRead, 1, 12, 3, 23, 0⟩) :=
    ⟨_, rfl, by decide +kernel⟩
  have hwf : d.WellFormed := by
    refine wellFormed_of_setup hd (fun i _ => ?_) (fun i _ => ?_) (fun i _ => ?_) ?_
    · exact (by decide : 0 < (5 : Int32).toInt)
    · exact (by decide : 0 < (17 : Int32).toInt)
    · rw [hsize]
      decide
    · intro i _ data hdata k hk
      cases hdata
      rw [hsize]
      exact htable k hk
  have hle : ∀ i < d.nrHd, d.size i ≤ 2 ^ 32 := by
    intro i _
    have hi : d.size i = cp3044.size i := by
      unfold Drives.size
      rw [(foldlM_setupDrive hd).2.1]
      rfl
    rw [hi, hsize]
    decide
  refine ⟨d, hd, hwf, hle, hread, fun q hq => ?_⟩
  exact (rwHd_maps_blocks hwf hle).2 _ _ _ _ _ _ _ _ hread hq (.inl ⟨rfl, by decide⟩)

/-- A drive of `2^33` sectors. -/
def largeDrive : Drives := ⟨1, fun _ => ⟨65536, 65536, 2⟩, fun _ => ⟨0, 0⟩, by decide⟩

/-- A first sector with one partition, of the sectors `2^32 - 2` to `2^32 + 1`. -/
def highPartition : Sector := fun k =>
  if k = 0x1C6 then 0xFE else if k = 0x1C7 ∨ k = 0x1C8 ∨ k = 0x1C9 then 0xFF
  else if k = 0x1CA then 4 else if k = 510 then 0x55 else if k = 511 then 0xAA else 0

/-- The second block is at sector `2^32`, and its call addresses sector 0. -/
theorem rwHd_wraps : ∃ d, sysSetup (hdInit largeDrive) (fun _ => some highPartition) = .ok d ∧
    d.WellFormed ∧ rwHd d .winWrite 0 ⟨0x301, 1⟩ = .ok (some ⟨.winWrite, 0, 1, 0, 0, 0⟩) ∧
    d.firstSector ⟨0x301, 1⟩ = 2 ^ 32 ∧ d.sectorOf ⟨.winWrite, 0, 1, 0, 0, 0⟩ = 0 ∧
    ¬d.Maps .winWrite 0 ⟨0x301, 1⟩ ⟨.winWrite, 0, 1, 0, 0, 0⟩ := by
  refine ⟨_, rfl, ⟨?_, ?_, ?_⟩, ?_, ?_, ?_, ?_⟩
  · intro i _
    exact (by decide : 0 < (65536 : Int32).toInt)
  · intro i _
    exact (by decide : 0 < (65536 : Int32).toInt)
  · unfold Drives.Inside
    decide +kernel
  · decide +kernel
  · decide +kernel
  · decide +kernel
  · intro h
    exact absurd h.sector (by decide +kernel)

end Linux001.Hd
