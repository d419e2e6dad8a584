import Linux001.Fs.FileDev

/-! Regular files as byte arrays: what `file_read`, `file_write` and `truncate` do, in terms of the
bytes of the files, and the simulation of the file layer by arrays of bytes. -/

namespace Linux001.Fs

open Function ProofKit ProofKit.Forest

variable {ι : Type*} {z z' z'' : Zones} {zone : ι → Nat → Nat} {i i' : ι} {chars b last : Nat}
  {inode : Inode} {filp : Filp} {d : Block} {Q : Unit → Zones → Prop} {count : Int}

def maxBytes : Nat := maxBlocks * blockSize

/-- The byte of the file `i` at an offset; what lies in no zone is 0. -/
def byteAt (z : Zones) (zone : ι → Nat → Nat) (i : ι) (off : Nat) : UInt8 :=
  if off < maxBytes then
    content z zone (i, (slot (off / blockSize)).1) (slot (off / blockSize)).2 (off % blockSize)
  else 0

theorem div_lt_of_lt {off : Nat} (h : off < maxBytes) : off / blockSize < maxBlocks :=
  Nat.div_lt_of_lt_mul (by rwa [Nat.mul_comm])

theorem slice_content {pos : Nat} (hc : chars ≤ blockSize - pos % blockSize)
    (hpos : pos + chars ≤ maxBytes) :
    slice (content z zone (i, (slot (pos / blockSize)).1) (slot (pos / blockSize)).2)
      (pos % blockSize) chars = (List.range chars).map fun j => byteAt z zone i (pos + j) := by
  refine List.map_congr_left fun j hj => ?_
  rw [List.mem_range] at hj
  have hdiv : (pos + j) / blockSize = pos / blockSize := by
    unfold blockSize at *
    omega
  have hmod : (pos + j) % blockSize = pos % blockSize + j := by
    unfold blockSize at *
    omega
  rw [byteAt, if_pos (by omega), hdiv, hmod]

theorem range_append_map {f : Nat → UInt8} {n m k : Nat} (h : n + k = m) :
    ((List.range n).map f) ++ ((List.range k).map fun j => f (n + j)) = (List.range m).map f := by
  rw [← h, List.range_add, List.map_append, List.map_map]
  rfl

theorem readLoop_returns (hi : zone i = inode.iZone) (fuel : Nat)
    {left : Nat} (hfuel : left ≤ fuel) (hmax : filp.fPos + left ≤ maxBytes) :
    Returns (readLoop bmap inode fuel filp left) z fun p z' =>
      z' = z ∧ p = ({ filp with fPos := filp.fPos + left },
        (List.range left).map fun j => byteAt z zone i (filp.fPos + j)) := by
  induction fuel generalizing filp left with
  | zero =>
    obtain rfl : left = 0 := by omega
    exact returns_pure.mpr ⟨rfl, rfl⟩
  | succ fuel ih =>
    refine returns_ite.mpr ⟨fun h0 => ?_, fun h0 => ?_⟩
    · subst h0
      exact returns_pure.mpr ⟨rfl, rfl⟩
    have hlt : filp.fPos < maxBytes := by omega
    refine (bmap_returns hi (div_lt_of_lt hlt)).bind fun p z1 ⟨hp, hz1⟩ => ?_
    subst hp hz1
    have hmod : filp.fPos % blockSize < blockSize := Nat.mod_lt _ (by decide)
    obtain ⟨chars, hchars⟩ : ∃ n, n = min (blockSize - filp.fPos % blockSize) left := ⟨_, rfl⟩
    have hslice : slice (content z1 zone (i, (slot (filp.fPos / blockSize)).1)
        (slot (filp.fPos / blockSize)).2) (filp.fPos % blockSize) chars =
          (List.range chars).map fun j => byteAt z1 zone i (filp.fPos + j) :=
      slice_content (by omega) (by omega)
    have hmax' : (Filp.mk filp.fFlags (filp.fPos + chars)).fPos + (left - chars) ≤ maxBytes := by
      change filp.fPos + chars + (left - chars) ≤ maxBytes
      omega
    have hrest := ih (by omega) hmax'
    have hend : filp.fPos + chars + (left - chars) = filp.fPos + left := by omega
    have hbytes : ((List.range chars).map fun j => byteAt z1 zone i (filp.fPos + j)) ++
        ((List.range (left - chars)).map fun j => byteAt z1 zone i (filp.fPos + chars + j)) =
          (List.range left).map fun j => byteAt z1 zone i (filp.fPos + j) := by
      rw [← range_append_map (show chars + (left - chars) = left by omega)]
      simp only [Nat.add_assoc]
    refine returns_ite.mpr ⟨fun hv => ?_, fun hv => ?_⟩
    · have hzero : content z1 zone (i, (slot (filp.fPos / blockSize)).1)
          (slot (filp.fPos / blockSize)).2 = clearBlock := funext fun off => if_pos hv
      simp only [← hchars]
      refine hrest.bind ?_
      rintro ⟨filp', rest⟩ z2 ⟨hz2, hp⟩
      cases hp
      rw [returns_pure, ← hzero, hslice, hbytes, hend]
      exact ⟨hz2, rfl⟩
    · have hdata : content z1 zone (i, (slot (filp.fPos / blockSize)).1)
          (slot (filp.fPos / blockSize)).2 = z1.block (zoneOf z1 zone i (filp.fPos / blockSize)) :=
        funext fun off => if_neg hv
      simp only [← hchars]
      rw [returns_bind, bread_returns, returns_bind, returns_get, returns_bind,
        brelse_returns (count_ne_zero_of_hold rfl), release_hold]
      refine hrest.bind ?_
      rintro ⟨filp', rest⟩ z2 ⟨hz2, hp⟩
      cases hp
      rw [returns_pure, Zones.hold_block, ← hdata, hslice, hbytes, hend]
      exact ⟨hz2, rfl⟩

theorem Grows.byteAt_eq {zone' : ι → Nat → Nat} (h : Grows z zone i z' zone') (i' : ι) (off : Nat) :
    byteAt z' zone' i' off = byteAt z zone i' off := by
  unfold byteAt
  rw [h.content _ _ (length_slot _)]

section Write

variable [DecidableEq ι] {inode inode' inode'' : Inode} {buf : Nat → UInt8} {pos k n m : Nat}

def Inode.Rewritten (inode inode' : Inode) : Prop :=
  inode' = { inode with iZone := inode'.iZone, iDirt := inode'.iDirt, iSize := inode'.iSize }

theorem Inode.Rewritten.trans (h : inode.Rewritten inode') (h' : inode'.Rewritten inode'') :
    inode.Rewritten inode'' := by
  cases inode
  cases inode'
  cases inode''
  simp_all [Inode.Rewritten]

theorem Inode.Rewritten.iMode_eq (h : inode.Rewritten inode') : inode'.iMode = inode.iMode := by
  rw [h]

theorem Inode.Remapped.rewritten (h : inode.Remapped inode') : inode.Rewritten inode' := by
  cases inode
  cases inode'
  simp_all [Inode.Remapped, Inode.Rewritten]

theorem Inode.Remapped.iSize_eq (h : inode.Remapped inode') : inode'.iSize = inode.iSize := by
  rw [h]

structure Stores (z : Zones) (zone : ι → Nat → Nat) (i : ι) (buf : Nat → UInt8) (pos k n : Nat)
    (z' : Zones) (f : Nat → Nat) : Prop where
  sb : z'.sb = z.sb
  count : z'.count = z.count
  zoned : Zoned z' (update zone i f)
  exact : Exact z zone → Exact z' (update zone i f)
  bytes : ∀ i' off, byteAt z' (update zone i f) i' off =
    if i' = i ∧ pos ≤ off ∧ off < pos + n then buf (k + (off - pos)) else byteAt z zone i' off

theorem Stores.append {f g : Nat → Nat} (h : Stores z zone i buf pos k n z' f)
    (h' : Stores z' (update zone i f) i buf (pos + n) (k + n) m z'' g) :
    Stores z zone i buf pos k (n + m) z'' g where
  sb := h'.sb.trans h.sb
  count := h'.count.trans h.count
  zoned := by
    have := h'.zoned
    rwa [update_idem] at this
  exact he := by
    have := h'.exact (h.exact he)
    rwa [update_idem] at this
  bytes i' off := by
    have := h'.bytes i' off
    rw [update_idem, h.bytes] at this
    rw [this]
    by_cases hi : i' = i
    · by_cases h1 : pos + n ≤ off ∧ off < pos + n + m
      · rw [if_pos ⟨hi, h1⟩, if_pos ⟨hi, by omega, by omega⟩]
        congr 1
        omega
      · rw [if_neg fun hcon => h1 hcon.2]
        by_cases h2 : pos ≤ off ∧ off < pos + n
        · rw [if_pos ⟨hi, h2⟩, if_pos ⟨hi, by omega, by omega⟩]
        · rw [if_neg fun hcon => h2 hcon.2, if_neg]
          omega
    · rw [if_neg fun hcon => hi hcon.1, if_neg fun hcon => hi hcon.1, if_neg fun hcon => hi hcon.1]

structure Wrote (z : Zones) (zone : ι → Nat → Nat) (i : ι) (inode : Inode) (buf : Nat → UInt8)
    (pos k n : Nat) (inode' : Inode) (z' : Zones) : Prop
    extends stores : Stores z zone i buf pos k n z' inode'.iZone where
  rest : inode.Rewritten inode'
  size : inode'.iSize = if n = 0 then inode.iSize else max inode.iSize (pos + n)

theorem Wrote.nothing (h : Grows z zone i z' (update zone i inode'.iZone))
    (hre : inode.Remapped inode') : Wrote z zone i inode buf pos k 0 inode' z' where
  sb := h.sb
  count := h.count
  zoned := h.zoned
  exact := h.exact
  rest := hre.rewritten
  size := hre.iSize_eq
  bytes i' off := by
    rw [h.byteAt_eq, if_neg]
    omega

theorem Wrote.refl (h : Zoned z zone) (hi : zone i = inode.iZone) :
    Wrote z zone i inode buf pos k 0 inode z := by
  refine .nothing ?_ rfl
  rw [← hi, update_eq_self]
  exact .refl h

theorem Wrote.append (h : Wrote z zone i inode buf pos k n inode' z')
    (h' : Wrote z' (update zone i inode'.iZone) i inode' buf (pos + n) (k + n) m inode'' z'') :
    Wrote z zone i inode buf pos k (n + m) inode'' z'' := by
  refine ⟨h.stores.append h'.stores, h.rest.trans h'.rest, ?_⟩
  rw [h'.size, h.size]
  by_cases hn : n = 0
  · by_cases hm : m = 0
    · simp [hn, hm]
    · simp [hn, hm]
  · by_cases hm : m = 0
    · simp [hn, hm]
    · simp only [hn, hm, Nat.add_eq_zero_iff, and_self, if_false]
      omega

theorem byteAt_store (h : Zoned z zone) (hchars : chars ≤ blockSize - pos % blockSize)
    (hmax : pos + chars ≤ maxBytes) (hpos : 0 < chars)
    (hv : zoneOf z zone i (pos / blockSize) ≠ 0) (i' : ι) (off : Nat) :
    byteAt (z.setBlock (zoneOf z zone i (pos / blockSize))
      (storeBytes (z.block (zoneOf z zone i (pos / blockSize))) (pos % blockSize) chars buf k))
      zone i' off =
    if i' = i ∧ pos ≤ off ∧ off < pos + chars then buf (k + (off - pos))
      else byteAt z zone i' off := by
  obtain ⟨-, -, hself, hother⟩ := h.store
    (storeBytes (z.block (zoneOf z zone i (pos / blockSize))) (pos % blockSize) chars buf k)
    (length_slot (pos / blockSize)) hv
  have hlt : pos / blockSize < maxBlocks := div_lt_of_lt (by omega)
  unfold byteAt
  by_cases hoff : off < maxBytes
  · rw [if_pos hoff, if_pos hoff]
    by_cases hsame : i' = i ∧ off / blockSize = pos / blockSize
    · obtain ⟨rfl, hdiv⟩ := hsame
      have hdata : content z zone (i', (slot (pos / blockSize)).1) (slot (pos / blockSize)).2 =
          z.block (zoneOf z zone i' (pos / blockSize)) := funext fun _ => if_neg hv
      rw [hdiv, hdata]
      refine (congrFun hself _).trans ?_
      unfold storeBytes
      have hiff : pos % blockSize ≤ off % blockSize ∧ off % blockSize < pos % blockSize + chars ↔
          pos ≤ off ∧ off < pos + chars := by
        unfold blockSize at *
        omega
      by_cases hin : pos ≤ off ∧ off < pos + chars
      · rw [if_pos (hiff.mpr hin), if_pos ⟨rfl, hin⟩]
        congr 1
        unfold blockSize at *
        omega
      · rw [if_neg (hiff.not.mpr hin), if_neg fun hcon => hin hcon.2]
    · have hne : ¬((i', (slot (off / blockSize)).1) = (i, (slot (pos / blockSize)).1) ∧
          (slot (off / blockSize)).2 = (slot (pos / blockSize)).2) := by
        rintro ⟨hr, hpath⟩
        obtain ⟨hi, hk⟩ := Prod.mk.inj hr
        exact hsame ⟨hi, slot_injective (div_lt_of_lt hoff) hlt (Prod.ext hk hpath)⟩
      refine (congrFun (hother _ _ (length_slot _) hne) _).trans (if_neg ?_).symm
      rintro ⟨hi, hin⟩
      refine hsame ⟨hi, ?_⟩
      unfold blockSize at *
      omega
  · rw [if_neg hoff, if_neg hoff, if_neg]
    omega

theorem release_setBlock_hold :
    ((z.hold b).setBlock b d).release b = z.setBlock b d := by
  have hcount : (((z.hold b).setBlock b d).release b).count = z.count := release_hold_count rfl
  simp only [Zones.release, Zones.hold, Zones.setBlock] at hcount ⊢
  rw [hcount]

theorem brelse_setBlock_hold :
    Returns (brelse b) ((z.hold b).setBlock b d) Q ↔ Q () (z.setBlock b d) := by
  have hcount : ((z.hold b).setBlock b d).count b ≠ 0 := count_ne_zero_of_hold (z := z) rfl
  rw [brelse_returns hcount, release_setBlock_hold]

theorem grown_iZone : (grown inode last).iZone = inode.iZone := by
  unfold grown
  split <;> rfl

theorem grown_iSize : (grown inode last).iSize = max inode.iSize last := by
  unfold grown
  split
  · rename_i h
    exact (Nat.max_eq_right (Nat.le_of_lt h)).symm
  · rename_i h
    exact (Nat.max_eq_left (Nat.le_of_not_lt h)).symm

theorem grown_rewritten : inode.Rewritten (grown inode last) := by
  unfold grown Inode.Rewritten
  split <;> rfl

theorem Wrote.round (hg : Grows z zone i z' (update zone i inode'.iZone))
    (hre : inode.Remapped inode') (hchars : chars ≤ blockSize - pos % blockSize)
    (hmax : pos + chars ≤ maxBytes) (hpos : 0 < chars)
    (hv : zoneOf z' (update zone i inode'.iZone) i (pos / blockSize) ≠ 0) :
    Wrote z zone i inode buf pos k chars (grown inode' (pos + chars))
      (z'.setBlock (zoneOf z' (update zone i inode'.iZone) i (pos / blockSize))
        (storeBytes (z'.block (zoneOf z' (update zone i inode'.iZone) i (pos / blockSize)))
          (pos % blockSize) chars buf k)) := by
  obtain ⟨hzoned, hexact, -, -⟩ := hg.zoned.store
    (storeBytes (z'.block (zoneOf z' (update zone i inode'.iZone) i (pos / blockSize)))
      (pos % blockSize) chars buf k) (length_slot (pos / blockSize)) hv
  refine ⟨⟨hg.sb, hg.count, ?_, fun he => ?_, fun i' off => ?_⟩,
    hre.rewritten.trans grown_rewritten, ?_⟩
  · rw [grown_iZone]
    exact hzoned
  · rw [grown_iZone]
    exact hexact (hg.exact he)
  · rw [grown_iZone, byteAt_store hg.zoned hchars hmax hpos hv, hg.byteAt_eq]
  · rw [grown_iSize, hre.iSize_eq, if_neg (by omega)]

theorem writeLoop_returns (fuel : Nat) (h : Zoned z zone) (hi : zone i = inode.iZone)
    (hfuel : (count - k).toNat ≤ fuel) (hmax : pos + (count - k).toNat ≤ maxBytes) :
    Returns (writeLoop createBlock buf count fuel inode pos k) z fun p z' =>
      ∃ n, p.2 = (pos + n, k + n) ∧ n ≤ (count - k).toNat ∧
        Wrote z zone i inode buf pos k n p.1 z' ∧ (n < (count - k).toNat → z'.Full) := by
  induction fuel generalizing z zone inode pos k with
  | zero => exact returns_pure.mpr ⟨0, rfl, Nat.zero_le _, .refl h hi, fun hlt => by omega⟩
  | succ fuel ih =>
    refine returns_ite.mpr ⟨fun hlt => ?_, fun hge => ?_⟩
    · have hpos : pos < maxBytes := by omega
      refine (createBlock_returns h hi (div_lt_of_lt hpos)).bind ?_
      rintro ⟨inode1, block⟩ z1 ⟨hg, hre, hb, hfull⟩
      refine returns_ite.mpr ⟨fun h0 => ?_, fun h0 => ?_⟩
      · exact returns_pure.mpr ⟨0, rfl, Nat.zero_le _, .nothing hg hre, fun _ => hfull h0⟩
      simp only at hg hre hb
      subst hb
      have hmod : pos % blockSize < blockSize := Nat.mod_lt _ (by decide)
      obtain ⟨chars, hchars⟩ : ∃ c, c = min (blockSize - pos % blockSize) (count - k).toNat :=
        ⟨_, rfl⟩
      have hround : Wrote z zone i inode buf pos k chars _ _ :=
        .round hg hre (by omega) (by omega) (by omega) h0
      rw [returns_bind, bread_returns, returns_bind, returns_modify, returns_bind,
        brelse_setBlock_hold]
      simp only [← hchars, Zones.hold_block]
      refine (ih hround.zoned (update_self _ _ _) (by omega) (by omega)).imp
        fun p z2 ⟨n, hp, hn, hw, hf⟩ => ?_
      refine ⟨chars + n, ?_, by omega, hround.append hw, fun hlt => hf (by omega)⟩
      rw [hp, Nat.add_assoc, Nat.add_assoc]
    · exact returns_pure.mpr ⟨0, rfl, Nat.zero_le _, .refl h hi, fun hlt => by omega⟩

end Write

structure ByteFile where
  size : Nat
  data : Nat → UInt8

namespace ByteFile

def empty : ByteFile := ⟨0, fun _ => 0⟩

def read (f : ByteFile) (pos count : Nat) : List UInt8 :=
  (List.range count).map fun j => f.data (pos + j)

def write (f : ByteFile) (pos n : Nat) (buf : Nat → UInt8) : ByteFile where
  size := if n = 0 then f.size else max f.size (pos + n)
  data off := if pos ≤ off ∧ off < pos + n then buf (off - pos) else f.data off

theorem read_write (f : ByteFile) (pos n : Nat) (buf : Nat → UInt8) :
    (f.write pos n buf).read pos n = (List.range n).map buf := by
  refine List.map_congr_left fun k hk => ?_
  simp [write, List.mem_range.mp hk]

end ByteFile

inductive FileOp (ι : Type*)
  | read (i : ι) (filp : Filp) (count : Int)
  | write (i : ι) (filp : Filp) (buf : Nat → UInt8) (count : Int)
  | truncate (i : ι) (stale : Nat → Block)

def FileOp.file : FileOp ι → ι
  | .read i _ _ | .write i _ _ _ | .truncate i _ => i

inductive FileOut
  | read (filp : Filp) (bytes : List UInt8) (ret : Int)
  | written (filp : Filp) (ret : Int)
  | truncated
deriving DecidableEq

def writePos (filp : Filp) (size : Nat) : Nat :=
  if filp.fFlags &&& oAppend ≠ 0 then size else filp.fPos

def wroteTo (filp : Filp) (n : Nat) : Filp :=
  if filp.fFlags &&& oAppend ≠ 0 then filp else { filp with fPos := filp.fPos + n }

/-- The file layer on byte arrays.  A write can be short, by any number of bytes. -/
inductive ByteStep [DecidableEq ι] :
    (ι → ByteFile) → FileOp ι → FileOut → (ι → ByteFile) → Prop
  | read (A : ι → ByteFile) (i : ι) (filp : Filp) (count : Int) :
    ByteStep A (.read i filp count)
      (.read { filp with fPos := filp.fPos + count.toNat } ((A i).read filp.fPos count.toNat)
        count.toNat) A
  | write (A : ι → ByteFile) (i : ι) (filp : Filp) (buf : Nat → UInt8) (count : Int) (n : Nat) :
    n ≤ count.toNat → ByteStep A (.write i filp buf count)
      (.written (wroteTo filp n) (if n = 0 then -1 else n))
      (update A i ((A i).write (writePos filp (A i).size) n buf))
  | truncate (A : ι → ByteFile) (i : ι) (stale : Nat → Block) :
    ByteStep A (.truncate i stale) .truncated (update A i .empty)

inductive ByteRun [DecidableEq ι] :
    (ι → ByteFile) → List (FileOp ι) → List FileOut → (ι → ByteFile) → Prop
  | nil (A : ι → ByteFile) : ByteRun A [] [] A
  | cons {A A' A'' : ι → ByteFile} {op : FileOp ι} {out : FileOut} {ops : List (FileOp ι)}
    {outs : List FileOut} :
    ByteStep A op out A' → ByteRun A' ops outs A'' → ByteRun A (op :: ops) (out :: outs) A''

namespace Files

variable [DecidableEq ι] {s t : Files ι}

def bytes (s : Files ι) (i : ι) : ByteFile := ⟨(s.inode i).iSize, byteAt s.zones s.zone i⟩

def exec (s : Files ι) : FileOp ι → Except Panic (Files ι × FileOut)
  | .read i filp count =>
    match fileRead (s.inode i) filp count s.zones with
    | .ok (filp, data, ret) z => .ok ({ s with zones := z }, .read filp data ret)
    | .error e _ => .error e
  | .write i filp buf count =>
    match fileWrite (s.inode i) filp buf count s.zones with
    | .ok (inode, filp, ret) z => .ok (⟨z, update s.inode i inode⟩, .written filp ret)
    | .error e _ => .error e
  | .truncate i stale =>
    match Fs.truncate stale (s.inode i) s.zones with
    | .ok inode z => .ok (⟨z, update s.inode i inode⟩, .truncated)
    | .error e _ => .error e

/-- Reads and writes end within the greatest size of a file. -/
def Within (s : Files ι) : FileOp ι → Prop
  | .read _ filp count => 0 < count → filp.fPos + count.toNat ≤ maxBytes
  | .write i filp _ count => writePos filp (s.inode i).iSize + count.toNat ≤ maxBytes
  | .truncate _ _ => True

def execAll (s : Files ι) : List (FileOp ι) → Except Panic (Files ι × List FileOut)
  | [] => .ok (s, [])
  | op :: ops =>
    match s.exec op with
    | .ok (t, out) =>
      match t.execAll ops with
      | .ok (u, outs) => .ok (u, out :: outs)
      | .error e => .error e
    | .error e => .error e

def AllWithin (s : Files ι) : List (FileOp ι) → Prop
  | [] => True
  | op :: ops => s.Within op ∧ ∀ t out, s.exec op = .ok (t, out) → t.AllWithin ops

theorem bytes_update {i : ι} {f : ByteFile} (hsize : inode.iSize = f.size)
    (hself : ∀ off, byteAt z (update s.zone i inode.iZone) i off = f.data off)
    (hother : ∀ i', i' ≠ i → ∀ off,
      byteAt z (update s.zone i inode.iZone) i' off = byteAt s.zones s.zone i' off) :
    (Files.mk z (update s.inode i inode)).bytes = update s.bytes i f := by
  funext i'
  have hzone : (Files.mk z (update s.inode i inode)).zone = update s.zone i inode.iZone :=
    zone_update
  change ByteFile.mk (update s.inode i inode i').iSize (byteAt z (Files.mk z _).zone i') = _
  rw [hzone]
  by_cases hi : i' = i
  · subst hi
    rw [update_self, update_self, hsize, funext hself]
  · rw [update_of_ne hi, update_of_ne hi, funext (hother i' hi)]
    rfl

theorem exec_read (i : ι) (hmax : 0 < count → filp.fPos + count.toNat ≤ maxBytes) :
    s.exec (.read i filp count) = .ok (s, .read { filp with fPos := filp.fPos + count.toNat }
      ((s.bytes i).read filp.fPos count.toNat) count.toNat) := by
  by_cases hc : count ≤ 0
  · have h0 : count.toNat = 0 := by omega
    have hread : fileRead (s.inode i) filp count s.zones = .ok (filp, [], 0) s.zones := by
      rw [fileRead, fileReadBy, if_pos hc]
      rfl
    simp only [exec, hread, h0]
    rfl
  · have hzone : s.zone i = (s.inode i).iZone := rfl
    have hloop : Returns (readLoop bmap (s.inode i) count.toNat filp count.toNat) s.zones _ :=
      readLoop_returns hzone count.toNat (Nat.le_refl _) (hmax (by omega))
    obtain ⟨p, z, hrun, rfl, rfl⟩ := hloop
    have hread : fileRead (s.inode i) filp count s.zones =
        .ok ({ filp with fPos := filp.fPos + count.toNat },
          (s.bytes i).read filp.fPos count.toNat, count) s.zones := by
      rw [fileRead, fileReadBy, if_neg hc]
      exact bind_eq_ok.mpr ⟨_, _, hrun, rfl⟩
    have hcount : ((count.toNat : Nat) : Int) = count := by omega
    simp only [exec, hread, hcount]

theorem exec_write (h : s.Allocated) (i : ι) {buf : Nat → UInt8}
    (hmax : writePos filp (s.inode i).iSize + count.toNat ≤ maxBytes) :
    ∃ t n, s.exec (.write i filp buf count) =
        .ok (t, .written (wroteTo filp n) (if n = 0 then -1 else n)) ∧ t.Allocated ∧
      n ≤ count.toNat ∧ (n < count.toNat → t.zones.Full) ∧
      t.bytes = update s.bytes i ((s.bytes i).write (writePos filp (s.bytes i).size) n buf) := by
  have hzone : s.zone i = (s.inode i).iZone := rfl
  have hzero : (count - ((0 : Nat) : Int)).toNat = count.toNat := by simp
  have hmax' : writePos filp (s.inode i).iSize + (count - ((0 : Nat) : Int)).toNat ≤ maxBytes := by
    rwa [hzero]
  have hloop : Returns (writeLoop createBlock buf count count.toNat (s.inode i) _ 0) s.zones _ :=
    writeLoop_returns count.toNat h.zoned hzone (Nat.le_of_eq hzero) hmax'
  obtain ⟨⟨inode, _, _⟩, z, hrun, n, hp, hn, hw, hfull⟩ := hloop
  cases hp
  rw [hzero] at hn hfull
  refine ⟨⟨z, update s.inode i inode⟩, n, ?_, ?_, hn, hfull, ?_⟩
  · have hwrite : fileWrite (s.inode i) filp buf count s.zones =
        .ok (inode, wroteTo filp n, if n = 0 then -1 else n) z := by
      refine bind_eq_ok.mpr ⟨_, _, hrun, ?_⟩
      simp only [Nat.zero_add, wroteTo, writePos]
      by_cases happ : filp.fFlags &&& oAppend ≠ 0
      · simp only [if_pos happ]
        rfl
      · simp only [if_neg happ]
        rfl
    simp only [exec, hwrite]
  · refine .of_zoned ?_ ?_ (file_update h hw.rest.iMode_eq) fun m hm => ?_
    · rw [zone_update]
      exact hw.zoned
    · rw [zone_update]
      exact hw.exact fun m hm hu => (h.used m hm).mp hu
    · rw [hw.count]
      exact h.idle m ((Zones.IsData.congr hw.sb).mp hm)
  · refine bytes_update hw.size (fun off => ?_) fun i' hi off => ?_
    · rw [hw.bytes, Nat.zero_add]
      simp only [true_and]
      rfl
    · rw [hw.bytes, if_neg fun hcon => hi hcon.1]

theorem exec_truncate (h : s.Allocated) (i : ι) (stale : Nat → Block) :
    ∃ t, s.exec (.truncate i stale) = .ok (t, .truncated) ∧ t.Allocated ∧
      t.bytes = update s.bytes i .empty := by
  obtain ⟨inode, z, hrun, hs, hsize, ht⟩ := truncate_allocated h i stale
  refine ⟨⟨z, update s.inode i inode⟩, by simp only [exec, hrun], ht, ?_⟩
  refine bytes_update hsize (fun off => ?_) fun i' hi off => ?_
  · unfold byteAt
    rw [hs.gone]
    exact ite_self _
  · unfold byteAt
    rw [hs.content _ _ hi (Nat.le_of_eq (length_slot _))]

theorem exec_simulates (h : s.Allocated) {op : FileOp ι} (hop : s.Within op) :
    ∃ t out, s.exec op = .ok (t, out) ∧ t.Allocated ∧ ByteStep s.bytes op out t.bytes := by
  cases op with
  | read i filp count => exact ⟨s, _, exec_read i hop, h, .read s.bytes i filp count⟩
  | write i filp buf count =>
    obtain ⟨t, n, hexec, ht, hn, -, hbytes⟩ := exec_write h i hop
    exact ⟨t, _, hexec, ht, hbytes ▸ .write s.bytes i filp buf count n hn⟩
  | truncate i stale =>
    obtain ⟨t, hexec, ht, hbytes⟩ := exec_truncate h i stale
    exact ⟨t, _, hexec, ht, hbytes ▸ .truncate s.bytes i stale⟩

/-- Calls within the limits return what the byte arrays give. -/
theorem execAll_refines (h : s.Allocated) (ops : List (FileOp ι)) (hops : s.AllWithin ops) :
    ∃ t outs, s.execAll ops = .ok (t, outs) ∧ t.Allocated ∧ ByteRun s.bytes ops outs t.bytes := by
  induction ops generalizing s with
  | nil => exact ⟨s, [], rfl, h, .nil s.bytes⟩
  | cons op ops ih =>
    obtain ⟨t, out, hexec, ht, hstep⟩ := exec_simulates h hops.1
    obtain ⟨u, outs, hall, hu, hrun⟩ := ih ht (hops.2 t out hexec)
    exact ⟨u, out :: outs, by simp only [execAll, hexec, hall], hu, .cons hstep hrun⟩

/-- A write over the end of a block, a truncation of another file, and a read. -/
theorem execAll_refines_two_files : ∃ (t : Files Bool) (outs : List FileOut),
    (emptyFiles Bool).execAll [.write true ⟨0, 1023⟩ (fun j => UInt8.ofNat j) 2,
      .truncate false (fun _ _ => 255), .read true ⟨0, 1022⟩ 3] = .ok (t, outs) ∧
    t.Allocated ∧ ByteRun (emptyFiles Bool).bytes
      [.write true ⟨0, 1023⟩ (fun j => UInt8.ofNat j) 2, .truncate false (fun _ _ => 255),
        .read true ⟨0, 1022⟩ 3] outs t.bytes := by
  have hwrite : writePos ⟨0, 1023⟩ emptyFile.iSize + (2 : Int).toNat ≤ maxBytes := by decide
  have hread : (1022 : Nat) + (3 : Int).toNat ≤ maxBytes := by decide
  exact execAll_refines allocated_emptyFiles _
    ⟨hwrite, fun _ _ _ => ⟨trivial, fun _ _ _ => ⟨fun _ => hread, fun _ _ _ => trivial⟩⟩⟩

theorem execAll_bytes {i : ι} (h : s.Allocated) {ops : List (FileOp ι)} (hops : s.AllWithin ops)
    (hother : ∀ op ∈ ops, op.file ≠ i) :
    ∃ t outs, s.execAll ops = .ok (t, outs) ∧ t.bytes i = s.bytes i := by
  induction ops generalizing s with
  | nil => exact ⟨s, [], rfl, rfl⟩
  | cons op ops ih =>
    obtain ⟨t, out, hexec, ht, hstep⟩ := exec_simulates h hops.1
    obtain ⟨u, outs, hall, hu⟩ := ih ht (hops.2 t out hexec) fun op' hop =>
      hother op' (by simp [hop])
    refine ⟨u, out :: outs, by simp only [execAll, hexec, hall], hu.trans ?_⟩
    have hne := (hother op (by simp)).symm
    generalize t.bytes = A at hstep
    cases hstep with
    | read => rfl
    | write | truncate => exact update_of_ne hne _ _

/-- What `file_write` stores is read back, also after any calls for other files. -/
theorem written_read_back (h : s.Allocated) (i : ι) (buf : Nat → UInt8) {pos : Nat}
    (hpos : pos = writePos filp (s.inode i).iSize) (hmax : pos + count.toNat ≤ maxBytes) :
    ∃ t n, s.exec (.write i filp buf count) = .ok
      (t, .written (wroteTo filp n) (if n = 0 then -1 else n)) ∧
      (n < count.toNat → t.zones.Full) ∧ ∀ ops, t.AllWithin ops → (∀ op ∈ ops, op.file ≠ i) →
        ∃ u outs, t.execAll ops = .ok (u, outs) ∧
          u.exec (.read i ⟨0, pos⟩ n) = .ok (u, .read ⟨0, pos + n⟩ ((List.range n).map buf) n) := by
  subst hpos
  obtain ⟨t, n, hexec, ht, hn, hfull, hbytes⟩ := exec_write h i hmax
  refine ⟨t, n, hexec, hfull, fun ops hops hother => ?_⟩
  obtain ⟨u, outs, hall, hu⟩ := execAll_bytes ht hops hother
  have hread : u.exec (.read i ⟨0, writePos filp (s.inode i).iSize⟩ n) = _ :=
    exec_read i fun _ => (Nat.add_le_add_left hn _).trans hmax
  rw [Int.toNat_natCast, hu, hbytes, update_self] at hread
  exact ⟨u, outs, hall, hread.trans (by rw [← ByteFile.read_write]; rfl)⟩

/-- Two bytes across the end of a block are read back. -/
theorem written_read_back_empty : ∃ t u outs,
    (emptyFiles Bool).exec (.write true ⟨0, 1023⟩ (fun j => UInt8.ofNat (j + 7)) 2) =
      .ok (t, .written ⟨0, 1025⟩ 2) ∧
    t.execAll [.truncate false fun _ _ => 255] = .ok (u, outs) ∧
    u.exec (.read true ⟨0, 1023⟩ 2) = .ok (u, .read ⟨0, 1025⟩ [7, 8] 2) := by
  have hpos : 1023 = writePos ⟨0, 1023⟩ emptyFile.iSize := rfl
  have hmax : 1023 + (2 : Int).toNat ≤ maxBytes := by decide
  obtain ⟨t, n, hexec, -, hback⟩ := written_read_back allocated_emptyFiles true
    (fun j => UInt8.ofNat (j + 7)) hpos hmax
  obtain ⟨u, outs, hall, hread⟩ := hback [.truncate false fun _ _ => 255]
    ⟨trivial, fun _ _ _ => trivial⟩ (by simp [FileOp.file])
  have hret :
    ((emptyFiles Bool).exec (.write true ⟨0, 1023⟩ (fun j => UInt8.ofNat (j + 7)) 2)).toOption.map
      (fun p => p.2) = some (.written ⟨0, 1025⟩ 2) := by decide +kernel
  rw [hexec] at hret
  have hfilp := (FileOut.written.inj (Option.some.inj hret)).1
  obtain rfl : n = 2 := by
    have hpos : 1023 + n = 1025 := congrArg Filp.fPos hfilp
    omega
  exact ⟨t, u, outs, hexec, hall, hread⟩

end Files

end Linux001.Fs
