import Linux001.Fs.Space
import Linux001.Fs.EndOfFile

/-! Writes at any offset. The number of a block is narrowed to an `int`, so that a position counts
modulo 2^42, and a write that comes to the greatest size of a file stops the kernel. -/

namespace Linux001.Fs.ReadWrite

open Function ProofKit ProofKit.Forest

variable {ι : Type*} [DecidableEq ι] {z z' : Zones} {zone : ι → Nat → Nat} {i : ι} {inode : Inode}
  {buf : Nat → UInt8} {count : Int} {q m k lo : Nat} {total p : Nat} {inode' : Inode}
  {Q : Inode × Nat × Nat → Zones → Prop}

theorem toInt_shifted (hq : q ≤ maxBytes) :
    toInt ((q + 2 ^ 42 * m) / blockSize : Nat) = (q / blockSize : Nat) := by
  have hdiv : (q + 2 ^ 42 * m) / blockSize = q / blockSize + 2 ^ 32 * m := by
    unfold blockSize
    omega
  have hle : q / blockSize ≤ maxBlocks := by
    unfold maxBytes blockSize at *
    omega
  unfold maxBlocks at hle
  rw [hdiv]
  generalize q / blockSize = b at hle
  rw [toInt, Int.bmod_def]
  omega

theorem maxBytes_eq : maxBytes = 262663 * 1024 := rfl

/-- The loop of `file_write` from `q + 2^42 * m` on stores at `q`, while there is a zone. -/
structure Written (z : Zones) (zone : ι → Nat → Nat) (i : ι) (inode : Inode) (buf : Nat → UInt8)
    (total q k lo n : Nat) (inode' : Inode) (z' : Zones) : Prop where
  le : n ≤ total
  max : q + n ≤ maxBytes
  stores : Stores z zone i buf q k n z' inode'.iZone
  size : n = 0 → inode'.iSize = inode.iSize
  short : n < total → z.free.card < (missing z zone i (slots lo maxBlocks)).card
  first : 0 < total → (n = 0 ↔
    z.free.card < (missing z zone i (slots (q / blockSize) (q / blockSize + 1))).card)

theorem Written.nothing (h : Zoned z zone) (hi : zone i = inode.iZone) (hq : q ≤ maxBytes) :
    Written z zone i inode buf 0 q k lo 0 inode z :=
  ⟨Nat.le_refl _, hq, (Wrote.refl h hi).stores, fun _ => rfl, fun hlt => by omega,
    fun hpos => by omega⟩

theorem Written.stopped {p : Inode × Nat} (h : Zoned z zone) (hq : q < maxBytes)
    (hlo : lo ≤ q / blockSize) (hc : CreatesSlots z zone i inode (q / blockSize) p z')
    (h0 : p.2 = 0) : Written z zone i inode buf total q k lo 0 p.1 z' := by
  have hlt := hc.lt_of_eq_zero (S := slots lo maxBlocks) (fun _ hs => length_of_mem_slots hs)
    (fun _ hs => mem_slots_of_nodes hlo (div_lt_of_lt hq) hs) h0
  have hw : Wrote z zone i inode buf q k 0 p.1 z' := .nothing (hc.1.grows h) hc.2.1
  exact ⟨Nat.zero_le _, Nat.le_of_lt hq, hw.stores, fun _ => hc.2.1.iSize_eq, fun _ => hlt,
    fun _ => iff_of_true rfl (hc.eq_zero_iff.mp h0)⟩

omit [DecidableEq ι] in
theorem missing_eq_empty (hq : q = maxBytes)
    (hdone : ∀ b, lo ≤ b → b < q / blockSize → zoneOf z zone i b ≠ 0) :
    missing z zone i (slots lo maxBlocks) = ∅ := by
  refine Finset.eq_empty_of_forall_notMem fun s hs => ?_
  obtain ⟨hs, hv⟩ := mem_missing.mp hs
  obtain ⟨b, hlo, hhi, hnode⟩ := mem_slots.mp hs
  have hdiv : q / blockSize = maxBlocks := by
    rw [hq]
    exact Nat.mul_div_cancel _ (by decide)
  exact value_ne_of_zoneOf (hdone b hlo (hdiv ▸ hhi)) hnode hv

structure Round (z : Zones) (zone : ι → Nat → Nat) (i : ι) (buf : Nat → UInt8) (q k lo chars : Nat)
    (z₂ : Zones) (f : Nat → Nat) : Prop where
  stores : Stores z zone i buf q k chars z₂ f
  max : q + chars ≤ maxBytes
  done : ∀ b, lo ≤ b → b < (q + chars) / blockSize → zoneOf z₂ (update zone i f) i b ≠ 0
  balance : z.free.card + (missing z₂ (update zone i f) i (slots lo maxBlocks)).card =
    z₂.free.card + (missing z zone i (slots lo maxBlocks)).card

theorem Round.of_creates {chars : Nat} {inode1 : Inode} (h : Zoned z zone) (hq : q < maxBytes)
    (hlo : lo ≤ q / blockSize) (hdone : ∀ b, lo ≤ b → b < q / blockSize → zoneOf z zone i b ≠ 0)
    (hchars : chars ≤ blockSize - q % blockSize) (hpos : 0 < chars)
    (hf : Fills i (q / blockSize) (z, zone) (z', update zone i inode1.iZone))
    (hre : inode.Remapped inode1)
    (hv : zoneOf z' (update zone i inode1.iZone) i (q / blockSize) ≠ 0) :
    Round z zone i buf q k lo chars
      (z'.setBlock (zoneOf z' (update zone i inode1.iZone) i (q / blockSize))
        (storeBytes (z'.block (zoneOf z' (update zone i inode1.iZone) i (q / blockSize)))
          (q % blockSize) chars buf k)) inode1.iZone := by
  have hg := hf.grows h
  have hmod : q % blockSize < blockSize := Nat.mod_lt _ (by decide)
  have hmax : q + chars ≤ maxBytes := by
    rw [maxBytes_eq] at hq ⊢
    unfold blockSize at hchars hmod
    omega
  have hwrote : Wrote z zone i inode buf q k chars _ _ := .round hg hre hchars hmax hpos hv
  have hlen : ∀ s ∈ slots lo maxBlocks, s.2.length ≤ depth (i, s.1) :=
    fun _ hs => length_of_mem_slots hs
  have hbalance := hf.balance hlen fun _ hs => mem_slots_of_nodes hlo (div_lt_of_lt hq) hs
  refine ⟨?_, hmax, fun b hb hlt => ?_, ?_⟩
  · have hstores := hwrote.stores
    rwa [grown_iZone] at hstores
  · have hvalue := hg.zoned.value_store (storeBytes (z'.block (zoneOf z'
      (update zone i inode1.iZone) i (q / blockSize))) (q % blockSize) chars buf k)
      (length_slot (q / blockSize)) hv (i, (slot b).1) (slot b).2 (length_slot b).le
    refine fun h0 => absurd (hvalue.symm.trans h0) ?_
    by_cases hbq : b = q / blockSize
    · exact hbq ▸ hv
    · have hb' : b < q / blockSize := by
        unfold blockSize at *
        omega
      have hkept := hg.kept _ _ (length_slot b).le (hdone b hb hb')
      exact fun h0 => hdone b hb hb' (hkept.symm.trans h0)
  · rw [hg.zoned.missing_store _ hlen hv]
    exact hbalance

theorem Written.cons {chars n : Nat} {z2 : Zones} {f : Nat → Nat} {inode2 : Inode}
    (hround : Round z zone i buf q k lo chars z2 f) (hpos : 0 < chars) (hle : chars ≤ total)
    (hfirst : ¬z.free.card < (missing z zone i (slots (q / blockSize) (q / blockSize + 1))).card)
    (hrest : Written z2 (update zone i f) i inode2 buf (total - chars) (q + chars) (k + chars) lo n
      inode' z') :
    Written z zone i inode buf total q k lo (chars + n) inode' z' := by
  have hbalance := hround.balance
  refine ⟨?_, ?_, hround.stores.append hrest.stores, fun h0 => by omega, fun hlt => ?_,
    fun _ => iff_of_false (by omega) hfirst⟩
  · have := hrest.le
    omega
  · have := hrest.max
    omega
  · have := hrest.short (by omega)
    omega

theorem writeLoop_meets (fuel : Nat) (h : Zoned z zone) (hi : zone i = inode.iZone)
    (hfuel : (count - k).toNat ≤ fuel) (hq : q ≤ maxBytes) (hlo : lo ≤ q / blockSize)
    (hdone : ∀ b, lo ≤ b → b < q / blockSize → zoneOf z zone i b ≠ 0) :
    Meets (writeLoop (blockOf true) buf count fuel inode (q + 2 ^ 42 * m) k) z
      (fun p z' => ∃ n, p.2 = (q + 2 ^ 42 * m + n, k + n) ∧
        Written z zone i inode buf (count - k).toNat q k lo n p.1 z')
      (fun _ => maxBytes < q + (count - k).toNat ∧
        (missing z zone i (slots lo maxBlocks)).card ≤ z.free.card) := by
  induction fuel generalizing z zone inode q k with
  | zero =>
    rw [show (count - k).toNat = 0 by omega]
    exact meets_pure ⟨0, rfl, .nothing h hi hq⟩
  | succ fuel ih =>
    refine meets_ite (fun hlt => ?_) fun hge => ?_
    rotate_left
    · rw [show (count - k).toNat = 0 by omega]
      exact meets_pure ⟨0, rfl, .nothing h hi hq⟩
    rw [blockOf, toInt_shifted hq, bmapInt_natCast]
    by_cases hend : q = maxBytes
    · -- The block behind the last one: all the blocks from `lo` on have a zone.
      have hbig : 7 + 512 + 512 * 512 ≤ q / blockSize := by
        rw [hend]
        decide
      rw [bmap', if_pos hbig]
      refine meets_throw ⟨by omega, ?_⟩
      rw [missing_eq_empty hend hdone, Finset.card_empty]
      exact Nat.zero_le _
    have hqlt : q < maxBytes := by omega
    have hblock := div_lt_of_lt hqlt
    refine (createBlock_fills h hi hblock).meets.bind ?_
    rintro ⟨inode1, n⟩ z1 hc
    refine meets_ite (fun h0 => ?_) fun h0 => ?_
    · exact meets_pure ⟨0, rfl, .stopped h hqlt hlo hc h0⟩
    obtain ⟨hf, hre, hn, -⟩ := id hc
    have hfirst := hc.eq_zero_iff.not.mp h0
    simp only at hf hre hn
    subst hn
    have hmod : (q + 2 ^ 42 * m) % blockSize = q % blockSize := by
      unfold blockSize
      omega
    have hlt' : q % blockSize < blockSize := Nat.mod_lt _ (by decide)
    obtain ⟨chars, hchars⟩ : ∃ c, c = min (blockSize - q % blockSize) (count - k).toNat := ⟨_, rfl⟩
    have hround : Round z zone i buf q k lo chars _ _ :=
      .of_creates h hqlt hlo hdone (by omega) (by omega) hf hre h0
    have hleft : (count - (k + chars : Nat)).toNat = (count - k).toNat - chars := by omega
    refine meets_bind_of_eq rfl (meets_bind_of_eq rfl ?_)
    rw [hmod, ← hchars]
    refine (brelse_setBlock_hold.mpr rfl : Returns _ _ fun _ t => t = _).meets.bind ?_
    rintro - z2 rfl
    rw [show q + 2 ^ 42 * m + chars = q + chars + 2 ^ 42 * m by omega]
    refine (ih hround.stores.zoned ?_ (by omega) hround.max ?_ hround.done).mono ?_ ?_
    · rw [update_self, grown_iZone]
    · exact hlo.trans (Nat.div_le_div_right (Nat.le_add_right _ _))
    · rintro p t ⟨n, hp, hw⟩
      refine ⟨chars + n, ?_, ?_⟩
      · rw [hp, Prod.mk.injEq]
        omega
      · rw [hleft] at hw
        exact hw.cons hround (by omega) (by omega) hfirst
    · rintro e ⟨hbig, hle⟩
      have := hround.balance
      omega

theorem fileWrite_meets {filp : Filp} (hz : Zoned z zone) (hi : zone i = inode.iZone)
    (hp : writePos filp inode.iSize = p) (hq : p % 2 ^ 42 < maxBytes) :
    Meets (fileWrite inode filp buf count) z
      (fun r z' => ∃ n : Nat, r.2.2 = (if n = 0 then -1 else (n : Int)) ∧
        Written z zone i inode buf count.toNat (p % 2 ^ 42) 0 (p % 2 ^ 42 / blockSize) n r.1 z')
      (fun _ => maxBytes < p % 2 ^ 42 + count.toNat ∧
        (missing z zone i (slots (p % 2 ^ 42 / blockSize) maxBlocks)).card ≤ z.free.card) := by
  have hpos : p % 2 ^ 42 + 2 ^ 42 * (p / 2 ^ 42) = p := by omega
  have hcount : (count - (0 : Nat)).toNat = count.toNat := by omega
  have hloop : Meets (writeLoop (blockOf true) buf count count.toNat inode
      (p % 2 ^ 42 + 2 ^ 42 * (p / 2 ^ 42)) 0) z _ _ :=
    writeLoop_meets count.toNat hz hi hcount.le (Nat.le_of_lt hq) (Nat.le_refl _)
      fun b hlo hlt => absurd hlt (Nat.not_lt.mpr hlo)
  rw [hpos, hcount] at hloop
  change Meets
    (writeLoop (blockOf true) buf count count.toNat inode (writePos filp inode.iSize) 0 >>= _) z _ _
  rw [hp]
  refine hloop.bind ?_
  rintro ⟨inode', pos', n'⟩ z' ⟨n, hn, hw⟩
  obtain ⟨-, rfl⟩ := Prod.mk.inj hn
  rw [Nat.zero_add]
  exact meets_pure ⟨n, rfl, hw⟩

namespace Process

def writeStart (s : Process) (k : Nat) : Nat :=
  writePos (s.file k).toFilp (s.files.inode (s.file k).fInode).iSize

def needs (s : Process) (k lo hi : Nat) : Nat :=
  (missing s.files.zones s.files.zone (s.file k).fInode (slots lo hi)).card

/-- `sys_write` stores bytes at the position, or fails and changes nothing. -/
def WritesSafely (devices : Devices) (s : Process) (fd k : Nat) (count : Int) : Prop :=
  ∀ buf, ∃ t ret, sysWrite devices s fd buf count = .ok (t, ret) ∧
    ((∃ n : Nat, 0 < n ∧ ret = n ∧ ∀ i off, byteAt t.files.zones t.files.zone i off =
        if i = (s.file k).fInode ∧ (s.file k).fPos ≤ off ∧ off < (s.file k).fPos + n
        then buf (off - (s.file k).fPos) else byteAt s.files.zones s.files.zone i off) ∨
      (ret < 0 ∧ (t.files.inode (s.file k).fInode).iSize =
          (s.files.inode (s.file k).fInode).iSize ∧
        ∀ i off, byteAt t.files.zones t.files.zone i off =
          byteAt s.files.zones s.files.zone i off))

/-- The position modulo 2^42 has no zone in the file, or is the position, and the write ends below
the greatest size or runs out of zones. -/
def WriteFits (s : Process) (k : Nat) (count : Int) : Prop :=
  let q := s.writeStart k % 2 ^ 42
  q < maxBytes ∧
    (s.files.zones.free.card < s.needs k (q / blockSize) (q / blockSize + 1) ∨
      q = (s.file k).fPos ∧ (q + count ≤ maxBytes ∨
        s.files.zones.free.card < s.needs k (q / blockSize) maxBlocks))

end Process

section Calls

variable {devices : Devices} {s : Process} {fd pos size : Nat}

theorem sysWrite_of_regular (h : s.Regular fd k pos size) (hcount : 0 < count) :
    sysWrite devices s fd buf count = writeFile s k buf count := by
  obtain ⟨hchr, hblk⟩ := isReg_not_device h.reg
  unfold sysWrite
  rw [h.isOpen]
  dsimp only
  rw [if_neg (by omega), if_neg (by omega), h.noPipe, hchr, hblk, if_neg (by decide), h.reg,
    if_pos rfl]

theorem toInt_behind (hbig : maxBytes ≤ p % 2 ^ 42) :
    toInt (p / blockSize : Nat) < 0 ∨ (maxBlocks : Int) ≤ toInt (p / blockSize : Nat) := by
  have hmod : p / blockSize % 2 ^ 32 = p % 2 ^ 42 / 1024 := by
    unfold blockSize
    omega
  have hge : maxBlocks ≤ p / blockSize % 2 ^ 32 := by
    rw [maxBytes_eq] at hbig
    unfold maxBlocks
    omega
  generalize p / blockSize = b at hge
  rw [toInt, Int.bmod_def]
  omega

theorem writeLoop_behind {fuel : Nat} (hbig : maxBytes ≤ p % 2 ^ 42) (hlt : (k : Int) < count) :
    Ensures (writeLoop (blockOf true) buf count (fuel + 1) inode p k) z Q := by
  unfold writeLoop
  rw [if_pos hlt, ensures_bind]
  refine Ensures.imp (Q := fun _ _ => False) ?_ fun _ _ h => h.elim
  unfold blockOf bmapInt
  rcases toInt_behind hbig with hneg | hge
  · rw [if_pos hneg]
    exact ensures_throw
  · rw [if_neg (by unfold maxBlocks at hge; omega), bmap',
      if_pos (by unfold maxBlocks at hge; omega)]
    exact ensures_throw

def written (s : Process) (k : Nat) (inode : Inode) (z : Zones) (filp : Filp) : Process :=
  Process.setFilp { s with files := ⟨z, update s.files.inode (s.file k).fInode inode⟩ } k filp

theorem writeFile_cases (count : Int) (hz : Zoned s.files.zones s.files.zone)
    (hq : s.writeStart k % 2 ^ 42 < maxBytes) (buf : Nat → UInt8) :
    (∃ e, writeFile s k buf count = .error e ∧
      maxBytes < s.writeStart k % 2 ^ 42 + count.toNat ∧
      s.needs k (s.writeStart k % 2 ^ 42 / blockSize) maxBlocks ≤ s.files.zones.free.card) ∨
    ∃ (n : Nat) (inode' : Inode) (z' : Zones) (filp' : Filp),
      writeFile s k buf count = .ok (written s k inode' z' filp', if n = 0 then -1 else (n : Int)) ∧
      Written s.files.zones s.files.zone (s.file k).fInode (s.files.inode (s.file k).fInode) buf
        count.toNat (s.writeStart k % 2 ^ 42) 0
          (s.writeStart k % 2 ^ 42 / blockSize) n inode' z' := by
  have hzone : s.files.zone (s.file k).fInode = (s.files.inode (s.file k).fInode).iZone := rfl
  have hmeets : Meets (fileWrite (s.files.inode (s.file k).fInode) (s.file k).toFilp buf count)
    s.files.zones _ _ := fileWrite_meets hz hzone rfl hq
  unfold writeFile
  dsimp only
  unfold Meets at hmeets
  cases hrun : fileWrite (s.files.inode (s.file k).fInode) (s.file k).toFilp buf count
    s.files.zones with
  | ok r z' =>
    rw [hrun] at hmeets
    obtain ⟨inode', filp', ret⟩ := r
    obtain ⟨n, rfl, hw⟩ := hmeets
    exact .inr ⟨n, inode', z', filp', rfl, hw⟩
  | error e z' =>
    rw [hrun] at hmeets
    exact .inl ⟨e, rfl, hmeets⟩

theorem byteAt_written {filp' : Filp} {q lo n : Nat}
    (hw : Written s.files.zones s.files.zone (s.file k).fInode (s.files.inode (s.file k).fInode) buf
      total q 0 lo n inode' z') (i off : Nat) :
    byteAt (written s k inode' z' filp').files.zones
      (written s k inode' z' filp').files.zone i off =
      if i = (s.file k).fInode ∧ q ≤ off ∧ off < q + n then buf (off - q)
      else byteAt s.files.zones s.files.zone i off := by
  have hzone : (written s k inode' z' filp').files.zone =
      update s.files.zone (s.file k).fInode inode'.iZone := zone_update
  rw [hzone]
  refine (hw.stores.bytes i off).trans ?_
  rw [Nat.zero_add]

theorem needs_le {b : Nat} (hb : b < maxBlocks) : s.needs k b (b + 1) ≤ s.needs k b maxBlocks := by
  refine Finset.card_le_card (Finset.filter_subset_filter _ fun q hq => ?_)
  obtain ⟨b', hlo, hhi, hnode⟩ := mem_slots.mp hq
  exact mem_slots.mpr ⟨b', hlo, by omega, hnode⟩

theorem exists_outside {q pos n : Nat} (hne : q ≠ pos) (hn : 0 < n) :
    ∃ off, q ≤ off ∧ off < q + n ∧ ¬(pos ≤ off ∧ off < pos + n) := by
  by_cases hlt : q < pos
  · exact ⟨q, by omega, by omega, by omega⟩
  · exact ⟨q + n - 1, by omega, by omega, by omega⟩

theorem add_one_ne_self (x : UInt8) : x + 1 ≠ x := by
  intro h
  have hval := congrArg UInt8.toNat h
  change (x.toNat + 1) % 256 = x.toNat at hval
  omega

theorem writeFile_behind {t : Process} {ret : Int} (hbig : maxBytes ≤ s.writeStart k % 2 ^ 42)
    (hcount : 0 < count) : writeFile s k buf count ≠ .ok (t, ret) := by
  intro hrun
  obtain ⟨fuel, hfuel⟩ : ∃ n, count.toNat = n + 1 := ⟨count.toNat - 1, by omega⟩
  have hfile : Ensures (fileWrite (s.files.inode (s.file k).fInode) (s.file k).toFilp buf count)
      s.files.zones fun _ _ => False := by
    unfold fileWrite fileWriteBy
    rw [hfuel, ensures_bind]
    exact writeLoop_behind hbig hcount
  unfold writeFile at hrun
  dsimp only at hrun
  split at hrun
  · rename_i heq
    exact hfile _ _ heq
  · cases hrun

theorem writeFits_of_writesSafely (h : s.Regular fd k pos size)
    (hz : Zoned s.files.zones s.files.zone) (hcount : 0 < count)
    (hsafe : s.WritesSafely devices fd k count) : s.WriteFits k count := by
  by_cases hq : s.writeStart k % 2 ^ 42 < maxBytes
  · -- The bytes to be written differ from those in the file.
    obtain ⟨t, ret, hrun, hres⟩ := hsafe fun j =>
      byteAt s.files.zones s.files.zone (s.file k).fInode (s.writeStart k % 2 ^ 42 + j) + 1
    rw [sysWrite_of_regular h hcount] at hrun
    rcases writeFile_cases count hz hq _ with
      ⟨e, herror, -⟩ | ⟨n, inode', z', filp', hwrite, hw⟩
    · cases herror.symm.trans hrun
    cases hwrite.symm.trans hrun
    refine ⟨hq, ?_⟩
    by_cases h0 : n = 0
    · exact .inl ((hw.first (by omega)).mp h0)
    rcases hres with ⟨n', -, hret, hbytes⟩ | ⟨hneg, -⟩
    · obtain rfl : n = n' := by omega
      refine .inr ⟨?_, ?_⟩
      · -- One of the bytes is stored outside the range that the result stands for.
        by_contra hne
        obtain ⟨off, hge, hlt, hout⟩ := exists_outside hne (Nat.pos_of_ne_zero h0)
        have hbyte := hbytes (s.file k).fInode off
        rw [byteAt_written hw, if_pos ⟨rfl, hge, hlt⟩, if_neg fun hin => hout hin.2,
          Nat.add_sub_cancel' hge] at hbyte
        exact add_one_ne_self _ hbyte
      · by_cases hall : n < count.toNat
        · exact .inr (hw.short hall)
        · have := hw.max
          omega
    · omega
  · obtain ⟨t, ret, hrun, -⟩ := hsafe fun _ => 0
    rw [sysWrite_of_regular h hcount] at hrun
    exact absurd hrun (writeFile_behind (Nat.not_lt.mp hq) hcount)

theorem writesSafely_of_writeFits (h : s.Regular fd k pos size)
    (hz : Zoned s.files.zones s.files.zone) (hcount : 0 < count) (hfits : s.WriteFits k count) :
    s.WritesSafely devices fd k count := by
  obtain ⟨hq, hfits⟩ := hfits
  intro buf
  have hblock := div_lt_of_lt hq
  have hle : s.needs k _ _ ≤ s.needs k _ _ := needs_le hblock
  rw [sysWrite_of_regular h hcount]
  rcases writeFile_cases count hz hq buf with
    ⟨e, -, hbig, hneeds⟩ | ⟨n, inode', z', filp', hrun, hw⟩
  · -- A write that stops the kernel reaches the greatest size.
    rcases hfits with hfirst | ⟨-, hend | hshort⟩
    · omega
    · omega
    · omega
  · refine ⟨_, _, hrun, ?_⟩
    by_cases h0 : n = 0
    · subst h0
      refine .inr ⟨by simp, ?_, fun i off => ?_⟩
      · have hsize : ((written s k inode' z' filp').files.inode (s.file k).fInode) = inode' :=
          update_self ..
        rw [hsize]
        exact hw.size rfl
      · rw [byteAt_written hw, if_neg (by omega)]
    · have hpos : s.writeStart k % 2 ^ 42 = (s.file k).fPos := by
        rcases hfits with hfirst | ⟨hpos, -⟩
        · exact absurd ((hw.first (by omega)).mpr hfirst) h0
        · exact hpos
      refine .inl ⟨n, by omega, if_neg h0, fun i off => ?_⟩
      rw [byteAt_written hw, hpos]

/-- Writes are safe exactly where position and zones allow it. -/
theorem writesSafely_iff (h : s.Regular fd k pos size) (hz : Zoned s.files.zones s.files.zone)
    (hcount : 0 < count) : s.WritesSafely devices fd k count ↔ s.WriteFits k count :=
  ⟨writeFits_of_writesSafely h hz hcount, writesSafely_of_writeFits h hz hcount⟩

end Calls

/-- A process that has an empty file open at the position 2^41. -/
def farWriter : Process where
  files := ⟨{ ones with zmap := fun _ => some fun _ => 1, block := fun _ => clearBlock },
    fun _ => { onesInode 0 with iZone := fun _ => 0 }⟩
  file _ := ⟨⟨0, 2 ^ 41⟩, 3, 0⟩
  filp _ := some 0

theorem farWriter_regular : farWriter.Regular 0 0 (2 ^ 41) 0 :=
  ⟨rfl, rfl, rfl, show isReg 0o100000 = true by decide, rfl,
    show isBlockdev (major 0x301) = true by decide⟩

theorem farWriter_zoned : Zoned farWriter.files.zones farWriter.files.zone := by
  have hvalue : ∀ r path, (forest farWriter.files.zones farWriter.files.zone).value r path = 0 := by
    intro r path
    induction path with
    | nil => rfl
    | cons k path ih => exact value_cons_of_eq ih
  have hpoints : ∀ n, n ≠ 0 → ¬Points depth
    (forest farWriter.files.zones farWriter.files.zone) n := by
    rintro n hn ⟨r, path, -, hv⟩
    exact hn (hv.symm.trans (hvalue r path))
  refine ⟨?_, fun _ _ _ => rfl, fun n hn hp => absurd hp (hpoints n hn), ?_,
    fun n hn hp => absurd hp (hpoints n hn)⟩
  · intro p hp
    cases hp
    decide
  · intro r path r' path' _ _ hne
    exact absurd (hvalue r path) hne

/-- The statement for a write of one byte at the position 2^41. -/
theorem writesSafely_iff_farWriter :
    farWriter.WritesSafely (fun s _ _ => .ok (s, 0, [])) 0 0 1 ↔ farWriter.WriteFits 0 1 :=
  writesSafely_iff farWriter_regular farWriter_zoned (by decide)

/-- A write at 2^41 stops the kernel: the number of the block is negative. -/
theorem farWriter_panics :
    sysWrite (fun s _ _ => .ok (s, 0, [])) farWriter 0 (fun _ => 0) 1 = .error .blockNegative ∧
      ¬farWriter.WritesSafely (fun s _ _ => .ok (s, 0, [])) 0 0 1 := by
  have hneg : toInt (2 ^ 41 / blockSize : Nat) < 0 := by decide
  have hloop : writeLoop (blockOf true) (fun _ => 0) 1 1 (farWriter.files.inode 0) (2 ^ 41) 0
      farWriter.files.zones = .error .blockNegative farWriter.files.zones := by
    rfl
  have hfile : fileWrite (farWriter.files.inode 0) ⟨0, 2 ^ 41⟩ (fun _ => 0) 1
      farWriter.files.zones = .error .blockNegative farWriter.files.zones := by
    have hpos : writePos ⟨0, 2 ^ 41⟩ (farWriter.files.inode 0).iSize = 2 ^ 41 := if_neg (by decide)
    unfold fileWrite fileWriteBy
    change EStateM.bind (writeLoop (blockOf true) (fun _ => 0) 1 1 (farWriter.files.inode 0)
      (writePos ⟨0, 2 ^ 41⟩ (farWriter.files.inode 0).iSize) 0) _ _ = _
    rw [hpos, EStateM.bind, hloop]
  have hrun : sysWrite (fun s _ _ => .ok (s, 0, [])) farWriter 0 (fun _ => 0) 1 =
      .error .blockNegative := by
    rw [sysWrite_of_regular farWriter_regular (by decide)]
    have hsame : fileWrite (farWriter.files.inode (farWriter.file 0).fInode)
        (farWriter.file 0).toFilp (fun _ => 0) 1 farWriter.files.zones =
          .error .blockNegative farWriter.files.zones := hfile
    unfold writeFile
    dsimp only
    rw [hsame]
  refine ⟨hrun, fun hsafe => ?_⟩
  obtain ⟨t, ret, hok, -⟩ := hsafe fun _ => 0
  cases hrun.symm.trans hok

end Linux001.Fs.ReadWrite
