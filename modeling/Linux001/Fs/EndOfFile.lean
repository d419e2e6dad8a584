import Linux001.Fs.ReadWrite

/-! Reads at the end of a file, and `sys_lseek` from the end, as long as the conversions to `int`
keep the values. -/

namespace Linux001.Fs.ReadWrite

open Function ProofKit ProofKit.Forest

namespace Process

/-- `fd` is a regular file of the size `size`, in slot `k`, at `pos`. -/
structure Regular (s : Process) (fd k pos size : Nat) : Prop where
  isOpen : s.lookup fd = some k
  fPos : (s.file k).fPos = pos
  iSize : (s.files.inode (s.file k).fInode).iSize = size
  reg : isReg (s.files.inode (s.file k).fInode).iMode = true
  noPipe : (s.files.inode (s.file k).fInode).iPipe = false
  dev : isBlockdev (major (s.files.inode (s.file k).fInode).iDev) = true

def atPos (s : Process) (k pos : Nat) : Process :=
  s.setFilp k { (s.file k).toFilp with fPos := pos }

def fileBytes (s : Process) (k pos n : Nat) : List UInt8 :=
  (List.range n).map fun j => byteAt s.files.zones s.files.zone (s.file k).fInode (pos + j)

/-- `sys_read` stores the bytes up to the end of the file and advances the position. -/
def ReadsFile (devices : Devices) (s : Process) (fd k pos size count : Nat) : Prop :=
  let n := min (pos + count) size - pos
  sysRead devices s fd count = .ok (s.atPos k (pos + n), n, s.fileBytes k pos n)

/-- `sys_lseek` from the end sets the position, or refuses a negative one. -/
def SeeksEnd (s : Process) (fd k size : Nat) (offset : Int) : Prop :=
  if 0 ≤ size + offset then
    (sysLseek s fd offset 2).1 = s.atPos k (size + offset).toNat ∧
      (sysLseek s fd offset 2).2 ≠ -einval
  else sysLseek s fd offset 2 = (s, -einval)

end Process

/-- The bytes lie below the greatest size, behind the real position. -/
def ReadFits (pos size count : Nat) : Prop :=
  count = 0 ∨ (pos ≤ size ∧ (pos = size ∨ min (pos + count) size ≤ maxBytes)) ∨
    (size < pos ∧ toInt (size - pos) ≤ 0)

/-- The position from the end fits into an `int`, or is negative as an `int` too. -/
def SeekFits (size : Nat) (offset : Int) : Prop :=
  if 0 ≤ size + offset then size + offset < 2 ^ 31 else 2 ^ 31 ≤ (size + offset) % 2 ^ 32

section Conversions

variable {x : Int} {b : Nat}

theorem toInt_of_lt (h0 : 0 ≤ x) (h : x < 2 ^ 31) : toInt x = x := by
  rw [toInt, Int.bmod_def]
  omega

theorem toInt_lt : toInt x < 2 ^ 31 := by
  rw [toInt, Int.bmod_def]
  omega

theorem toInt_nonneg_iff : 0 ≤ toInt x ↔ x % 2 ^ 32 < 2 ^ 31 := by
  rw [toInt, Int.bmod_def]
  omega

theorem toInt_eq_self_iff (h0 : 0 ≤ x) : toInt x = x ↔ x < 2 ^ 31 := by
  rw [toInt, Int.bmod_def]
  omega

theorem toInt_toUlong : toInt (toUlong x) = toInt x := by
  unfold toInt toUlong
  rw [Int.bmod_def, Int.bmod_def]
  omega

theorem toUlong_toLong (h0 : 0 ≤ x) (h : x < 2 ^ 64) : toUlong (toLong x) = x := by
  unfold toUlong toLong
  rw [Int.bmod_def]
  omega

theorem toInt_block (h : b < maxBlocks) : toInt b = b := by
  unfold maxBlocks at h
  exact toInt_of_lt (by omega) (by omega)

theorem bmapInt_natCast {create : Bool} {inode : Inode} :
    bmapInt create inode b = bmap' create inode b := by
  rw [bmapInt, if_neg (by omega), Int.toNat_natCast]

end Conversions

section Read

variable {inode : Inode} {z : Zones} {filp : Filp}

theorem readLoop_eq (fuel : Nat) {left : Nat} (hmax : filp.fPos + left ≤ maxBytes) :
    readLoop (blockOf false) inode fuel filp left = readLoop bmap inode fuel filp left := by
  induction fuel generalizing filp left with
  | zero => rw [readLoop, readLoop]
  | succ fuel ih =>
    unfold readLoop
    by_cases h0 : left = 0
    · rw [if_pos h0, if_pos h0]
    have hlt : filp.fPos / blockSize < maxBlocks := div_lt_of_lt (by omega)
    have hrest : readLoop (blockOf false) inode fuel ⟨filp.fFlags,
        filp.fPos + min (blockSize - filp.fPos % blockSize) left⟩
        (left - min (blockSize - filp.fPos % blockSize) left) = _ :=
      ih (show filp.fPos + _ + _ ≤ maxBytes by omega)
    have hblock : blockOf false inode (filp.fPos / blockSize) =
      bmap inode (filp.fPos / blockSize) := by
      rw [blockOf, toInt_block hlt, bmapInt_natCast, bmap]
    rw [if_neg h0, if_neg h0, hblock]
    simp only [hrest]

theorem fileRead_result {count : Int} (hcount : 0 < count) :
    Ensures (fileRead inode filp count) z fun p _ => p.2.2 = count := by
  unfold fileRead fileReadBy
  rw [if_neg (by omega), ensures_bind]
  intro p t _
  exact ensures_pure.mpr rfl

end Read

section Calls

variable {devices : Devices} {s : Process} {fd k pos size count : Nat} {offset : Int}

theorem isReg_not_device {mode : Nat} (h : isReg mode = true) :
    isChr mode = false ∧ isBlk mode = false := by
  have hmode : mode &&& 0o170000 = 0o100000 := beq_iff_eq.mp h
  constructor
  · rw [isChr, hmode]
    rfl
  · rw [isBlk, hmode]
    rfl

theorem sysRead_of_regular (h : s.Regular fd k pos size) (hcount : 0 < count) :
    sysRead devices s fd count = readFile s k (clampCount count pos size) := by
  obtain ⟨hchr, hblk⟩ := isReg_not_device h.reg
  unfold sysRead
  rw [h.isOpen]
  dsimp only
  rw [if_neg (by omega), if_neg (by omega), h.noPipe, hchr, hblk, if_neg (by decide), h.reg,
    Bool.or_true, if_pos rfl, h.fPos, h.iSize]

theorem clampCount_of_le (hcount : count < 2 ^ 31) (hpos : pos < 2 ^ 63) (hle : pos ≤ size) :
    clampCount count pos size = (min (pos + count) size - pos : Nat) := by
  unfold clampCount
  rw [toUlong_toLong (by omega) (by omega), toInt_toUlong]
  split
  · rw [toInt_of_lt (by omega) (by omega)]
    omega
  · omega

theorem clampCount_of_lt (hcount : count < 2 ^ 31) (hpos : pos < 2 ^ 63) (hlt : size < pos) :
    clampCount count pos size = toInt (size - pos) := by
  unfold clampCount
  rw [toUlong_toLong (by omega) (by omega), toInt_toUlong, if_pos (by omega)]

section
variable (h : s.Regular fd k pos size)
include h

theorem atPos_self : s.atPos k pos = s := by
  obtain rfl := h.fPos
  unfold Process.atPos Process.setFilp
  rw [update_eq_self]

theorem readsFile_of_nothing (hn : min (pos + count) size - pos = 0)
    (hread : sysRead devices s fd count = .ok (s, 0, [])) :
    s.ReadsFile devices fd k pos size count := by
  unfold Process.ReadsFile
  dsimp only
  rw [hn, hread, Nat.add_zero, atPos_self h]
  rfl

theorem readsFile_of_le (hcount : count < 2 ^ 31)
    (hpos : pos < 2 ^ 63) (hle : pos ≤ size) (hn : 0 < min (pos + count) size - pos)
    (hmax : min (pos + count) size ≤ maxBytes) : s.ReadsFile devices fd k pos size count := by
  have hclamp := clampCount_of_le hcount hpos hle
  generalize hneq : min (pos + count) size - pos = n at hn hclamp
  have hzone : s.files.zone (s.file k).fInode = (s.files.inode (s.file k).fInode).iZone := rfl
  have hloop := readLoop_returns (z := s.files.zones) hzone n (Nat.le_refl n)
    (show (s.file k).fPos + n ≤ maxBytes by rw [h.fPos]; omega)
  rw [← readLoop_eq n (by rw [h.fPos]; omega)] at hloop
  obtain ⟨p, z', hrun, rfl, rfl⟩ := hloop
  have hread : fileRead (s.files.inode (s.file k).fInode) (s.file k).toFilp n s.files.zones =
      .ok ({ (s.file k).toFilp with fPos := (s.file k).fPos + n },
        (List.range n).map fun j =>
          byteAt s.files.zones s.files.zone (s.file k).fInode ((s.file k).fPos + j), n)
        s.files.zones := by
    unfold fileRead fileReadBy
    rw [if_neg (by omega), Int.toNat_natCast, bind_of_eq hrun]
    rfl
  unfold Process.ReadsFile
  rw [sysRead_of_regular h (by omega), hclamp, readFile, if_neg (by omega), hread, hneq, h.fPos]
  rfl

theorem readsFile_of_fits (hcount : count < 2 ^ 31)
    (hpos : pos < 2 ^ 63) (hfits : ReadFits pos size count) :
    s.ReadsFile devices fd k pos size count := by
  by_cases h0 : count = 0
  · subst h0
    refine readsFile_of_nothing h (by omega) ?_
    unfold sysRead
    rw [h.isOpen]
    rfl
  rcases hfits with hzero | ⟨hle, hend⟩ | ⟨hlt, hneg⟩
  · exact absurd hzero h0
  · by_cases hn : min (pos + count) size - pos = 0
    · refine readsFile_of_nothing h hn ?_
      rw [sysRead_of_regular h (by omega), clampCount_of_le hcount hpos hle, hn]
      rfl
    · exact readsFile_of_le h hcount hpos hle (by omega) (by omega)
  · refine readsFile_of_nothing h (by omega) ?_
    rw [sysRead_of_regular h (by omega), clampCount_of_lt hcount hpos hlt, readFile, if_pos hneg]

end

theorem readFile_result {count ret : Int} {t : Process} {bytes : List UInt8} (hcount : 0 < count)
    (h : readFile s k count = .ok (t, ret, bytes)) : ret = count := by
  unfold readFile at h
  rw [if_neg (by omega)] at h
  split at h
  · rename_i filp bytes' ret' z heq
    have hresult := fileRead_result hcount _ _ heq
    cases h
    exact hresult
  · cases h

theorem not_readsFile_of_behind (h : s.Regular fd k pos size) (hpos : pos < 2 ^ 63)
    (hcount : count < 2 ^ 31) (h0 : count ≠ 0) (hlt : size < pos)
    (hwrap : 0 < toInt (size - pos)) : ¬s.ReadsFile devices fd k pos size count := by
  intro hread
  unfold Process.ReadsFile at hread
  rw [sysRead_of_regular h (by omega), clampCount_of_lt hcount hpos hlt] at hread
  have hresult := readFile_result hwrap hread
  omega

theorem sysLseek_of_regular (h : s.Regular fd k pos size) :
    sysLseek s fd offset 2 =
      if toInt (size + offset) < 0 then (s, -einval)
      else (s.atPos k (toInt (size + offset)).toNat, toInt (toInt (size + offset)).toNat) := by
  unfold sysLseek
  rw [h.isOpen]
  dsimp only
  rw [h.dev, h.noPipe, h.iSize, h.fPos, if_neg (by decide), if_neg (by decide), seekTo,
    if_neg (by decide), if_neg (by decide), if_pos rfl, toInt_toUlong]
  by_cases hneg : toInt (size + offset) < 0
  · rw [if_pos hneg, if_pos hneg]
  · rw [if_neg hneg, if_neg hneg]
    rfl

theorem atPos_fPos : ((s.atPos k pos).file k).fPos = pos := by
  have hfile : (s.atPos k pos).file k = { s.file k with fPos := pos } := update_self ..
  rw [hfile]

theorem seeksEnd_iff (h : s.Regular fd k pos size) :
    s.SeeksEnd fd k size offset ↔ SeekFits size offset := by
  have hlt : toInt (size + offset) < 2 ^ 31 := toInt_lt
  have hneg := toInt_nonneg_iff (x := size + offset)
  unfold Process.SeeksEnd SeekFits
  rw [sysLseek_of_regular h]
  by_cases h0 : 0 ≤ size + offset
  · rw [if_pos h0, if_pos h0, ← toInt_eq_self_iff h0]
    by_cases htmp : toInt (size + offset) < 0
    · rw [if_pos htmp]
      exact iff_of_false (fun hseek => hseek.2 rfl) (by omega)
    have hret : toInt (toInt (size + offset)).toNat = (toInt (size + offset)).toNat :=
      toInt_of_lt (by omega) (by omega)
    rw [if_neg htmp, hret]
    constructor
    · intro hseek
      have hpos := congrArg (fun t : Process => (t.file k).fPos) hseek.1
      simp only [atPos_fPos] at hpos
      omega
    · intro heq
      rw [heq]
      unfold einval
      exact ⟨rfl, by omega⟩
  · rw [if_neg h0, if_neg h0]
    by_cases htmp : toInt (size + offset) < 0
    · rw [if_pos htmp]
      exact iff_of_true rfl (by omega)
    have hret : toInt (toInt (size + offset)).toNat = (toInt (size + offset)).toNat :=
      toInt_of_lt (by omega) (by omega)
    rw [if_neg htmp, hret]
    refine iff_of_false (fun hseek => ?_) (by omega)
    have hsnd := congrArg Prod.snd hseek
    simp only [einval] at hsnd
    omega

end Calls

section Ones

/-- A file in which every pointer is to a block whose bytes are all 1. -/
def onesInode (size : Nat) : Inode where
  iMode := 0o100000
  iUid := 0
  iSize := size
  iGid := 0
  iNlinks := 1
  iZone _ := 257
  iDev := 0x301
  iNum := 2
  iCount := 1
  iDirt := false
  iPipe := false

def ones : Zones where
  sb := oneZone
  zmap _ := none
  block _ _ := 1
  count _ := 0

theorem value_ones {size : Nat} {r : Nat × Fin 9} {path : List (Fin 512)} :
    (forest ones fun _ => (onesInode size).iZone).value r path = 257 := by
  induction path with
  | nil => rfl
  | cons k path ih =>
    rw [value_cons_of_ne (by rw [ih]; decide), ih]
    rfl

theorem bmapInt_ones {size : Nat} {block : Int} :
    Ensures (bmapInt false (onesInode size) block) ones fun p z => p.2 = 257 ∧ z = ones := by
  refine ensures_ite.mpr ⟨fun _ => ensures_throw, fun _ => ?_⟩
  by_cases hlt : block.toNat < maxBlocks
  · have hbmap := @bmap_returns Nat ones (fun _ => (onesInode size).iZone) 0 _ (onesInode size) rfl
      hlt
    refine hbmap.ensures.imp ?_
    rintro p z ⟨rfl, rfl⟩
    exact ⟨value_ones, rfl⟩
  · unfold bmap'
    rw [if_pos (by unfold maxBlocks at hlt; omega)]
    exact ensures_throw

theorem slice_ones {off n : Nat} : slice (fun _ => 1) off n = List.replicate n 1 := by
  unfold slice
  rw [List.map_const', List.length_range]

theorem readLoop_ones {size : Nat} (fuel : Nat) {filp : Filp} {left : Nat} (hfuel : left ≤ fuel) :
    Ensures (readLoop (blockOf false) (onesInode size) fuel filp left) ones fun p z =>
      p.2 = List.replicate left 1 ∧ z = ones := by
  induction fuel generalizing filp left with
  | zero =>
    obtain rfl : left = 0 := by omega
    exact ensures_pure.mpr ⟨rfl, rfl⟩
  | succ fuel ih =>
    refine ensures_ite.mpr ⟨fun h0 => ?_, fun h0 => ?_⟩
    · subst h0
      exact ensures_pure.mpr ⟨rfl, rfl⟩
    refine bmapInt_ones.bind ?_
    rintro ⟨inode, nr⟩ z ⟨hnr, rfl⟩
    have hnr : nr = 257 := hnr
    have hmod : filp.fPos % blockSize < blockSize := Nat.mod_lt _ (by decide)
    obtain ⟨chars, hchars⟩ : ∃ n, n = min (blockSize - filp.fPos % blockSize) left := ⟨_, rfl⟩
    simp only [← hchars]
    have hrel : Returns (brelse 257) (ones.hold 257) fun _ z => z = ones :=
      (brelse_returns (count_ne_zero_of_hold rfl)).mpr release_hold
    rw [hnr, if_neg (by decide), ensures_bind, bread, ensures_modify, ensures_bind, ensures_get,
      ensures_bind]
    refine hrel.ensures.imp ?_
    rintro - z rfl
    refine (ih (by omega)).bind ?_
    rintro ⟨filp', rest⟩ z ⟨hrest, rfl⟩
    have hrest : rest = List.replicate (left - chars) 1 := hrest
    have hleft : chars + (left - chars) = left := by omega
    rw [ensures_pure]
    refine ⟨?_, rfl⟩
    change slice (fun _ => 1) _ chars ++ rest = _
    rw [hrest, slice_ones, List.replicate_append_replicate, hleft]

def onesProcess (pos size : Nat) : Process where
  files := ⟨ones, fun _ => onesInode size⟩
  file _ := ⟨⟨0, pos⟩, 1, 0⟩
  filp _ := some 0

theorem onesProcess_regular {fd pos size : Nat} (hfd : fd < nrOpen) :
    (onesProcess pos size).Regular fd 0 pos size where
  isOpen := if_neg (Nat.not_le.mpr hfd)
  fPos := rfl
  iSize := rfl
  reg := show isReg 0o100000 = true by decide
  noPipe := rfl
  dev := show isBlockdev (major 0x301) = true by decide

theorem readFile_ones {pos size : Nat} {count ret : Int} {t : Process} {bytes : List UInt8}
    (hcount : 0 < count) (h : readFile (onesProcess pos size) 0 count = .ok (t, ret, bytes)) :
    bytes = List.replicate count.toNat 1 := by
  have hread : Ensures (fileRead (onesInode size) ⟨0, pos⟩ count) ones fun p _ =>
      p.2.1 = List.replicate count.toNat 1 := by
    unfold fileRead fileReadBy
    rw [if_neg (by omega)]
    refine (readLoop_ones _ (Nat.le_refl _)).bind fun p z hp => ?_
    exact ensures_pure.mpr hp.1
  unfold readFile at h
  rw [if_neg (by omega)] at h
  split at h
  · rename_i filp bytes' ret' z heq
    have hresult := hread _ _ heq
    cases h
    exact hresult
  · cases h

end Ones

/-- The file of ones is read wrongly where a conversion changes a value. -/
theorem readFits_of_ones {devices : Devices} {fd pos size count : Nat} (hfd : fd < nrOpen)
    (hpos : pos < 2 ^ 63) (hcount : count < 2 ^ 31)
    (h : (onesProcess pos size).ReadsFile devices fd 0 pos size count) :
    ReadFits pos size count := by
  by_contra hnot
  unfold ReadFits at hnot
  rw [not_or, not_or, not_and, not_and, not_or] at hnot
  obtain ⟨h0, hbefore, hbehind⟩ := hnot
  have hreg : (onesProcess pos size).Regular fd 0 pos size := onesProcess_regular hfd
  by_cases hle : pos ≤ size
  · unfold Process.ReadsFile at h
    rw [sysRead_of_regular hreg (by omega), clampCount_of_le hcount hpos hle] at h
    generalize hn : min (pos + count) size - pos = n at h
    have hbytes := readFile_ones (by omega) h
    have hmem : byteAt ones (fun _ : Nat => (onesInode size).iZone) 0 (pos + (n - 1)) ∈
        (onesProcess pos size).fileBytes 0 pos n :=
      List.mem_map.mpr ⟨n - 1, List.mem_range.mpr (by omega), rfl⟩
    rw [hbytes, byteAt, if_neg (by omega)] at hmem
    exact absurd (List.eq_of_mem_replicate hmem) (by decide)
  · exact not_readsFile_of_behind hreg hpos hcount h0 (by omega) (by omega) h

/-- `sys_read` and `sys_lseek` are right exactly where conversions keep values. -/
theorem endOfFile_iff (devices : Devices) {fd pos size count : Nat} {offset : Int}
    (hfd : fd < nrOpen) (hpos : pos < 2 ^ 63) (hcount : count < 2 ^ 31) :
    ((∀ (s : Process) k, s.Regular fd k pos size → s.ReadsFile devices fd k pos size count) ↔
        ReadFits pos size count) ∧
      ((∀ (s : Process) k, s.Regular fd k pos size → s.SeeksEnd fd k size offset) ↔
        SeekFits size offset) := by
  have hreg : (onesProcess pos size).Regular fd 0 pos size := onesProcess_regular hfd
  refine ⟨⟨fun hall => ?_, fun hfits s k h => ?_⟩, ⟨fun hall => ?_, fun hfits s k h => ?_⟩⟩
  · exact readFits_of_ones hfd hpos hcount (hall _ _ hreg)
  · exact readsFile_of_fits h hcount hpos hfits
  · exact (seeksEnd_iff hreg).mp (hall _ _ hreg)
  · exact (seeksEnd_iff h).mpr hfits

/-- The statement for a read and a seek in a file of ten bytes. -/
theorem endOfFile_iff_tenBytes :
    ((∀ (s : Process) k, s.Regular 0 k 4 10 →
        s.ReadsFile (fun s _ _ => .ok (s, 0, [])) 0 k 4 10 100) ↔ ReadFits 4 10 100) ∧
      ((∀ (s : Process) k, s.Regular 0 k 4 10 → s.SeeksEnd 0 k 10 (-20)) ↔ SeekFits 10 (-20)) :=
  endOfFile_iff _ (by decide) (by decide) (by decide)

/-- A process with a file of ten bytes, all a hole, at the position 2^42. -/
def tenBytes : Process where
  files := ⟨{ ones with zmap := fun _ => some fun _ => 1, block := fun _ => clearBlock },
    fun _ => { onesInode 10 with iZone := fun _ => 0 }⟩
  file _ := ⟨⟨0, 2 ^ 42⟩, 1, 0⟩
  filp _ := some 0

/-- A read of one byte at 2^42 stores ten; a seek to 2^32 behind the end stays. -/
theorem tenBytes_wrong :
    tenBytes.Regular 0 0 (2 ^ 42) 10 ∧
      ¬tenBytes.ReadsFile (fun s _ _ => .ok (s, 0, [])) 0 0 (2 ^ 42) 10 1 ∧
      ¬tenBytes.SeeksEnd 0 0 10 (2 ^ 32) := by
  have hreg : tenBytes.Regular 0 0 (2 ^ 42) 10 :=
    ⟨rfl, rfl, rfl, show isReg 0o100000 = true by decide, rfl,
      show isBlockdev (major 0x301) = true by decide⟩
  refine ⟨hreg, not_readsFile_of_behind hreg (by decide) (by decide) (by decide) (by decide)
    (by decide), fun hseek => ?_⟩
  have hfits := (seeksEnd_iff hreg).mp hseek
  revert hfits
  unfold SeekFits
  decide

end Linux001.Fs.ReadWrite
