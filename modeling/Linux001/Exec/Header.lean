import Linux001.ProofKit.Sizes

/-! The header of an executable in `do_execve` of `fs/exec.c`: the checks, and the sizes that are
taken from a header that passes them. -/

namespace Linux001.Exec

def blockSize : Nat := 1024

def zmagic : BitVec 64 := 0o413

structure Header where
  aMagic : BitVec 64
  aText : BitVec 32
  aData : BitVec 32
  aBss : BitVec 32
  aSyms : BitVec 32
  aEntry : BitVec 32
  aTrsize : BitVec 32
  aDrsize : BitVec 32

/-- The size of `struct exec`, with four bytes behind the last field. -/
def headerSize : BitVec 64 := 40

namespace Header

variable (ex : Header)

def nTxtoff : BitVec 64 :=
  if ex.aMagic = zmagic then 1024 - headerSize + headerSize else headerSize

/-- Where `do_execve` returns `-ENOEXEC`: sums of `unsigned`, but the last operand has 64 bits. -/
def refused (iSize : BitVec 64) : Bool :=
  ex.aMagic != zmagic || ex.aTrsize != 0 || ex.aDrsize != 0 ||
    decide (0x3000000 < ex.aText + ex.aData + ex.aBss) ||
    decide (iSize < (ex.aText + ex.aData + ex.aSyms).setWidth 64 + ex.nTxtoff)

end Header

inductive Outcome
  | noexec
  /-- "N_TXTOFF != BLOCK_SIZE. See a.out.h." -/
  | panic
  | passed
  deriving DecidableEq

def checkHeader (ex : Header) (iSize : BitVec 64) : Outcome :=
  if ex.refused iSize then .noexec
  else if ex.nTxtoff ≠ BitVec.ofNat 64 blockSize then .panic
  else .passed

/-- The fields of the task set from the header, and the size to read. -/
structure Sizes where
  endCode : BitVec 64
  endData : BitVec 64
  brk : BitVec 64
  area : BitVec 64

/-- `end_code`, `end_data` and `brk`, of 64 bits, and a sum of 32 bits. -/
def sizes (ex : Header) : Sizes :=
  let endCode := ex.aText.setWidth 64
  let endData := ex.aData.setWidth 64 + endCode
  { endCode
    endData
    brk := ex.aBss.setWidth 64 + endData
    area := (ex.aText + ex.aData).setWidth 64 }

namespace Header

def image (ex : Header) : Nat := ex.aText.toNat + ex.aData.toNat + ex.aBss.toNat

def symbols (ex : Header) : Nat := ex.aText.toNat + ex.aData.toNat + ex.aSyms.toNat

/-- The sizes fit into the memory and the file, and are used. -/
structure Sound (ex : Header) (iSize : BitVec 64) : Prop where
  fits : ex.image ≤ 0x3000000
  inFile : ex.symbols + blockSize ≤ iSize.toNat
  area : (sizes ex).area.toNat = ex.aText.toNat + ex.aData.toNat
  endCode : (sizes ex).endCode.toNat = ex.aText.toNat
  endData : (sizes ex).endData.toNat = ex.aText.toNat + ex.aData.toNat
  brk : (sizes ex).brk.toNat = ex.image
  ordered : (sizes ex).endCode ≤ (sizes ex).endData ∧ (sizes ex).endData ≤ (sizes ex).brk ∧
    (sizes ex).brk ≤ 0x3000000

/-- A header in which a sum of 32 bits overflows to a small value. -/
def Overflows (ex : Header) (iSize : BitVec 64) : Prop :=
  ex.aMagic = zmagic ∧ ex.aTrsize = 0 ∧ ex.aDrsize = 0 ∧
    ex.image % 2 ^ 32 ≤ 0x3000000 ∧ ex.symbols % 2 ^ 32 + blockSize ≤ iSize.toNat ∧
    (2 ^ 32 ≤ ex.image ∨ 2 ^ 32 ≤ ex.symbols ∧ iSize.toNat < ex.symbols + blockSize)

end Header

variable {ex : Header} {iSize : BitVec 64}

theorem toNat_sum {a b c : BitVec 32} :
    (a + b + c).toNat = (a.toNat + b.toNat + c.toNat) % 2 ^ 32 := by
  rw [BitVec.toNat_add, BitVec.toNat_add, Nat.mod_add_mod]

theorem toNat_setWidth_64 (a : BitVec 32) : (a.setWidth 64).toNat = a.toNat := by
  rw [BitVec.toNat_setWidth]
  exact Nat.mod_eq_of_lt (by have := a.isLt; omega)

theorem nTxtoff_of_zmagic (hm : ex.aMagic = zmagic) : ex.nTxtoff = BitVec.ofNat 64 blockSize := by
  rw [Header.nTxtoff, if_pos hm]
  decide

theorem refused_eq_false_iff : ex.refused iSize = false ↔
    ex.aMagic = zmagic ∧ ex.aTrsize = 0 ∧ ex.aDrsize = 0 ∧
      ¬(0x3000000 < ex.aText + ex.aData + ex.aBss) ∧
      ¬(iSize < (ex.aText + ex.aData + ex.aSyms).setWidth 64 + ex.nTxtoff) := by
  simp only [Header.refused, Bool.or_eq_false_iff, bne_eq_false_iff_eq, decide_eq_false_iff_not,
    and_assoc]

theorem image_le_iff : ¬(0x3000000 < ex.aText + ex.aData + ex.aBss) ↔
    ex.image % 2 ^ 32 ≤ 0x3000000 := by
  rw [BitVec.lt_def, toNat_sum, Nat.not_lt]
  exact Iff.rfl

theorem symbols_le_iff (hm : ex.aMagic = zmagic) :
    ¬(iSize < (ex.aText + ex.aData + ex.aSyms).setWidth 64 + ex.nTxtoff) ↔
      ex.symbols % 2 ^ 32 + blockSize ≤ iSize.toNat := by
  have hsum : ((ex.aText + ex.aData + ex.aSyms).setWidth 64 + ex.nTxtoff).toNat =
      ex.symbols % 2 ^ 32 + blockSize := by
    rw [BitVec.toNat_add, toNat_setWidth_64, toNat_sum, nTxtoff_of_zmagic hm]
    exact Nat.mod_eq_of_lt (show ex.symbols % 2 ^ 32 + 1024 < 2 ^ 64 by omega)
  rw [BitVec.lt_def, hsum, Nat.not_lt]

theorem passed_iff : checkHeader ex iSize = .passed ↔
    ex.aMagic = zmagic ∧ ex.aTrsize = 0 ∧ ex.aDrsize = 0 ∧
      ex.image % 2 ^ 32 ≤ 0x3000000 ∧ ex.symbols % 2 ^ 32 + blockSize ≤ iSize.toNat := by
  constructor
  · intro h
    have hr : ex.refused iSize = false := by
      by_contra hr
      rw [checkHeader, if_pos (Bool.not_eq_false _ ▸ hr)] at h
      cases h
    obtain ⟨hm, htr, hdr, himage, hsymbols⟩ := refused_eq_false_iff.mp hr
    exact ⟨hm, htr, hdr, image_le_iff.mp himage, (symbols_le_iff hm).mp hsymbols⟩
  · rintro ⟨hm, htr, hdr, himage, hsymbols⟩
    have hr : ex.refused iSize = false := refused_eq_false_iff.mpr
      ⟨hm, htr, hdr, image_le_iff.mpr himage, (symbols_le_iff hm).mpr hsymbols⟩
    rw [checkHeader, hr, if_neg Bool.false_ne_true, if_neg (not_not_intro (nTxtoff_of_zmagic hm))]

theorem toNat_endCode : (sizes ex).endCode.toNat = ex.aText.toNat := toNat_setWidth_64 _

theorem toNat_endData : (sizes ex).endData.toNat = ex.aText.toNat + ex.aData.toNat := by
  show (ex.aData.setWidth 64 + ex.aText.setWidth 64).toNat = _
  rw [BitVec.toNat_add, toNat_setWidth_64, toNat_setWidth_64]
  omega

theorem toNat_brk : (sizes ex).brk.toNat = ex.image := by
  show (ex.aBss.setWidth 64 + (sizes ex).endData).toNat = _
  rw [BitVec.toNat_add, toNat_setWidth_64, toNat_endData, Header.image]
  omega

theorem toNat_area : (sizes ex).area.toNat = (ex.aText.toNat + ex.aData.toNat) % 2 ^ 32 := by
  show ((ex.aText + ex.aData).setWidth 64).toNat = _
  rw [toNat_setWidth_64, BitVec.toNat_add]

theorem sound_of_le (hfits : ex.image ≤ 0x3000000) (hfile : ex.symbols + blockSize ≤ iSize.toNat) :
    ex.Sound iSize := by
  have himage : ex.image = ex.aText.toNat + ex.aData.toNat + ex.aBss.toNat := rfl
  refine ⟨hfits, hfile, ?_, toNat_endCode, toNat_endData, toNat_brk, ?_, ?_, ?_⟩
  · rw [toNat_area, Nat.mod_eq_of_lt (by omega)]
  · rw [BitVec.le_def, toNat_endCode, toNat_endData]
    omega
  · rw [BitVec.le_def, toNat_endData, toNat_brk]
    omega
  · rw [BitVec.le_def, toNat_brk]
    exact hfits

/-- A header that passes has its sizes, exactly when no sum overflows to a small value. -/
theorem sound_iff_not_overflows (ex : Header) (iSize : BitVec 64) :
    (checkHeader ex iSize = .passed → ex.Sound iSize) ↔ ¬ex.Overflows iSize := by
  rw [passed_iff]
  constructor
  · rintro h ⟨hm, htr, hdr, himage, hsymbols, hwrap⟩
    have hsound := h ⟨hm, htr, hdr, himage, hsymbols⟩
    have hfits := hsound.fits
    have hfile := hsound.inFile
    omega
  · rintro h ⟨hm, htr, hdr, himage, hsymbols⟩
    have hnot : ¬(2 ^ 32 ≤ ex.image ∨ 2 ^ 32 ≤ ex.symbols ∧ iSize.toNat < ex.symbols + blockSize) :=
      fun hwrap => h ⟨hm, htr, hdr, himage, hsymbols, hwrap⟩
    have hfits : ex.image ≤ 0x3000000 := by omega
    have hfile : ex.symbols + blockSize ≤ iSize.toNat := by omega
    exact sound_of_le hfits hfile

/-- The text has nearly 4 GB, and with the data the sum is 0. -/
def overflowing : Header := ⟨zmagic, 0xFFFFF000, 0x1000, 0, 0, 0, 0, 0⟩

/-- A file of one block passes the checks with a text of nearly 4 GB. -/
theorem overflowing_not_sound :
    checkHeader overflowing 1024 = .passed ∧ ¬overflowing.Sound 1024 := by
  refine ⟨by decide, fun h => ?_⟩
  have hfits := h.fits
  revert hfits
  decide

end Linux001.Exec
