import Linux001.Fs.ByteFiles

/-! `read_head`, `read_ind` and `read_area` of `fs/exec.c`, which load the blocks of an executable
behind its header.  They are compared with `file_read`. -/

namespace Linux001.Exec.Area

open Function ProofKit ProofKit.Forest Fs

structure Loader where
  zones : Zones
  unreadable : Nat → Bool
  mem : Nat → UInt8

inductive Stop
  | zones (p : Panic)
  /-- "size<=0 in read_ind" -/
  | indSize
  /-- "Impossibly long executable" -/
  | longExecutable
  deriving DecidableEq

abbrev LoadM := EStateM Stop Loader

instance : OnDevice Stop Loader where
  zones := Loader.zones
  withZones s z := { s with zones := z }
  panic := .zones

def bread (block : Nat) : LoadM Bool := breadOr (fun s => (s.unreadable block, s)) block

def brelse (block : Nat) : LoadM Unit := onZones (Fs.brelse block)

def place (mem : Nat → UInt8) (data : Block) (off : Nat) : Nat → UInt8 :=
  fun a => if off ≤ a ∧ a < off + Fs.blockSize then data (a - off) else mem a

def cpBlock (block off : Nat) : LoadM Unit :=
  modify fun s => { s with mem := place s.mem (s.zones.block block) off }

def copyIn (block off : Nat) : LoadM Bool :=
  if block = 0 then pure true
  else do
    if ← bread block then
      cpBlock block off
      brelse block
      pure true
    else pure false

def headLoop (inode : Inode) : Nat → Nat → LoadM Int
  | 0, _ => pure 0
  | n + 1, count => do
    if ← copyIn (inode.iZone (count + 1)) (count * Fs.blockSize) then headLoop inode n (count + 1)
    else pure (-1)

def readHead (inode : Inode) (blocks : Nat) : LoadM Int := headLoop inode (min blocks 6) 0

def indLoop (ind : Nat) : Nat → Nat → Int → Nat → LoadM Int
  | 0, _, _, _ => pure 0
  | fuel + 1, k, size, offset =>
    if 0 < size then do
      let s ← get
      if ← copyIn (entry (s.zones.block ind) k) offset then
        indLoop ind fuel (k + 1) (size - Fs.blockSize) (offset + Fs.blockSize)
      else pure (-1)
    else pure 0

/-- `read_ind`.  A size of at most 512 blocks has at most 512 rounds. -/
def readInd (ind : Nat) (size : Int) (offset : Nat) : LoadM Int :=
  if size ≤ 0 then throw .indSize
  else if ind = 0 then pure 0
  else do
    if ← bread ind then
      let r ← indLoop ind 512 0 (min size (512 * Fs.blockSize)) offset
      brelse ind
      pure r
    else pure (-1)

def dindLoop (dind : Nat) : Nat → Nat → Int → LoadM Int
  | 0, _, _ => throw .longExecutable
  | n + 1, count, size => do
    let s ← get
    let i ← readInd (entry (s.zones.block dind) count) size (Fs.blockSize * (518 + count))
    let size := size - Fs.blockSize * 512
    if i ≠ 0 ∨ size ≤ 0 then pure i else dindLoop dind n (count + 1) size

/-- `read_area`.  The buffer of `i_zone[8]` is not released. -/
def readArea (inode : Inode) (size : Int) : LoadM Int := do
  let i ← readHead inode ((size + Fs.blockSize - 1) / Fs.blockSize).toNat
  let size := size - Fs.blockSize * 6
  if i ≠ 0 ∨ size ≤ 0 then pure i
  else
    let i ← readInd (inode.iZone 7) size (Fs.blockSize * 6)
    let size := size - Fs.blockSize * 512
    if i ≠ 0 ∨ size ≤ 0 then pure i
    else if inode.iZone 8 = 0 then pure 0
    else if ← bread (inode.iZone 8) then dindLoop (inode.iZone 8) 512 0 size
    else pure (-1)

def fileZone (z : Zones) (inode : Inode) (block : Nat) : Nat :=
  zoneOf z (fun _ : Unit => inode.iZone) () block

def loadOffset (block : Nat) : Nat :=
  if block < 519 then Fs.blockSize * (block - 1)
  else Fs.blockSize * (518 + (block - 519) / 512 + (block - 519) % 512)

def loadBlock (z : Zones) (inode : Inode) (block : Nat) (mem : Nat → UInt8) : Nat → UInt8 :=
  if fileZone z inode block = 0 then mem
  else place mem (z.block (fileZone z inode block)) (loadOffset block)

def loadBlocks (z : Zones) (inode : Inode) : Nat → Nat → (Nat → UInt8) → Nat → UInt8
  | _, 0, mem => mem
  | block, n + 1, mem => loadBlocks z inode (block + 1) n (loadBlock z inode block mem)

def blocksOf (size : Int) : Nat := ((size + Fs.blockSize - 1) / Fs.blockSize).toNat

section Zones

variable {z : Zones} {inode : Inode} {b k : Nat} {c : Nat}

theorem fileZone_direct (hb : b < 7) : fileZone z inode b = inode.iZone b := by
  rw [fileZone, zoneOf, slot, dif_pos hb]
  rfl

theorem fileZone_single (hk : k < 512) : fileZone z inode (7 + k) =
    if inode.iZone 7 = 0 then 0 else entry (z.block (inode.iZone 7)) k := by
  have hslot : slot (7 + k) = (⟨7, by decide⟩, [⟨k, hk⟩]) := by
    rw [slot, dif_neg (by omega), dif_pos (by omega)]
    simp
  rw [fileZone, zoneOf, hslot]
  rfl

theorem fileZone_double (hc : c < 512) (hk : k < 512) :
    fileZone z inode (519 + 512 * c + k) =
      if inode.iZone 8 = 0 then 0
      else if entry (z.block (inode.iZone 8)) c = 0 then 0
      else entry (z.block (entry (z.block (inode.iZone 8)) c)) k := by
  obtain ⟨lo, hi, hslot, hlo, hhi⟩ := slot_double (show 7 + 512 ≤ 519 + 512 * c + k by omega)
    (by unfold maxBlocks; omega)
  obtain rfl : k = lo := by omega
  obtain rfl : c = hi := by omega
  rw [fileZone, zoneOf, hslot]
  by_cases h8 : inode.iZone 8 = 0
  · rw [if_pos h8]
    exact value_cons_of_eq (value_cons_of_eq h8)
  · rw [if_neg h8]
    have htop : (forest z fun _ : Unit => inode.iZone).value ((), ⟨8, by decide⟩) [hi] =
        entry (z.block (inode.iZone 8)) hi := value_cons_of_ne h8
    rw [value_cons, htop]
    rfl

theorem loadOffset_double (hk : k < 512) :
    loadOffset (519 + 512 * c + k) = Fs.blockSize * (518 + c) + Fs.blockSize * k := by
  have hsum : 518 + (519 + 512 * c + k - 519) / 512 + (519 + 512 * c + k - 519) % 512 =
      518 + c + k := by omega
  rw [loadOffset, if_neg (by omega), hsum, Nat.mul_add]

theorem loadOffset_single (hk : k < 512) :
    loadOffset (7 + k) = Fs.blockSize * 6 + Fs.blockSize * k := by
  rw [loadOffset, if_pos (by omega), ← Nat.mul_add, show 7 + k - 1 = 6 + k by omega]

end Zones

section Loading

variable {s : Loader} {inode : Inode} {n m b k : Nat} {size : Int} {z : Zones} {mem : Nat → UInt8}

def Loader.withMem (s : Loader) (mem : Nat → UInt8) : Loader := { s with mem }

theorem bread_eq (hs : s.unreadable = fun _ => false) (block : Nat) :
    bread block s = .ok true ⟨s.zones.hold block, s.unreadable, s.mem⟩ :=
  breadOr_ok (by rw [hs])

theorem brelse_eq (block : Nat) (mem : Nat → UInt8) :
    brelse block ⟨s.zones.hold block, s.unreadable, mem⟩ = .ok () (s.withMem mem) :=
  onZones_brelse rfl

theorem copyIn_eq (hs : s.unreadable = fun _ => false) (block off : Nat) :
    copyIn block off s = .ok true (s.withMem
      (if block = 0 then s.mem else place s.mem (s.zones.block block) off)) := by
  unfold copyIn
  by_cases h0 : block = 0
  · rw [if_pos h0, if_pos h0]
    rfl
  · rw [if_neg h0, if_neg h0, bind_of_eq (bread_eq hs block), if_pos rfl,
      bind_of_eq (rfl : cpBlock block off _ = .ok () _), bind_of_eq (brelse_eq block _)]
    rfl

theorem copyIn_load {block off : Nat} (hs : s.unreadable = fun _ => false)
    (hzone : fileZone s.zones inode b = block) (hoff : loadOffset b = off) :
    copyIn block off s = .ok true (s.withMem (loadBlock s.zones inode b s.mem)) := by
  rw [copyIn_eq hs, loadBlock, hzone, hoff]

theorem loadBlocks_add :
    loadBlocks z inode b (n + m) mem =
      loadBlocks z inode (b + n) m (loadBlocks z inode b n mem) := by
  induction n generalizing b mem with
  | zero => rw [Nat.zero_add, Nat.add_zero, loadBlocks]
  | succ n ih =>
    rw [Nat.succ_add, loadBlocks, ih, loadBlocks, Nat.add_right_comm, Nat.add_assoc]

theorem loadBlocks_hold {c : Nat} :
    loadBlocks (z.hold c) inode b n mem = loadBlocks z inode b n mem := by
  induction n generalizing b mem with
  | zero => rfl
  | succ n ih => exact ih

theorem loadBlocks_of_holes
    (h : ∀ j < n, fileZone z inode (b + j) = 0) : loadBlocks z inode b n mem = mem := by
  induction n generalizing b with
  | zero => rfl
  | succ n ih =>
    have hb : fileZone z inode b = 0 := h 0 (by omega)
    rw [loadBlocks, loadBlock, if_pos hb]
    exact ih fun j hj => Nat.add_right_comm b 1 j ▸ h (j + 1) (by omega)

theorem headLoop_eq (hs : s.unreadable = fun _ => false) (hk : k + n ≤ 6) :
    headLoop inode n k s = .ok 0 (s.withMem (loadBlocks s.zones inode (k + 1) n s.mem)) := by
  induction n generalizing s k with
  | zero => rfl
  | succ n ih =>
    have hzone : fileZone s.zones inode (k + 1) = inode.iZone (k + 1) := fileZone_direct (by omega)
    have hoff : loadOffset (k + 1) = k * Fs.blockSize := by
      rw [loadOffset, if_pos (by omega), Nat.add_sub_cancel, Nat.mul_comm]
    rw [headLoop, bind_of_eq (copyIn_load hs hzone hoff), if_pos rfl, loadBlocks]
    exact @ih (s.withMem (loadBlock s.zones inode (k + 1) s.mem)) (k + 1) hs (by omega)

theorem blocksOf_sub (h : 0 < size) : blocksOf size = blocksOf (size - Fs.blockSize) + 1 := by
  unfold blocksOf Fs.blockSize
  omega

theorem indLoop_eq {ind off : Nat} (fuel : Nat) (hs : s.unreadable = fun _ => false)
    (hfuel : k + fuel = 512)
    (hzone : ∀ j < 512, fileZone s.zones inode (b + j) = entry (s.zones.block ind) j)
    (hoff : ∀ j < 512, loadOffset (b + j) = off + Fs.blockSize * j) :
    indLoop ind fuel k size (off + Fs.blockSize * k) s =
      .ok 0 (s.withMem (loadBlocks s.zones inode (b + k) (min fuel (blocksOf size)) s.mem)) := by
  induction fuel generalizing s k size with
  | zero =>
    rfl
  | succ fuel ih =>
    unfold indLoop
    by_cases hsize : 0 < size
    · have hmin : min (fuel + 1) (blocksOf size) =
        min fuel (blocksOf (size - Fs.blockSize)) + 1 := by
        rw [blocksOf_sub hsize]
        omega
      have hk : k < 512 := by omega
      have hnext : off + Fs.blockSize * k + Fs.blockSize = off + Fs.blockSize * (k + 1) := by
        rw [Nat.mul_succ, Nat.add_assoc]
      rw [if_pos hsize, get_bind,
        bind_of_eq (copyIn_load hs (hzone k hk) (hoff k hk)), if_pos rfl, hmin, loadBlocks, hnext]
      exact @ih (s.withMem (loadBlock s.zones inode (b + k) s.mem)) (k + 1)
        (size - Fs.blockSize) hs (by omega) hzone
    · have hmin : min (fuel + 1) (blocksOf size) = 0 := by
        unfold blocksOf Fs.blockSize
        omega
      rw [if_neg hsize, hmin]
      rfl

/-- `read_ind` for the pointers of 512 blocks, which are holes without it. -/
theorem readInd_eq {ind off : Nat} (hs : s.unreadable = fun _ => false) (hsize : 0 < size)
    (hzone : ∀ j < 512, fileZone s.zones inode (b + j) =
      if ind = 0 then 0 else entry (s.zones.block ind) j)
    (hoff : ∀ j < 512, loadOffset (b + j) = off + Fs.blockSize * j) :
    readInd ind size off s =
      .ok 0 (s.withMem (loadBlocks s.zones inode b (min 512 (blocksOf size)) s.mem)) := by
  unfold readInd
  rw [if_neg (by omega)]
  by_cases h0 : ind = 0
  · rw [if_pos h0, loadBlocks_of_holes fun j hj => by rw [hzone j (by omega), if_pos h0]]
    rfl
  have hblocks : min 512 (blocksOf (min size (512 * Fs.blockSize))) = min 512 (blocksOf size) := by
    unfold blocksOf Fs.blockSize
    omega
  have hloop : indLoop ind 512 0 (min size (512 * Fs.blockSize)) (off + Fs.blockSize * 0)
      ⟨s.zones.hold ind, s.unreadable, s.mem⟩ = .ok 0 ⟨s.zones.hold ind, s.unreadable,
        loadBlocks (s.zones.hold ind) inode (b + 0)
          (min 512 (blocksOf (min size (512 * Fs.blockSize)))) s.mem⟩ :=
    indLoop_eq (s := ⟨s.zones.hold ind, s.unreadable, s.mem⟩) 512 hs rfl
      (fun j hj => (hzone j hj).trans (if_neg h0)) hoff
  rw [Nat.mul_zero, Nat.add_zero, Nat.add_zero, hblocks, loadBlocks_hold] at hloop
  rw [if_neg h0, bind_of_eq (bread_eq hs ind), if_pos rfl, bind_of_eq hloop,
    bind_of_eq (brelse_eq ind _)]
  rfl

theorem dindLoop_eq (hs : s.unreadable = fun _ => false) (h8 : inode.iZone 8 ≠ 0)
    (hk : k + n ≤ 512) (hsize : 0 < size) (hlast : blocksOf size ≤ 512 * n) :
    dindLoop (inode.iZone 8) n k size s =
      .ok 0 (s.withMem (loadBlocks s.zones inode (519 + 512 * k) (blocksOf size) s.mem)) := by
  induction n generalizing s k size with
  | zero =>
    have : 0 < blocksOf size := by
      rw [blocksOf_sub hsize]
      exact Nat.succ_pos _
    omega
  | succ n ih =>
    have hind := readInd_eq (b := 519 + 512 * k) hs hsize
      (fun j hj => by rw [fileZone_double (show k < 512 by omega) hj, if_neg h8])
      (fun j hj => loadOffset_double hj)
    have hsub : blocksOf (size - Fs.blockSize * 512) = blocksOf size - 512 := by
      unfold blocksOf Fs.blockSize
      omega
    rw [dindLoop, get_bind, bind_of_eq hind]
    by_cases hend : size - Fs.blockSize * 512 ≤ 0
    · have hmin : min 512 (blocksOf size) = blocksOf size := by
        unfold blocksOf Fs.blockSize at *
        omega
      rw [if_pos (.inr hend), hmin]
      rfl
    · have hge : blocksOf size = 512 + (blocksOf size - 512) := by
        unfold blocksOf Fs.blockSize at *
        omega
      have hnext : 519 + 512 * (k + 1) = 519 + 512 * k + 512 := by omega
      have hrest : ∀ mem, dindLoop (inode.iZone 8) n (k + 1) (size - Fs.blockSize * 512)
          (s.withMem mem) = .ok 0 (s.withMem (loadBlocks s.zones inode (519 + 512 * k + 512)
            (blocksOf size - 512) mem)) := by
        intro mem
        have hloop := ih (s := s.withMem mem) (k := k + 1) hs (by omega) (Int.not_le.mp hend)
          (by omega)
        rwa [hsub, hnext] at hloop
      rw [if_neg (by simp [hend]), Nat.min_eq_left (by omega), hge, loadBlocks_add]
      exact hrest _

theorem readArea_returns (hs : s.unreadable = fun _ => false) (hsize : 0 < size)
    (hmax : size ≤ 0x3000000) :
    Returns (readArea inode size) s fun r t =>
      r = 0 ∧ t.mem = loadBlocks s.zones inode 1 (blocksOf size) s.mem := by
  have hhead : readHead inode (blocksOf size) s =
      .ok 0 (s.withMem (loadBlocks s.zones inode 1 (min (blocksOf size) 6) s.mem)) :=
    headLoop_eq (k := 0) hs (by omega)
  change Returns (readHead inode (blocksOf size) >>= _) s _
  rw [returns_bind, returns_of_eq hhead]
  by_cases hend : size - Fs.blockSize * 6 ≤ 0
  · have hmin : min (blocksOf size) 6 = blocksOf size := by
      unfold blocksOf Fs.blockSize at *
      omega
    rw [if_pos (.inr hend), returns_pure, hmin]
    exact ⟨rfl, rfl⟩
  have h6 : blocksOf size = 6 + blocksOf (size - Fs.blockSize * 6) := by
    unfold blocksOf Fs.blockSize at *
    omega
  have hind : ∀ mem, readInd (inode.iZone 7) (size - Fs.blockSize * 6) (Fs.blockSize * 6)
      (s.withMem mem) = .ok 0 (s.withMem (loadBlocks s.zones inode 7
        (min 512 (blocksOf (size - Fs.blockSize * 6))) mem)) :=
    fun mem => readInd_eq (s := s.withMem mem) hs (Int.not_le.mp hend)
      (fun j hj => fileZone_single hj) (fun j hj => loadOffset_single hj)
  rw [if_neg (by simp [hend]), h6, Nat.min_eq_right (by omega), loadBlocks_add, returns_bind,
    returns_of_eq (hind _)]
  generalize loadBlocks s.zones inode 1 6 s.mem = mem
  by_cases hend' : size - Fs.blockSize * 6 - Fs.blockSize * 512 ≤ 0
  · have hmin : min 512 (blocksOf (size - Fs.blockSize * 6)) =
        blocksOf (size - Fs.blockSize * 6) := by
      unfold blocksOf Fs.blockSize at *
      omega
    rw [if_pos (.inr hend'), returns_pure, hmin]
    exact ⟨rfl, rfl⟩
  have h512 : blocksOf (size - Fs.blockSize * 6) =
      512 + blocksOf (size - Fs.blockSize * 6 - Fs.blockSize * 512) := by
    unfold blocksOf Fs.blockSize at *
    omega
  have hlast : blocksOf (size - Fs.blockSize * 6 - Fs.blockSize * 512) ≤ 512 * 512 := by
    unfold blocksOf Fs.blockSize
    omega
  rw [if_neg (by simp [hend']), h512, Nat.min_eq_left (by omega), loadBlocks_add]
  generalize loadBlocks s.zones inode 7 512 mem = mem'
  by_cases h8 : inode.iZone 8 = 0
  · rw [if_pos h8, returns_pure]
    refine ⟨rfl, (loadBlocks_of_holes fun j hj => ?_).symm⟩
    have hzone : fileZone s.zones inode (519 + 512 * (j / 512) + j % 512) = _ :=
      fileZone_double (show j / 512 < 512 by omega) (Nat.mod_lt j (by decide))
    rw [if_pos h8, Nat.add_assoc, Nat.div_add_mod] at hzone
    exact hzone
  · have hloop := dindLoop_eq (s := ⟨s.zones.hold (inode.iZone 8), s.unreadable, mem'⟩) hs h8
      (k := 0) (n := 512) (by omega) (Int.not_le.mp hend') hlast
    rw [if_neg h8, returns_bind, returns_of_eq (bread_eq (s := s.withMem mem') hs _), if_pos rfl]
    refine (returns_of_eq hloop).mpr ⟨rfl, ?_⟩
    exact loadBlocks_hold

end Loading

def Reads (z : Zones) (inode : Inode) (off : Nat) (c : UInt8) : Prop :=
  Returns (fileRead inode ⟨0, off⟩ 1) z fun p _ => p.2.1 = [c]

/-- `read_area` returns 0, and the memory holds what `file_read` returns. -/
def Agrees (inode : Inode) (size : Nat) (s : Loader) : Prop :=
  Returns (readArea inode size) s fun r t => r = 0 ∧
    ∀ k < size, fileZone s.zones inode ((Fs.blockSize + k) / Fs.blockSize) ≠ 0 →
      Reads s.zones inode (Fs.blockSize + k) (t.mem k)

def Covers (z : Zones) (inode : Inode) (block a : Nat) : Prop :=
  fileZone z inode block ≠ 0 ∧ loadOffset block ≤ a ∧ a < loadOffset block + Fs.blockSize

section Agrees

variable {z : Zones} {inode : Inode} {mem : Nat → UInt8} {n b a size : Nat}

theorem loadBlock_of_covers (h : Covers z inode b a) :
    loadBlock z inode b mem a = z.block (fileZone z inode b) (a - loadOffset b) := by
  rw [loadBlock, if_neg h.1, place, if_pos h.2]

theorem loadBlock_of_not_covers (h : ¬Covers z inode b a) : loadBlock z inode b mem a = mem a := by
  unfold loadBlock
  split
  · rfl
  · rename_i hzone
    exact if_neg fun hin => h ⟨hzone, hin⟩

theorem loadBlocks_of_not_covers (h : ∀ j < n, ¬Covers z inode (b + j) a) :
    loadBlocks z inode b n mem a = mem a := by
  induction n generalizing b mem with
  | zero => rfl
  | succ n ih =>
    have hb : ¬Covers z inode b a := h 0 (by omega)
    rw [loadBlocks, ih fun j hj => Nat.add_right_comm b 1 j ▸ h (j + 1) (by omega),
      loadBlock_of_not_covers hb]

theorem loadBlocks_of_covers {j : Nat} (hj : j < n) (h : Covers z inode (b + j) a)
    (hlast : ∀ j' < n, j < j' → ¬Covers z inode (b + j') a) :
    loadBlocks z inode b n mem a =
      z.block (fileZone z inode (b + j)) (a - loadOffset (b + j)) := by
  obtain ⟨m, rfl⟩ : ∃ m, n = j + (m + 1) := ⟨n - (j + 1), by omega⟩
  rw [loadBlocks_add, loadBlocks, loadBlocks_of_not_covers, loadBlock_of_covers h]
  intro i hi
  have := hlast (j + 1 + i) (by omega) (by omega)
  rwa [← Nat.add_assoc, ← Nat.add_assoc] at this

theorem loadOffset_of_lt (hb : 0 < b) (hlt : b < 1031) :
    loadOffset b = Fs.blockSize * (b - 1) := by
  unfold loadOffset Fs.blockSize
  split <;> omega

theorem loadOffset_lt (hb : 1031 ≤ b) : loadOffset b + Fs.blockSize ≤ Fs.blockSize * (b - 1) := by
  unfold loadOffset Fs.blockSize
  split <;> omega

theorem lt_blocksOf : b < blocksOf size ↔ Fs.blockSize * b < size := by
  unfold blocksOf Fs.blockSize
  omega

theorem reads_iff {c : UInt8} (hb : b < maxBlocks) (ha : a < Fs.blockSize)
    (hzone : fileZone z inode b ≠ 0) :
    Reads z inode (Fs.blockSize * b + a) c ↔ c = z.block (fileZone z inode b) a := by
  have hdiv : (Fs.blockSize * b + a) / Fs.blockSize = b := by
    unfold Fs.blockSize at *
    omega
  have hmod : (Fs.blockSize * b + a) % Fs.blockSize = a := by
    unfold Fs.blockSize at *
    omega
  have hmax : Fs.blockSize * b + a + 1 ≤ maxBytes := by
    unfold maxBytes Fs.blockSize at *
    omega
  have hbyte : byteAt z (fun _ : Unit => inode.iZone) () (Fs.blockSize * b + a) =
      z.block (fileZone z inode b) a := by
    rw [byteAt, if_pos (Nat.lt_of_succ_le hmax), hdiv, hmod]
    exact if_neg hzone
  obtain ⟨p, z', hloop, rfl, rfl⟩ := @readLoop_returns Unit z (fun _ => inode.iZone) () inode
    ⟨0, Fs.blockSize * b + a⟩ rfl 1 1 (Nat.le_refl 1) hmax
  unfold Reads fileRead fileReadBy
  rw [if_neg (by decide), Int.toNat_one, returns_bind, returns_of_eq hloop, returns_pure]
  change [byteAt z' (fun _ : Unit => inode.iZone) () (Fs.blockSize * b + a)] = [c] ↔ _
  rw [hbyte, List.singleton_inj]
  exact eq_comm

theorem agrees_of_holes (hsize : 0 < size) (hmax : size ≤ 0x3000000)
    (hholes : ∀ b, 1031 ≤ b → Fs.blockSize * (b - 1) < size → fileZone z inode b = 0) :
    Agrees inode size ⟨z, fun _ => false, mem⟩ := by
  refine (readArea_returns rfl (by omega) (by omega)).imp ?_
  rintro r t ⟨rfl, hmem⟩
  refine ⟨rfl, fun k hk hzone => ?_⟩
  have hdiv : (Fs.blockSize + k) / Fs.blockSize = k / Fs.blockSize + 1 := by
    unfold Fs.blockSize
    omega
  have hlow : Fs.blockSize * (k / Fs.blockSize) ≤ k := Nat.mul_div_le k _
  have hmod : k % Fs.blockSize < Fs.blockSize := Nat.mod_lt k (by decide)
  have hsplit : Fs.blockSize * (k / Fs.blockSize) + k % Fs.blockSize = k := Nat.div_add_mod k _
  rw [hdiv] at hzone
  have hplace : ∀ b, Fs.blockSize * (b - 1) < size → 0 < b → fileZone z inode b ≠ 0 →
      loadOffset b = Fs.blockSize * (b - 1) := by
    intro b hb hpos hne
    refine loadOffset_of_lt hpos ?_
    by_contra hge
    exact hne (hholes b (by omega) hb)
  have hoff : loadOffset (1 + k / Fs.blockSize) = Fs.blockSize * (k / Fs.blockSize) := by
    rw [Nat.add_comm]
    exact hplace _ (Nat.lt_of_le_of_lt hlow hk) (Nat.succ_pos _) hzone
  have hmemk : t.mem k = z.block (fileZone z inode (k / Fs.blockSize + 1)) (k % Fs.blockSize) := by
    have hj : k / Fs.blockSize < blocksOf size := lt_blocksOf.mpr (Nat.lt_of_le_of_lt hlow hk)
    rw [hmem, loadBlocks_of_covers hj, hoff, Nat.add_comm 1]
    · congr 1
      omega
    · refine ⟨by rwa [Nat.add_comm], ?_, ?_⟩ <;> omega
    · rintro j hj' hlt ⟨hne, hlo, -⟩
      have hjsize : Fs.blockSize * j < size := lt_blocksOf.mp hj'
      rw [hplace (1 + j) (by rwa [Nat.add_sub_cancel_left]) (by omega) hne,
        Nat.add_sub_cancel_left] at hlo
      unfold Fs.blockSize at *
      omega
  have hread := (reads_iff (z := z) (c := t.mem k) (b := k / Fs.blockSize + 1)
    (by unfold maxBlocks Fs.blockSize; omega) hmod hzone).mpr hmemk
  rwa [Nat.mul_succ, Nat.add_right_comm, hsplit, Nat.add_comm] at hread

theorem mem_of_agrees (hmax : size ≤ 0x3000000) (hb : 1031 ≤ b)
    (hbsize : Fs.blockSize * (b - 1) < size) (hzone : fileZone z inode b ≠ 0)
    (hlast : ∀ b', b < b' → Fs.blockSize * (b' - 1) < size → fileZone z inode b' = 0)
    (h : Agrees inode size ⟨z, fun _ => false, mem⟩) :
    mem (Fs.blockSize * (b - 1)) = z.block (fileZone z inode b) 0 := by
  obtain ⟨r, t, hrun, -, hread⟩ := h
  obtain ⟨-, hmem⟩ := (readArea_returns (s := ⟨z, fun _ => false, mem⟩) rfl (by omega)
    (by omega)).ensures r t hrun
  have hkeep : t.mem (Fs.blockSize * (b - 1)) = mem (Fs.blockSize * (b - 1)) := by
    rw [hmem]
    refine loadBlocks_of_not_covers ?_
    rintro j hj ⟨hne, hlo, hhi⟩
    have hjsize : Fs.blockSize * (1 + j - 1) < size := by
      rw [Nat.add_sub_cancel_left]
      exact lt_blocksOf.mp hj
    -- a block below 1031 is at its own place, the others are stored too low
    rcases Nat.lt_or_ge (1 + j) 1031 with hlt | hge
    · rw [loadOffset_of_lt (by omega) hlt] at hlo hhi
      unfold Fs.blockSize at *
      omega
    · have hle : 1 + j ≤ b := by
        by_contra hgt
        exact hne (hlast _ (by omega) hjsize)
      have := loadOffset_lt hge
      unfold Fs.blockSize at *
      omega
  have hdiv : (Fs.blockSize + Fs.blockSize * (b - 1)) / Fs.blockSize = b := by
    unfold Fs.blockSize
    omega
  have hpos : Fs.blockSize + Fs.blockSize * (b - 1) = Fs.blockSize * b + 0 := by
    unfold Fs.blockSize
    omega
  have hbyte := hread _ hbsize (by rwa [hdiv])
  rw [hpos, reads_iff (by unfold maxBlocks Fs.blockSize at *; omega) (by decide) hzone,
    hkeep] at hbyte
  exact hbyte

/-- `read_area` agrees with `file_read` exactly for files with at most one block of pointers in
`i_zone[8]`. -/
theorem agrees_iff_holes (hsize : 0 < size) (hmax : size ≤ 0x3000000) :
    (∀ mem, Agrees inode size ⟨z, fun _ => false, mem⟩) ↔
      ∀ b, 1031 ≤ b → Fs.blockSize * (b - 1) < size → fileZone z inode b = 0 := by
  refine ⟨fun h b hb hbsize => ?_, fun h mem => agrees_of_holes hsize hmax h⟩
  by_contra hzone
  let bad : Nat → Prop := fun b =>
    1031 ≤ b ∧ Fs.blockSize * (b - 1) < size ∧ fileZone z inode b ≠ 0
  have hbound : ∀ b, bad b → b ≤ size := by
    rintro b ⟨-, hlt, -⟩
    unfold Fs.blockSize at hlt
    omega
  classical
  have hbad : bad b := ⟨hb, hbsize, hzone⟩
  obtain ⟨hge, hlt, hne⟩ : bad (Nat.findGreatest bad size) :=
    Nat.findGreatest_spec (hbound b hbad) hbad
  have hlast : ∀ b', Nat.findGreatest bad size < b' → Fs.blockSize * (b' - 1) < size →
      fileZone z inode b' = 0 := by
    intro b' hgt hlt'
    by_contra hne'
    have hbad' : bad b' := ⟨by omega, hlt', hne'⟩
    exact Nat.findGreatest_is_greatest hgt (hbound b' hbad') hbad'
  have hmem : ∀ c : UInt8, c = z.block (fileZone z inode (Nat.findGreatest bad size)) 0 :=
    fun c => mem_of_agrees hmax hge hlt hne hlast (h fun _ => c)
  exact absurd ((hmem 0).trans (hmem 1).symm) (by decide)

end Agrees

/-- A file with block 1031, which is behind the second entry of `i_zone[8]`. -/
def longInode : Inode where
  iMode := 0o100755
  iUid := 0
  iSize := 1056768
  iGid := 0
  iNlinks := 1
  iZone := update (fun _ => 0) 8 7
  iDev := 0x301
  iNum := 2
  iCount := 1
  iDirt := false
  iPipe := false

def longZones : Zones where
  sb := { oneZone with sNzones := 10, nzones_lt := by decide }
  zmap _ := none
  block := update (update (update (fun _ => clearBlock) 7 (setEntry clearBlock 1 8)) 8
    (setEntry clearBlock 0 9)) 9 fun _ => 1
  count _ := 0

theorem agrees_iff_holes_long :
    (∀ mem, Agrees longInode 1054721 ⟨longZones, fun _ => false, mem⟩) ↔
      ∀ b, 1031 ≤ b → Fs.blockSize * (b - 1) < 1054721 → fileZone longZones longInode b = 0 :=
  agrees_iff_holes (by decide) (by decide)

theorem fileZone_long : fileZone longZones longInode 1031 = 9 :=
  (fileZone_double (c := 1) (k := 0) (by decide) (by decide)).trans (by decide)

/-- One byte of the block 1031 is to be loaded, and is not. -/
theorem longInode_not_agrees :
    ¬Agrees longInode 1054721 ⟨longZones, fun _ => false, fun _ => 0⟩ := by
  intro h
  have hmem := mem_of_agrees (b := 1031) (by decide) (by decide) (by decide)
    (by rw [fileZone_long]; decide)
    (fun b' hgt hlt => absurd hlt (by unfold Fs.blockSize; omega)) h
  exact absurd hmem (by decide)

end Linux001.Exec.Area
