import Linux001.Fs.Allocation
import Linux001.Namei.Names

/-! `find_entry` and `empty_dir` of `fs/namei.c` in directories with holes and with blocks that
cannot be read. A block that cannot be read stays so, and the use of a null pointer ends the scan.
-/

namespace Linux001.Namei.Scans

open Function Fs ProofKit

/-- The blocks with the counts of their buffers, and those that fail. -/
structure Disk where
  zones : Zones
  unreadable : Nat → Bool

inductive Stop
  | zones (p : Panic)
  /-- `bh->b_data` with `bh` NULL -/
  | nullBuffer
  deriving DecidableEq

abbrev ScanM := EStateM Stop Disk

def Disk.hold (s : Disk) (b : Nat) : Disk := { s with zones := s.zones.hold b }

instance : OnDevice Stop Disk where
  zones := Disk.zones
  withZones s z := { s with zones := z }
  panic := .zones

def bread (b : Nat) : ScanM Bool := breadOr (fun s => (s.unreadable b, s)) b

def brelse (b : Nat) : ScanM Unit := onZones (Fs.brelse b)

def blockSlot (b n : Nat) : ScanM Nat :=
  if b = 0 then pure 0
  else do
    if ← bread b then
      let i := entry ((← get).zones.block b) n
      brelse b
      pure i
    else pure 0

def bmap (inode : Inode) (block : Nat) : ScanM Nat :=
  if maxBlocks ≤ block then throw (.zones .blockBig)
  else if block < 7 then pure (inode.iZone block)
  else if block - 7 < 512 then blockSlot (inode.iZone 7) (block - 7)
  else do
    let block := block - 7 - 512
    let i ← blockSlot (inode.iZone 8) (block / 512)
    blockSlot i (block % 512)

/-- An entry in a buffer, or the next block is not there or cannot be read. -/
inductive Next
  | entry (b e : Nat)
  | hole
  | unreadable

/-- The test of `de` against the end of the buffer, with the next `bread`. -/
def next (inode : Inode) (i b e : Nat) : ScanM Next :=
  if e < dirEntriesPerBlock then pure (.entry b e)
  else do
    brelse b
    let block ← bmap inode (i / dirEntriesPerBlock)
    if block = 0 then pure .hole
    else if ← bread block then pure (.entry block 0)
    else pure .unreadable

def brelseAny : Option (Nat × Nat) → ScanM Unit
  | none => pure ()
  | some (b, _) => brelse b

/-- The loop of `find_entry`, with at most `entries` rounds. -/
def findLoop (inode : Inode) (name : List UInt8) (entries : Nat) :
    (fuel i : Nat) → (bh : Option (Nat × Nat)) → ScanM (Option (Nat × Nat))
  | 0, _, bh => do
    brelseAny bh
    pure none
  | fuel + 1, i, bh => do
    if entries ≤ i then
      brelseAny bh
      pure none
    else
      match bh with
      | none => throw .nullBuffer
      | some (b, e) =>
        match ← next inode i b e with
        | .entry b e =>
          if matchEntry name ((← get).zones.block b) e then pure (some (b, e))
          else findLoop inode name entries fuel (i + 1) (some (b, e + 1))
        | .hole | .unreadable =>
          findLoop inode name entries fuel (i + dirEntriesPerBlock) none

def findEntry (inode : Inode) (name : List UInt8) : ScanM (Option (Nat × Nat)) := do
  let name := name.take nameLen
  let entries := dirLength inode.iSize
  if name = [] ∨ inode.iZone 0 = 0 then pure none
  else if ← bread (inode.iZone 0) then
    findLoop inode name entries entries 0 (some (inode.iZone 0, 0))
  else pure none

/-- The loop of `empty_dir`. Behind a hole `bh` is still the old buffer. -/
def emptyLoop (inode : Inode) (len : Nat) : (fuel nr b e : Nat) → ScanM Bool
  | 0, _, b, _ => do
    brelse b
    pure true
  | fuel + 1, nr, b, e => do
    if len ≤ nr then
      brelse b
      pure true
    else
      match ← next inode nr b e with
      | .entry b e =>
        if deInode ((← get).zones.block b) e ≠ 0 then
          brelse b
          pure false
        else emptyLoop inode len fuel (nr + 1) b (e + 1)
      | .hole => emptyLoop inode len fuel (nr + dirEntriesPerBlock) b e
      | .unreadable => pure false

def emptyDir (inode : Inode) : ScanM Bool := do
  let len := dirLength inode.iSize
  if len < 2 ∨ inode.iZone 0 = 0 then pure false
  else if ← bread (inode.iZone 0) then
    if goodDirectory inode.iNum ((← get).zones.block (inode.iZone 0)) then
      emptyLoop inode len len 2 (inode.iZone 0) 2
    else pure false
  else pure false

/-! ### The blocks of a directory -/

def slotAt (s : Disk) (b n : Nat) : Nat :=
  if b = 0 ∨ s.unreadable b = true then 0 else entry (s.zones.block b) n

def zoneAt (s : Disk) (inode : Inode) (block : Nat) : Nat :=
  if block < 7 then inode.iZone block
  else if block - 7 < 512 then slotAt s (inode.iZone 7) (block - 7)
  else slotAt s (slotAt s (inode.iZone 8) ((block - 7 - 512) / 512)) ((block - 7 - 512) % 512)

def Readable (s : Disk) (inode : Inode) (j : Nat) : Prop :=
  j < maxBlocks ∧ zoneAt s inode j ≠ 0 ∧ s.unreadable (zoneAt s inode j) = false

def Unreadable (s : Disk) (inode : Inode) (j : Nat) : Prop :=
  j < maxBlocks ∧ zoneAt s inode j ≠ 0 ∧ s.unreadable (zoneAt s inode j) = true

section Blocks

variable {s : Disk} {inode : Inode} {i j b e : Nat}

theorem Readable.at_block (h : Readable s inode (i / dirEntriesPerBlock))
    (hi : i = dirEntriesPerBlock * j) : Readable s inode j := by
  rwa [hi, Nat.mul_div_cancel_left j (by decide)] at h

theorem bread_eq (h : s.unreadable b = false) : bread b s = .ok true (s.hold b) :=
  breadOr_ok (by rw [h])

theorem bread_of_unreadable (h : s.unreadable b = true) : bread b s = .ok false s :=
  breadOr_failed (by rw [h])

theorem brelse_hold : brelse b (s.hold b) = .ok () s := onZones_brelse rfl

theorem blockSlot_eq {n : Nat} : blockSlot b n s = .ok (slotAt s b n) s := by
  unfold blockSlot slotAt
  by_cases h0 : b = 0
  · rw [if_pos h0, if_pos (.inl h0)]
    rfl
  rw [if_neg h0]
  cases hb : s.unreadable b with
  | false =>
    rw [bind_of_eq (bread_eq hb), if_pos rfl, if_neg (by simp [h0]),
      get_bind, bind_of_eq brelse_hold]
    rfl
  | true =>
    rw [bind_of_eq (bread_of_unreadable hb), if_neg (by decide), if_pos (Or.inr rfl)]
    rfl

theorem bmap_eq (hj : j < maxBlocks) : bmap inode j s = .ok (zoneAt s inode j) s := by
  unfold bmap zoneAt
  rw [if_neg (by omega)]
  by_cases h7 : j < 7
  · rw [if_pos h7, if_pos h7]
    rfl
  · rw [if_neg h7, if_neg h7]
    by_cases h512 : j - 7 < 512
    · rw [if_pos h512, if_pos h512]
      exact blockSlot_eq
    · rw [if_neg h512, if_neg h512]
      exact (bind_of_eq blockSlot_eq).trans blockSlot_eq

/-- The pointer is at the entry `i`, or at the end of the block before. -/
def At (s : Disk) (inode : Inode) (i b e : Nat) : Prop :=
  e < dirEntriesPerBlock ∧ e = i % dirEntriesPerBlock ∧ Readable s inode (i / dirEntriesPerBlock) ∧
      b = zoneAt s inode (i / dirEntriesPerBlock) ∨
    e = dirEntriesPerBlock ∧ i % dirEntriesPerBlock = 0

theorem At.succ (h : At s inode i b e) (he : e < dirEntriesPerBlock) :
    At s inode (i + 1) b (e + 1) := by
  obtain ⟨-, heq, hread, hb⟩ := h.resolve_right fun h => by omega
  unfold At dirEntriesPerBlock at *
  by_cases hlast : e + 1 < 64
  · have hdiv : (i + 1) / 64 = i / 64 := by omega
    exact .inl ⟨hlast, by omega, hdiv ▸ hread, hdiv ▸ hb⟩
  · exact .inr ⟨by omega, by omega⟩

theorem next_cases (h : At s inode i b e) :
    (∃ b' e', next inode i b e (s.hold b) = .ok (.entry b' e') (s.hold b') ∧ At s inode i b' e' ∧
      e' < dirEntriesPerBlock) ∨
    (∃ j, i = dirEntriesPerBlock * j ∧ j < maxBlocks ∧ zoneAt s inode j = 0 ∧
      next inode i b e (s.hold b) = .ok .hole s) ∨
    (∃ j, i = dirEntriesPerBlock * j ∧ Unreadable s inode j ∧
      next inode i b e (s.hold b) = .ok .unreadable s) ∨
    ∃ j, i = dirEntriesPerBlock * j ∧ maxBlocks ≤ j ∧
      ∃ err s', next inode i b e (s.hold b) = .error err s' := by
  unfold next
  by_cases he : e < dirEntriesPerBlock
  · rw [if_pos he]
    exact .inl ⟨b, e, rfl, h, he⟩
  obtain ⟨-, hmod⟩ := h.resolve_left fun h => he h.1
  have hi : i = dirEntriesPerBlock * (i / dirEntriesPerBlock) :=
    (Nat.mul_div_cancel' (Nat.dvd_of_mod_eq_zero hmod)).symm
  rw [if_neg he, bind_of_eq brelse_hold]
  by_cases hj : i / dirEntriesPerBlock < maxBlocks
  · rw [bind_of_eq (bmap_eq hj)]
    by_cases h0 : zoneAt s inode (i / dirEntriesPerBlock) = 0
    · rw [if_pos h0]
      exact .inr (.inl ⟨_, hi, hj, h0, rfl⟩)
    rw [if_neg h0]
    cases hb : s.unreadable (zoneAt s inode (i / dirEntriesPerBlock)) with
    | false =>
      rw [bind_of_eq (bread_eq hb), if_pos rfl]
      exact .inl ⟨_, 0, rfl, .inl ⟨by decide, hmod.symm, ⟨hj, h0, hb⟩, rfl⟩, by decide⟩
    | true =>
      rw [bind_of_eq (bread_of_unreadable hb)]
      exact .inr (.inr (.inl ⟨_, hi, ⟨hj, h0, hb⟩, rfl⟩))
  · refine .inr (.inr (.inr ⟨_, hi, Nat.le_of_not_lt hj, .zones .blockBig, s, ?_⟩))
    unfold bmap
    rw [if_pos (Nat.le_of_not_lt hj)]
    rfl

end Blocks

/-! ### `find_entry` -/

def Matches (s : Disk) (inode : Inode) (name : List UInt8) (i : Nat) : Prop :=
  name ≠ [] ∧ Readable s inode (i / dirEntriesPerBlock) ∧
    matchEntry (name.take nameLen) (s.zones.block (zoneAt s inode (i / dirEntriesPerBlock)))
      (i % dirEntriesPerBlock) = true

def IsFirst (s : Disk) (inode : Inode) (name : List UInt8) (entries i : Nat) :
    Option (Nat × Nat) → Prop
  | none => ∀ l, i ≤ l → l < entries → ¬Matches s inode name l
  | some (b, e) => ∃ l, i ≤ l ∧ l < entries ∧ Matches s inode name l ∧
      (∀ l', i ≤ l' → l' < l → ¬Matches s inode name l') ∧
      b = zoneAt s inode (l / dirEntriesPerBlock) ∧ e = l % dirEntriesPerBlock

def Disk.holdFound (s : Disk) : Option (Nat × Nat) → Disk
  | none => s
  | some (b, _) => s.hold b

/-- A missing block, with no entry of the name before, is the last one. -/
def MissingLast (s : Disk) (inode : Inode) (name : List UInt8) (entries i : Nat) : Prop :=
  ∀ j, i ≤ dirEntriesPerBlock * j → dirEntriesPerBlock * j < entries →
    (∀ l, i ≤ l → l < dirEntriesPerBlock * j → ¬Matches s inode name l) →
      j < maxBlocks ∧ (¬Readable s inode j → entries ≤ dirEntriesPerBlock * (j + 1))

section Find

variable {s : Disk} {inode : Inode} {name : List UInt8} {entries i j b e : Nat}
  {r : Option (Nat × Nat)}

theorem from_succ {f : Nat → Nat} {C P : Nat → Prop} (hi : ∀ j, i = f j → ¬P j) :
    (∀ j, i + 1 ≤ f j → C j → ¬P j) ↔ ∀ j, i ≤ f j → C j → ¬P j := by
  refine forall_congr' fun j => ⟨fun h hj => ?_, fun h hj => h (Nat.le_of_succ_le hj)⟩
  by_cases hij : i = f j
  · exact fun _ => hi j hij
  · exact h (by omega)

theorem not_matches_succ {n : Nat} (hi : ¬Matches s inode name i) :
    (∀ l, i + 1 ≤ l → l < n → ¬Matches s inode name l) ↔ ∀ l, i ≤ l → l < n →
    ¬Matches s inode name l :=
  from_succ (f := fun l => l) fun _ hl => hl ▸ hi

theorem isFirst_succ (hi : ¬Matches s inode name i) :
    IsFirst s inode name entries (i + 1) r ↔ IsFirst s inode name entries i r := by
  match r with
  | none => exact not_matches_succ hi
  | some (b, e) =>
    constructor
    · rintro ⟨l, hl, hlt, hmatch, hbefore, hplace⟩
      exact ⟨l, by omega, hlt, hmatch, (not_matches_succ hi).mp hbefore, hplace⟩
    · rintro ⟨l, hl, hlt, hmatch, hbefore, hplace⟩
      have hli : l ≠ i := by
        rintro rfl
        exact hi hmatch
      exact ⟨l, by omega, hlt, hmatch, (not_matches_succ hi).mpr hbefore, hplace⟩

theorem missingLast_succ (hread : Readable s inode (i / dirEntriesPerBlock))
    (hi : ¬Matches s inode name i) :
    MissingLast s inode name entries (i + 1) ↔ MissingLast s inode name entries i := by
  constructor
  · intro h j hj hlt hnone
    by_cases hij : i = dirEntriesPerBlock * j
    · exact ⟨(hread.at_block hij).1, fun hnot => absurd (hread.at_block hij) hnot⟩
    · exact h j (by omega) hlt ((not_matches_succ hi).mpr hnone)
  · intro h j hj hlt hnone
    exact h j (by omega) hlt ((not_matches_succ hi).mp hnone)

theorem missingLast_of_matches (h : Matches s inode name i) :
    MissingLast s inode name entries i := by
  intro j hj hlt hnone
  have hij : i = dirEntriesPerBlock * j := by
    by_contra hne
    exact hnone i (Nat.le_refl i) (by omega) h
  exact ⟨(h.2.1.at_block hij).1, fun hnot => absurd (h.2.1.at_block hij) hnot⟩

theorem missingLast_of_not_readable (hj : j < maxBlocks) (hlt : dirEntriesPerBlock * j < entries)
    (hnot : ¬Readable s inode j) :
    MissingLast s inode name entries (dirEntriesPerBlock * j) ↔
      entries ≤ dirEntriesPerBlock * (j + 1) := by
  constructor
  · intro h
    exact (h j (Nat.le_refl _) hlt fun l hl hl' => by omega).2 hnot
  · intro h j' hj' hlt' hnone
    have hjj : j' = j := by
      unfold dirEntriesPerBlock at *
      omega
    exact hjj ▸ ⟨hj, fun _ => h⟩

def Finds (s : Disk) (inode : Inode) (name : List UInt8) (entries i : Nat) :
    Option (Nat × Nat) → Disk → Prop :=
  fun r t => IsFirst s inode name entries i r ∧ t = s.holdFound r

theorem findEnd_returns (hi : entries ≤ i) :
    Returns (do
      brelseAny (some (b, e))
      pure none) (s.hold b) (Finds s inode name entries i) := by
  rw [returns_bind, brelseAny, returns_of_eq brelse_hold, returns_pure]
  exact ⟨fun l hl hlt => absurd hlt (by omega), rfl⟩

theorem findLoop_missing (fuel : Nat) (hfuel : entries ≤ dirEntriesPerBlock * j + 1 + fuel)
    (hj : j < maxBlocks) (hlt : dirEntriesPerBlock * j < entries) (hnot : ¬Readable s inode j) :
    Returns (findLoop inode (name.take nameLen) entries fuel
        (dirEntriesPerBlock * j + dirEntriesPerBlock) none) s
        (Finds s inode name entries (dirEntriesPerBlock * j)) ↔
      MissingLast s inode name entries (dirEntriesPerBlock * j) := by
  rw [missingLast_of_not_readable hj hlt hnot, Nat.mul_succ]
  have hnone : entries ≤ dirEntriesPerBlock * j + dirEntriesPerBlock →
      Finds s inode name entries (dirEntriesPerBlock * j) none s := by
    refine fun hle => ⟨fun l hl hl' hmatch => hnot ?_, rfl⟩
    have hdiv : l / dirEntriesPerBlock = j := by
      unfold dirEntriesPerBlock at *
      omega
    exact hdiv ▸ hmatch.2.1
  cases fuel with
  | zero =>
    have hle : entries ≤ dirEntriesPerBlock * j + dirEntriesPerBlock := by
      unfold dirEntriesPerBlock at *
      omega
    exact iff_of_true (returns_pure.mpr (hnone hle)) hle
  | succ fuel =>
    rw [findLoop]
    by_cases hle : entries ≤ dirEntriesPerBlock * j + dirEntriesPerBlock
    · rw [if_pos hle]
      exact iff_of_true (returns_pure.mpr (hnone hle)) hle
    · rw [if_neg hle]
      exact iff_of_false returns_throw hle

theorem findLoop_iff (fuel : Nat) (hname : name ≠ []) (hat : At s inode i b e)
    (hfuel : entries ≤ i + fuel) :
    Returns (findLoop inode (name.take nameLen) entries fuel i (some (b, e))) (s.hold b)
        (Finds s inode name entries i) ↔ MissingLast s inode name entries i := by
  have hpast : entries ≤ i → MissingLast s inode name entries i :=
    fun hle j hj hlt => absurd hlt (by omega)
  induction fuel generalizing i b e with
  | zero => exact iff_of_true (findEnd_returns (by omega)) (hpast (by omega))
  | succ fuel ih =>
    rw [findLoop]
    by_cases hle : entries ≤ i
    · rw [if_pos hle]
      exact iff_of_true (findEnd_returns hle) (hpast hle)
    rw [if_neg hle, returns_bind]
    rcases next_cases hat with ⟨b', e', hnext, hat', he'⟩ | ⟨j, rfl, hj, h0, hnext⟩ |
      ⟨j, rfl, hun, hnext⟩ | ⟨j, rfl, hj, err, s', hnext⟩
    · obtain ⟨-, he, hread, hb⟩ := hat'.resolve_right fun h => by omega
      rw [returns_of_eq hnext]
      simp only [returns_bind, returns_get]
      by_cases hmatch : Matches s inode name i
      · have hm : matchEntry (name.take nameLen) ((s.hold b').zones.block b') e' = true := by
          rw [he, hb]
          exact hmatch.2.2
        rw [if_pos hm, returns_pure]
        refine iff_of_true ⟨⟨i, Nat.le_refl i, by omega, hmatch, fun l hl hl' => ?_, hb, he⟩, rfl⟩
          (missingLast_of_matches hmatch)
        omega
      · have hm : ¬matchEntry (name.take nameLen) ((s.hold b').zones.block b') e' = true := by
          intro hm
          rw [he, hb] at hm
          exact hmatch ⟨hname, hread, hm⟩
        have hrest := ih (hat'.succ he') (by omega) fun hle j hj hlt => absurd hlt (by omega)
        rw [if_neg hm, ← missingLast_succ hread hmatch]
        have hsame : Finds s inode name entries (i + 1) = Finds s inode name entries i :=
          funext₂ fun _ _ => propext (and_congr_left' (isFirst_succ hmatch))
        exact hsame ▸ hrest
    · rw [returns_of_eq hnext]
      exact findLoop_missing fuel (by omega) hj (by omega) fun h => h.2.1 h0
    · rw [returns_of_eq hnext]
      refine findLoop_missing fuel (by omega) hun.1 (by omega) fun h => ?_
      exact absurd (hun.2.2.symm.trans h.2.2) (by decide)
    · refine iff_of_false ?_ fun h => ?_
      · rintro ⟨a, t, hok, -⟩
        rw [hnext] at hok
        cases hok
      · have := (h j (Nat.le_refl _) (by omega) fun l hl hl' => by omega).1
        omega

/-- The first entry with the name, with its buffer held and no other, or NULL. -/
def FindsEntry (s : Disk) (inode : Inode) (name : List UInt8) : Prop :=
  Returns (findEntry inode name) s (Finds s inode name (dirLength inode.iSize) 0)

theorem findsEntry_iff (h0 : inode.iZone 0 ≠ 0) (hread : s.unreadable (inode.iZone 0) = false) :
    FindsEntry s inode name ↔
      name = [] ∨ MissingLast s inode name (dirLength inode.iSize) 0 := by
  unfold FindsEntry findEntry
  by_cases hname : name = []
  · have hnone : Finds s inode name (dirLength inode.iSize) 0 none s :=
      ⟨fun l _ _ hmatch => hmatch.1 hname, rfl⟩
    subst hname
    simp only [List.take_nil, true_or, if_true, returns_pure, iff_true]
    exact hnone
  · have hat : At s inode 0 (inode.iZone 0) 0 :=
      .inl ⟨by decide, rfl, ⟨by decide, h0, hread⟩, rfl⟩
    have htake : ¬(name.take nameLen = [] ∨ inode.iZone 0 = 0) := by
      simp [hname, h0, nameLen]
    simp only [htake, if_false, hname, false_or]
    rw [returns_bind, returns_of_eq (bread_eq hread), if_pos rfl]
    exact findLoop_iff _ hname hat (by omega)

end Find

/-! ### `empty_dir` -/

def Occupied (s : Disk) (inode : Inode) (i : Nat) : Prop :=
  Readable s inode (i / dirEntriesPerBlock) ∧
    deInode (s.zones.block (zoneAt s inode (i / dirEntriesPerBlock))) (i % dirEntriesPerBlock) ≠ 0

/-- The entries from `nr` on are free, and all blocks can be read. -/
def AllFree (s : Disk) (inode : Inode) (len nr : Nat) : Prop :=
  (∀ l, nr ≤ l → l < len → ¬Occupied s inode l) ∧
    ∀ j, nr ≤ dirEntriesPerBlock * j → dirEntriesPerBlock * j < len → ¬Unreadable s inode j

/-- Before a hole is an entry in use, or a block that cannot be read. -/
def HolesBehind (s : Disk) (inode : Inode) (len nr : Nat) : Prop :=
  ∀ j, nr ≤ dirEntriesPerBlock * j → dirEntriesPerBlock * j < len →
    (∀ l, nr ≤ l → l < dirEntriesPerBlock * j → ¬Occupied s inode l) →
    (∀ j', nr ≤ dirEntriesPerBlock * j' → j' < j → ¬Unreadable s inode j') →
      j < maxBlocks ∧ zoneAt s inode j ≠ 0

section Empty

variable {s : Disk} {inode : Inode} {len nr j b e : Nat}

theorem Readable.not_unreadable (h : Readable s inode j) : ¬Unreadable s inode j :=
  fun h' => absurd (h.2.2.symm.trans h'.2.2) (by decide)

section
variable (hread : Readable s inode (nr / dirEntriesPerBlock)) (hfree : ¬Occupied s inode nr)
include hread hfree

theorem behind_succ {n : Nat} {C : Nat → Prop} :
    ((∀ l, nr + 1 ≤ l → l < n → ¬Occupied s inode l) ↔ ∀ l, nr ≤ l → l < n → ¬Occupied s inode l) ∧
    ((∀ j, nr + 1 ≤ dirEntriesPerBlock * j → C j → ¬Unreadable s inode j) ↔
      ∀ j, nr ≤ dirEntriesPerBlock * j → C j → ¬Unreadable s inode j) :=
  ⟨from_succ (f := fun l => l) fun _ hl => hl ▸ hfree,
    from_succ (f := (dirEntriesPerBlock * ·)) fun _ hj => (hread.at_block hj).not_unreadable⟩

theorem allFree_succ : AllFree s inode len (nr + 1) ↔ AllFree s inode len nr :=
  and_congr (behind_succ hread hfree (C := fun _ => True)).1 (behind_succ (n := 0) hread hfree).2

theorem holesBehind_succ : HolesBehind s inode len (nr + 1) ↔ HolesBehind s inode len nr := by
  constructor
  · intro h j hj hlt hentries hblocks
    by_cases hjn : nr = dirEntriesPerBlock * j
    · exact ⟨(hread.at_block hjn).1, (hread.at_block hjn).2.1⟩
    · obtain ⟨hl, hb⟩ := behind_succ hread hfree
      exact h j (by omega) hlt (hl.mpr hentries) (hb.mpr hblocks)
  · intro h j hj hlt hentries hblocks
    obtain ⟨hl, hb⟩ := behind_succ hread hfree
    exact h j (by omega) hlt (hl.mp hentries) (hb.mp hblocks)

end

theorem holesBehind_of_occupied (h : Occupied s inode nr) : HolesBehind s inode len nr := by
  intro j hj hlt hentries hblocks
  have hnr : nr = dirEntriesPerBlock * j := by
    by_contra hne
    exact hentries nr (Nat.le_refl nr) (by omega) h
  exact ⟨(h.1.at_block hnr).1, (h.1.at_block hnr).2.1⟩

theorem holesBehind_of_unreadable (h : Unreadable s inode j) :
    HolesBehind s inode len (dirEntriesPerBlock * j) := by
  intro j' hj' hlt hentries hblocks
  have hle : j ≤ j' := Nat.le_of_mul_le_mul_left hj' (by decide)
  have hjj : j' = j := by
    by_contra hne
    exact hblocks j (Nat.le_refl _) (by omega) h
  exact hjj ▸ ⟨h.1, h.2.1⟩

def one (b x : Nat) : Nat := if x = b then 1 else 0

theorem brelse_ensures : Ensures (brelse b) s fun _ t =>
    t.unreadable = s.unreadable ∧ ∀ x, t.zones.count x + one b x = s.zones.count x := by
  refine onZones_ensures (ensures_bind.mpr (ensures_get.mpr ?_))
  refine ensures_ite.mpr ⟨fun _ => ensures_throw, fun h0 => ensures_set.mpr ⟨rfl, fun x => ?_⟩⟩
  change s.zones.count b ≠ 0 at h0
  show (s.zones.release b).count x + one b x = s.zones.count x
  unfold one
  by_cases hx : x = b
  · subst hx
    simp only [Zones.release_count, update_self, if_true]
    omega
  · simp only [Zones.release_count, update_of_ne hx, if_neg hx, Nat.add_zero]

theorem count_hold (x : Nat) : (s.hold b).zones.count x = s.zones.count x + one b x := by
  unfold one
  by_cases hx : x = b
  · subst hx
    simp [Disk.hold]
  · simp [Disk.hold, update_of_ne hx, if_neg hx]

theorem bread_ensures : Ensures (bread b) s fun r t =>
    ∀ x, t.zones.count x = s.zones.count x + if r then one b x else 0 := by
  cases h : s.unreadable b with
  | true => exact (ensures_of_eq (bread_of_unreadable h)).mpr fun _ => rfl
  | false => exact (ensures_of_eq (bread_eq h)).mpr fun x => count_hold x

theorem next_ensures : Ensures (next inode nr b e) s fun r t => match r with
    | .entry b' _ => ∀ x, t.zones.count x + one b x = s.zones.count x + one b' x
    | _ => ∀ x, t.zones.count x + one b x = s.zones.count x := by
  refine ensures_ite.mpr ⟨fun _ => ensures_pure.mpr fun _ => rfl, fun _ => ?_⟩
  refine brelse_ensures.bind ?_
  rintro - t ⟨-, hcount⟩
  by_cases hj : nr / dirEntriesPerBlock < maxBlocks
  · rw [ensures_bind, ensures_of_eq (bmap_eq hj)]
    refine ensures_ite.mpr ⟨fun _ => ensures_pure.mpr hcount, fun _ => ?_⟩
    refine bread_ensures.bind ?_
    rintro r t' hcount'
    cases r with
    | false =>
      refine ensures_pure.mpr fun x => ?_
      rw [hcount' x]
      exact hcount x
    | true =>
      refine ensures_pure.mpr fun x => ?_
      rw [hcount' x, if_pos rfl, ← hcount x]
      omega
  · unfold bmap
    rw [if_pos (Nat.le_of_not_lt hj), ensures_bind]
    exact ensures_throw

theorem emptyLoop_releases (fuel : Nat) : Ensures (emptyLoop inode len fuel nr b e) s fun _ t =>
    ∀ x, t.zones.count x + one b x ≤ s.zones.count x := by
  induction fuel generalizing s nr b e with
  | zero =>
    refine brelse_ensures.bind fun _ t ht => ensures_pure.mpr fun x => ?_
    exact (ht.2 x).le
  | succ fuel ih =>
    refine ensures_ite.mpr ⟨fun _ => ?_, fun _ => ?_⟩
    · refine brelse_ensures.bind fun _ t ht => ensures_pure.mpr fun x => ?_
      exact (ht.2 x).le
    refine next_ensures.bind ?_
    rintro (⟨b', e'⟩ | - | -) t ht
    · refine ensures_ite.mpr ⟨fun _ => ?_, fun _ => ?_⟩
      · refine brelse_ensures.bind fun _ t' ht' => ensures_pure.mpr fun x => ?_
        have := ht x
        have := ht'.2 x
        omega
      · refine ih.imp fun _ t' ht' x => ?_
        have := ht x
        have := ht' x
        omega
    · refine ih.imp fun _ t' ht' x => ?_
      have := ht x
      have := ht' x
      omega
    · exact ensures_pure.mpr fun x => (ht x).le

def Checks (s : Disk) (inode : Inode) (len nr : Nat) : Bool → Disk → Prop :=
  fun r t => t = s ∧ (r = true ↔ AllFree s inode len nr)

theorem emptyEnd_returns (hnr : len ≤ nr) :
    Returns (do
      brelse b
      pure true) (s.hold b) (Checks s inode len nr) := by
  rw [returns_bind, returns_of_eq brelse_hold, returns_pure]
  refine ⟨rfl, iff_of_true rfl ⟨fun l hl hlt => absurd hlt (by omega), fun j hj hlt => ?_⟩⟩
  exact absurd hlt (by omega)

theorem emptyLoop_iff (fuel : Nat) (hat : At s inode nr b e) (hfuel : len ≤ nr + fuel) :
    Returns (emptyLoop inode len fuel nr b e) (s.hold b) (Checks s inode len nr) ↔
      HolesBehind s inode len nr := by
  have hpast : ∀ nr, len ≤ nr → HolesBehind s inode len nr :=
    fun nr hle j hj hlt => absurd hlt (by omega)
  induction fuel generalizing nr b e with
  | zero => exact iff_of_true (emptyEnd_returns (by omega)) (hpast nr (by omega))
  | succ fuel ih =>
    rw [emptyLoop]
    by_cases hle : len ≤ nr
    · rw [if_pos hle]
      exact iff_of_true (emptyEnd_returns hle) (hpast nr hle)
    rw [if_neg hle, returns_bind]
    rcases next_cases hat with ⟨b', e', hnext, hat', he'⟩ | ⟨j, rfl, hj, h0, hnext⟩ |
      ⟨j, rfl, hun, hnext⟩ | ⟨j, rfl, hj, err, s', hnext⟩
    · obtain ⟨-, he, hread, hb⟩ := hat'.resolve_right fun h => by omega
      rw [returns_of_eq hnext]
      simp only [returns_bind, returns_get]
      by_cases hocc : Occupied s inode nr
      · have hd : deInode ((s.hold b').zones.block b') e' ≠ 0 := by
          rw [he, hb]
          exact hocc.2
        rw [if_pos hd, returns_bind, returns_of_eq brelse_hold, returns_pure]
        refine iff_of_true ⟨rfl, iff_of_false (by decide) fun h => ?_⟩
          (holesBehind_of_occupied hocc)
        exact h.1 nr (Nat.le_refl nr) (by omega) hocc
      · have hd : ¬deInode ((s.hold b').zones.block b') e' ≠ 0 := by
          intro hd
          rw [he, hb] at hd
          exact hocc ⟨hread, hd⟩
        have hrest := ih (hat'.succ he') (by omega)
        rw [if_neg hd, ← holesBehind_succ hread hocc]
        refine Iff.trans ?_ hrest
        unfold Checks
        rw [allFree_succ hread hocc]
    · -- the buffer is given back a second time
      rw [returns_of_eq hnext]
      refine iff_of_false (fun hret => ?_) fun h => ?_
      · obtain ⟨r, t, -, ⟨rfl, -⟩, hcount⟩ := hret.and_ensures (emptyLoop_releases fuel)
        have := hcount b
        rw [one, if_pos rfl] at this
        omega
      · refine (h j (Nat.le_refl _) (by omega) (fun l hl hl' => by omega) fun j' hj' hlt => ?_).2 h0
        exact absurd (Nat.le_of_mul_le_mul_left hj' (by decide)) (by omega)
    · rw [returns_of_eq hnext]
      refine iff_of_true (returns_pure.mpr ⟨rfl, iff_of_false (by decide) fun h => ?_⟩)
        (holesBehind_of_unreadable hun)
      exact h.2 j (Nat.le_refl _) (by omega) hun
    · refine iff_of_false ?_ fun h => ?_
      · rintro ⟨a, t, hok, -⟩
        rw [hnext] at hok
        cases hok
      · have := (h j (Nat.le_refl _) (by omega) (fun l hl hl' => by omega) fun j' hj' hlt =>
          absurd (Nat.le_of_mul_le_mul_left hj' (by decide)) (by omega)).1
        omega

/-- `empty_dir` returns 1 exactly when all later entries are free. -/
def ChecksEmpty (s : Disk) (inode : Inode) : Prop :=
  Returns (emptyDir inode) s (Checks s inode (dirLength inode.iSize) 2)

theorem checksEmpty_iff (h0 : inode.iZone 0 ≠ 0) (hread : s.unreadable (inode.iZone 0) = false) :
    ChecksEmpty s inode ↔
      2 ≤ dirLength inode.iSize ∧
      goodDirectory inode.iNum (s.zones.block (inode.iZone 0)) = true ∧
      HolesBehind s inode (dirLength inode.iSize) 2 := by
  unfold ChecksEmpty emptyDir
  by_cases hlen : dirLength inode.iSize < 2
  · have hfree : AllFree s inode (dirLength inode.iSize) 2 :=
      ⟨fun l hl hlt => absurd hlt (by omega), fun j hj hlt => absurd hlt (by omega)⟩
    simp only [hlen, true_or, if_true, returns_pure]
    refine iff_of_false (fun h => ?_) fun h => by omega
    exact absurd (h.2.mpr hfree) (by decide)
  · have hnot : ¬(dirLength inode.iSize < 2 ∨ inode.iZone 0 = 0) := by simp [hlen, h0]
    have hat : At s inode 2 (inode.iZone 0) 2 := .inl ⟨by decide, rfl, ⟨by decide, h0, hread⟩, rfl⟩
    simp only [hnot, if_false]
    rw [returns_bind, returns_of_eq (bread_eq hread), if_pos rfl, returns_bind, returns_get]
    by_cases hgood : goodDirectory inode.iNum (s.zones.block (inode.iZone 0)) = true
    · have hgood' : goodDirectory inode.iNum
        ((s.hold (inode.iZone 0)).zones.block (inode.iZone 0)) =
          true := hgood
      rw [if_pos hgood', emptyLoop_iff _ hat (by omega)]
      exact ⟨fun h => ⟨by omega, hgood, h⟩, fun h => h.2.2⟩
    have hgood' : ¬goodDirectory inode.iNum
        ((s.hold (inode.iZone 0)).zones.block (inode.iZone 0)) = true := hgood
    rw [if_neg hgood', returns_pure]
    refine iff_of_false (fun h => ?_) fun h => hgood h.2.1
    have hcount := count_hold (s := s) (b := inode.iZone 0) (inode.iZone 0)
    rw [h.1, one, if_pos rfl] at hcount
    omega

end Empty

/-- Both scans are right exactly when no missing block is before the last in the way of the search,
and no hole in that of `empty_dir`. -/
theorem scans_iff {s : Disk} {inode : Inode} {name : List UInt8} (h0 : inode.iZone 0 ≠ 0)
    (hread : s.unreadable (inode.iZone 0) = false) :
    (FindsEntry s inode name ∧ ChecksEmpty s inode) ↔
      (name = [] ∨ MissingLast s inode name (dirLength inode.iSize) 0) ∧
      2 ≤ dirLength inode.iSize ∧
      goodDirectory inode.iNum (s.zones.block (inode.iZone 0)) = true ∧
      HolesBehind s inode (dirLength inode.iSize) 2 :=
  and_congr (findsEntry_iff h0 hread) (checksEmpty_iff h0 hread)

/-- A directory with 130 entries, of which the second block is a hole. -/
def holeDir : Inode where
  iMode := 0o040755
  iUid := 0
  iSize := 2080
  iGid := 0
  iNlinks := 2
  iZone := update (update (fun _ => 0) 0 10) 2 11
  iDev := 0x301
  iNum := 2
  iCount := 1
  iDirt := false
  iPipe := false

def holeDisk : Disk where
  zones :=
    { sb := { oneZone with sNzones := 12, nzones_lt := by decide }
      zmap := fun _ => none
      block := update (fun _ => clearBlock) 10 (dotEntries 2 1 clearBlock)
      count := fun _ => 0 }
  unreadable _ := false

theorem scans_iff_holeDir :
    (FindsEntry holeDisk holeDir [120] ∧ ChecksEmpty holeDisk holeDir) ↔
      ([120] = ([] : List UInt8) ∨ MissingLast holeDisk holeDir [120] (dirLength holeDir.iSize) 0) ∧
      2 ≤ dirLength holeDir.iSize ∧
      goodDirectory holeDir.iNum (holeDisk.zones.block (holeDir.iZone 0)) = true ∧
      HolesBehind holeDisk holeDir (dirLength holeDir.iSize) 2 :=
  scans_iff (by decide) rfl

theorem holeDir_entries : ∀ l < 64, matchEntry [120] (dotEntries 2 1 clearBlock) l = false ∧
    (2 ≤ l → deInode (dotEntries 2 1 clearBlock) l = 0) := by
  decide

/-- The search uses a null pointer, and `empty_dir` frees a buffer twice. -/
theorem holeDir_fails : ¬FindsEntry holeDisk holeDir [120] ∧ ¬ChecksEmpty holeDisk holeDir := by
  have hlen : dirLength holeDir.iSize = 130 := by decide
  have hzone : zoneAt holeDisk holeDir 1 = 0 := by decide
  have hfirst : ∀ l, l < dirEntriesPerBlock * 1 → l < 64 ∧ l / dirEntriesPerBlock = 0 ∧
      l % dirEntriesPerBlock = l := by
    intro l hl
    unfold dirEntriesPerBlock at *
    omega
  constructor
  · rw [findsEntry_iff (by decide) rfl, hlen]
    rintro (hnil | hlast)
    · cases hnil
    · have hend := (hlast 1 (by decide) (by decide) fun l _ hl hmatch => ?_).2 fun h => h.2.1 hzone
      · exact absurd hend (by decide)
      · obtain ⟨h64, hdiv, hmod⟩ := hfirst l hl
        have hm := hmatch.2.2
        rw [hdiv, hmod] at hm
        exact absurd (hm.symm.trans (holeDir_entries l h64).1) (by decide)
  · rw [checksEmpty_iff (by decide) rfl, hlen]
    rintro ⟨-, -, hholes⟩
    refine (hholes 1 (by decide) (by decide) (fun l hl hl' hocc => ?_) fun j hj hj' hun => ?_).2
      hzone
    · obtain ⟨h64, hdiv, hmod⟩ := hfirst l hl'
      have hd := hocc.2
      rw [hdiv, hmod] at hd
      exact hd ((holeDir_entries l h64).2 hl)
    · obtain rfl : j = 0 := by omega
      exact absurd hj (by decide)

end Linux001.Namei.Scans
