import Linux001.Namei.Counts
import Linux001.Fs.BlockMap

/-! The file system as the functions of `fs/namei.c` see it when every block can be read: the inode
of a number, wherever it is kept, and the entries of a directory. -/

namespace Linux001.Namei

open Function Fs ProofKit

variable {k k' : Kernel} {i j : Slot} {n b : Nat} {m : CoreInode}

/-! ### Inodes and entries -/

def zoneAt (data : Nat → Block) (iZone : Nat → Nat) (block : Nat) : Nat :=
  if block < 7 then iZone block
  else if block - 7 < 512 then
    if iZone 7 = 0 then 0 else entry (data (iZone 7)) (block - 7)
  else if iZone 8 = 0 then 0
  else
    let zone := entry (data (iZone 8)) ((block - 7 - 512) / 512)
    if zone = 0 then 0 else entry (data zone) ((block - 7 - 512) % 512)

namespace Kernel

def node (k : Kernel) (n : Nat) : Fields :=
  match k.lookup k.dev n with
  | some i => fields (k.inode i).toInode
  | none => (k.dinode n).toFields

def entryZone (k : Kernel) (m : Fields) (j : Nat) : Nat :=
  zoneAt k.zones.block m.iZone (j / dirEntriesPerBlock)

/-- The entry has the name, of which only `NAME_LEN` bytes count. -/
def entryFits (k : Kernel) (m : Fields) (name : List UInt8) (j : Nat) : Bool :=
  matchEntry (name.take nameLen) (k.zones.block (k.entryZone m j)) (j % dirEntriesPerBlock)

def entryInode (k : Kernel) (m : Fields) (j : Nat) : Nat :=
  deInode (k.zones.block (k.entryZone m j)) (j % dirEntriesPerBlock)

def entryOf (k : Kernel) (m : Fields) (name : List UInt8) : Option Nat :=
  if name = [] then none else (List.range (m.iSize / 16)).find? (k.entryFits m name)

def child (k : Kernel) (d : Nat) (name : List UInt8) : Option Nat :=
  (k.entryOf (k.node d) name).map (k.entryInode (k.node d))

structure HoleFree (k : Kernel) (m : Fields) : Prop where
  size : m.iSize ≤ 1024 * maxBlocks
  zone : ∀ j < m.iSize / 16, k.entryZone m j ≠ 0

def At (k : Kernel) (i : Slot) (n : Nat) : Prop :=
  (k.inode i).iDev = k.dev ∧ (k.inode i).iNum = n

instance (k : Kernel) (i : Slot) (n : Nat) : Decidable (k.At i n) :=
  inferInstanceAs (Decidable (_ ∧ _))

/-- No inode is in the table twice, and clean ones are as on the disk. -/
structure Coherent (k : Kernel) : Prop where
  dev : k.dev ≠ 0
  readable : k.failures = []
  unique : ∀ i j n, k.At i n → k.At j n → i = j
  dirty : ∀ i, (k.inode i).iDirt = true → (k.inode i).iDev = k.dev
  clean : ∀ i n, k.At i n → (k.inode i).iDirt = false →
    fields (k.inode i).toInode = (k.dinode n).toFields
  pipe : ∀ i n, k.At i n → (k.inode i).iPipe = false

structure Keeps (k k' : Kernel) : Prop where
  node : k'.node = k.node
  block : k'.zones.block = k.zones.block
  dev : k'.dev = k.dev
  task : k'.task = k.task

theorem Keeps.refl (k : Kernel) : Keeps k k := ⟨rfl, rfl, rfl, rfl⟩

theorem Keeps.trans {k1 k2 k3 : Kernel} (h : Keeps k1 k2) (h' : Keeps k2 k3) : Keeps k1 k3 :=
  ⟨h'.node.trans h.node, h'.block.trans h.block, h'.dev.trans h.dev, h'.task.trans h.task⟩

theorem setInode_self (k : Kernel) (i : Slot) (m : CoreInode) : (k.setInode i m).inode i = m :=
  update_self _ _ _

theorem setInode_of_ne {i j : Slot} (hj : j ≠ i) (k : Kernel) (m : CoreInode) :
    (k.setInode i m).inode j = k.inode j := update_of_ne hj _ _

/-- Slots with references keep their inodes, and only those of `S` come in. -/
structure Stays (S : Set Nat) (b : Slot → Nat) (k k' : Kernel) : Prop where
  slot : ∀ i, b i ≠ 0 → (k'.inode i).iDev = (k.inode i).iDev ∧ (k'.inode i).iNum = (k.inode i).iNum
  cached : (∀ i n, k.At i n → n ∈ S) → ∀ i n, k'.At i n → n ∈ S
  zones : k'.zones = k.zones
  imap : k'.imap = k.imap

section Stays

variable {S : Set Nat} {b : Slot → Nat} {k k' : Kernel} {i : Slot}

theorem Stays.of_eq (hdev : k'.dev = k.dev)
    (hinode : ∀ i, (k'.inode i).iDev = (k.inode i).iDev ∧ (k'.inode i).iNum = (k.inode i).iNum)
    (hzones : k'.zones = k.zones) (himap : k'.imap = k.imap) : Stays S b k k' where
  slot i _ := hinode i
  cached h i n hi := by
    rw [At, (hinode i).1, (hinode i).2, hdev] at hi
    exact h i n hi
  zones := hzones
  imap := himap

theorem Stays.refl (S : Set Nat) (b : Slot → Nat) (k : Kernel) : Stays S b k k :=
  .of_eq rfl (fun _ => ⟨rfl, rfl⟩) rfl rfl

theorem Stays.trans {k1 k2 k3 : Kernel} (h : Stays S b k1 k2) (h' : Stays S b k2 k3) :
    Stays S b k1 k3 where
  slot i hi := ⟨(h'.slot i hi).1.trans (h.slot i hi).1, (h'.slot i hi).2.trans (h.slot i hi).2⟩
  cached hk := h'.cached (h.cached hk)
  zones := h'.zones.trans h.zones
  imap := h'.imap.trans h.imap

theorem Stays.setInode (hslot : b i ≠ 0 → m.iDev = (k.inode i).iDev ∧ m.iNum = (k.inode i).iNum)
    (hcached : m.iDev = k.dev → m.iNum ∈ S ∨ k.At i m.iNum) : Stays S b k (k.setInode i m) where
  slot j hj := by
    by_cases hji : j = i
    · subst hji
      rw [setInode_self]
      exact hslot hj
    · rw [setInode_of_ne hji]
      exact ⟨rfl, rfl⟩
  cached h j n hj := by
    unfold At at hj
    by_cases hji : j = i
    · rw [hji, setInode_self] at hj
      rw [← hj.2]
      exact (hcached hj.1).elim id (h i m.iNum)
    · rw [setInode_of_ne hji] at hj
      exact h j n hj
  zones := rfl
  imap := rfl

end Stays

end Kernel

open Kernel

theorem lookup_eq_none (h : ∀ i, ¬k.At i n) : k.lookup k.dev n = none := by
  rw [Kernel.lookup, List.find?_eq_none]
  intro i _ hi
  exact h i (by simpa [At] using hi)

theorem at_of_lookup (h : k.lookup k.dev n = some i) : k.At i n := by
  simpa [At] using List.find?_some h

theorem Kernel.Coherent.lookup_eq (h : Coherent k) (hi : k.At i n) :
    k.lookup k.dev n = some i := by
  cases hl : k.lookup k.dev n with
  | none =>
    rw [Kernel.lookup, List.find?_eq_none] at hl
    exact absurd hi (by simpa [At] using hl i (List.mem_finRange i))
  | some j => rw [h.unique j i n (at_of_lookup hl) hi]

theorem Kernel.Coherent.node_eq (h : Coherent k) (hi : k.At i n) :
    k.node n = fields (k.inode i).toInode := by
  rw [node, h.lookup_eq hi]

theorem node_of_none (h : ∀ i, ¬k.At i n) : k.node n = (k.dinode n).toFields := by
  rw [node, lookup_eq_none h]

/-! ### Blocks -/

def Kernel.hold (k : Kernel) (b : Nat) : Kernel := { k with zones := k.zones.hold b }

theorem bread_eq (h : k.failures = []) (b : Nat) : bread b k = .ok true (k.hold b) :=
  breadOr_ok (by rw [readFails, h])

theorem brelse_eq (k : Kernel) (b : Nat) : brelse b (k.hold b) = .ok ⟨⟩ k :=
  onZones_brelse rfl

theorem blockSlot_eq (h : k.failures = []) (b n : Nat) :
    blockSlot false b n k = .ok (entry (k.zones.block b) n) k := by
  unfold blockSlot
  rw [bind_of_eq (bread_eq h b), if_pos rfl,
    get_bind, if_neg (by simp),
    bind_of_eq (brelse_eq k b)]
  rfl

theorem inodeSlot_eq (k : Kernel) (i : Slot) (n : Nat) :
    inodeSlot false i n k = .ok ((k.inode i).iZone n) k := by
  rfl

theorem bmap_eq (h : k.failures = []) {block : Nat} (hblock : block < maxBlocks) :
    bmap i block k = .ok (zoneAt k.zones.block (k.inode i).iZone block) k := by
  unfold maxBlocks at hblock
  unfold bmap bmap' zoneAt
  rw [if_neg (by omega)]
  split
  · exact inodeSlot_eq k i block
  split
  · rw [bind_of_eq (inodeSlot_eq k i 7)]
    split
    · rfl
    · exact blockSlot_eq h _ _
  rw [bind_of_eq (inodeSlot_eq k i 8)]
  split
  · rfl
  · rw [bind_of_eq (blockSlot_eq h _ _)]
    dsimp only
    split
    · rfl
    · exact blockSlot_eq h _ _

/-! ### `find_entry` -/

/-- What `find_entry` returns, with the buffer of the entry held. -/
def found (k : Kernel) (m : Fields) : Option Nat → EStateM.Result Stop Kernel (Option (Nat × Nat))
  | none => .ok none k
  | some j => .ok (some (k.entryZone m j, j % dirEntriesPerBlock)) (k.hold (k.entryZone m j))

section
variable {name : List UInt8} {m : Fields}

theorem findPointer_eq (hread : k.failures = []) (hm : fields (k.inode i).toInode = m)
    (hdir : k.HoleFree m) {p e : Nat} (hp : p < m.iSize / 16)
    (hplace : b = k.entryZone m p ∧ p % 64 = e ∨ e = 64 ∧ p % 64 = 0) :
    findPointer i p (some (b, e)) (k.hold b) =
      .ok (.entry (k.entryZone m p) (p % 64)) (k.hold (k.entryZone m p)) := by
  have hsize := hdir.size
  have hzones : (k.inode i).iZone = m.iZone := by rw [← hm]; rfl
  unfold findPointer
  dsimp only
  rcases hplace with ⟨rfl, rfl⟩ | ⟨rfl, hzero⟩
  · rw [if_pos (show p % 64 < dirEntriesPerBlock by unfold dirEntriesPerBlock; omega)]
    rfl
  · rw [if_neg (by decide), bind_of_eq (brelse_eq k b)]
    unfold findNext
    rw [bind_of_eq (bmap_eq hread (by unfold dirEntriesPerBlock; omega)), hzones]
    have hz : zoneAt k.zones.block m.iZone (p / dirEntriesPerBlock) ≠ 0 := hdir.zone p hp
    rw [if_neg hz, bind_of_eq (bread_eq hread _), if_pos rfl, hzero]
    rfl

theorem findLoop_eq (hread : k.failures = []) (hm : fields (k.inode i).toInode = m)
    (hdir : k.HoleFree m) {fuel p e : Nat} (hfuel : p + fuel = m.iSize / 16)
    (hplace : 0 < fuel → b = k.entryZone m p ∧ p % 64 = e ∨ e = 64 ∧ p % 64 = 0) :
    findLoop i (name.take nameLen) (m.iSize / 16) fuel p (some (b, e)) (k.hold b) =
      found k m ((List.range' p fuel).find? (k.entryFits m name)) := by
  induction fuel generalizing p b e with
  | zero =>
    show (brelse b >>= fun _ => pure none) (k.hold b) = _
    rw [bind_of_eq (brelse_eq k b)]
    rfl
  | succ fuel ih =>
    have hp : p < m.iSize / 16 := by omega
    unfold findLoop
    rw [if_neg (by omega), bind_of_eq (findPointer_eq hread hm hdir hp (hplace (by omega)))]
    dsimp only
    rw [get_bind, List.range'_succ]
    -- the block is the same while its buffer is held
    rw [show matchEntry (name.take nameLen)
      ((k.hold (k.entryZone m p)).zones.block (k.entryZone m p))
      (p % 64) = k.entryFits m name p from rfl]
    cases hfit : k.entryFits m name p with
    | true =>
      rw [List.find?_cons_of_pos hfit, if_pos rfl]
      rfl
    | false =>
      rw [List.find?_cons_of_neg (by simp [hfit]), if_neg Bool.false_ne_true]
      refine ih (by omega) fun _ => ?_
      by_cases hlast : p % 64 + 1 = 64
      · exact .inr ⟨hlast, by omega⟩
      · refine .inl ⟨?_, by omega⟩
        unfold entryZone dirEntriesPerBlock
        rw [show (p + 1) / 64 = p / 64 by omega]

theorem dirLength_eq {size : Nat} (h : size ≤ 1024 * maxBlocks) : dirLength size = size / 16 := by
  unfold maxBlocks at h
  unfold dirLength
  rw [Nat.mod_eq_of_lt (by omega), if_pos (by omega)]

theorem findEntry_eq (hread : k.failures = []) (hm : fields (k.inode i).toInode = m)
    (hdir : k.HoleFree m) (name : List UInt8) :
    findEntry i name k = found k m (k.entryOf m name) := by
  have hsize : (k.inode i).iSize = m.iSize := by rw [← hm]; rfl
  have hzone : (k.inode i).iZone 0 = k.entryZone m 0 := by rw [← hm]; rfl
  have htake : name.take nameLen = [] ↔ name = [] := by simp [nameLen]
  unfold findEntry
  rw [get_bind]
  rw [hsize, dirLength_eq hdir.size, hzone, entryOf]
  by_cases hname : name = []
  · rw [if_pos (.inl (htake.mpr hname)), if_pos hname]
    rfl
  rw [if_neg hname]
  by_cases hz : k.entryZone m 0 = 0
  · rw [if_pos (.inr hz)]
    have hempty : m.iSize / 16 = 0 := by
      by_contra hne
      exact hdir.zone 0 (Nat.pos_of_ne_zero hne) hz
    rw [hempty]
    rfl
  · rw [if_neg (by simp [htake, hname, hz]), bind_of_eq (bread_eq hread _), if_pos rfl,
      findLoop_eq hread hm hdir (Nat.zero_add _) fun _ => .inl ⟨rfl, rfl⟩, List.range_eq_range']

end

/-! ### The table of inodes -/

structure Alike (k k' : Kernel) : Prop where
  inode : ∀ i, fields (k'.inode i).toInode = fields (k.inode i).toInode ∧
    (k'.inode i).iDev = (k.inode i).iDev ∧ (k'.inode i).iNum = (k.inode i).iNum ∧
    (k'.inode i).iDirt = (k.inode i).iDirt ∧ (k'.inode i).iPipe = (k.inode i).iPipe
  dinode : k'.dinode = k.dinode
  block : k'.zones.block = k.zones.block
  dev : k'.dev = k.dev
  task : k'.task = k.task
  failures : k'.failures = k.failures

theorem Alike.at_iff (h : Alike k k') : k'.At i n ↔ k.At i n := by
  rw [At, At, (h.inode i).2.1, (h.inode i).2.2.1, h.dev]

theorem node_congr (hk : Coherent k) (hk' : Coherent k') (h : ∀ n,
    (∃ i j, k.At i n ∧ k'.At j n ∧ fields (k'.inode j).toInode = fields (k.inode i).toInode) ∨
    (∃ i, k.At i n ∧ (∀ j, ¬k'.At j n) ∧ (k'.dinode n).toFields = fields (k.inode i).toInode) ∨
    (∃ j, (∀ i, ¬k.At i n) ∧ k'.At j n ∧ fields (k'.inode j).toInode = (k.dinode n).toFields) ∨
    (∀ i, ¬k.At i n) ∧ (∀ j, ¬k'.At j n) ∧ (k'.dinode n).toFields = (k.dinode n).toFields) :
    k'.node = k.node := by
  funext n
  rcases h n with ⟨i, j, hi, hj, heq⟩ | ⟨i, hi, hnone, heq⟩ | ⟨j, hnone, hj, heq⟩ |
    ⟨hnone, hnone', heq⟩
  · rw [hk'.node_eq hj, hk.node_eq hi, heq]
  · rw [node_of_none hnone, hk.node_eq hi, heq]
  · rw [hk'.node_eq hj, node_of_none hnone, heq]
  · rw [node_of_none hnone', node_of_none hnone, heq]

theorem Kernel.Coherent.alike (h : Coherent k) (ha : Alike k k') : Coherent k' ∧ Keeps k k' := by
  have hk' : Coherent k' :=
    { dev := by rw [ha.dev]; exact h.dev
      readable := ha.failures.trans h.readable
      unique := fun i j n hi hj => h.unique i j n (ha.at_iff.mp hi) (ha.at_iff.mp hj)
      dirty := fun i hi => by
        rw [(ha.inode i).2.1, ha.dev]
        exact h.dirty i ((ha.inode i).2.2.2.1.symm.trans hi)
      clean := fun i n hi hc => by
        rw [(ha.inode i).1, ha.dinode]
        exact h.clean i n (ha.at_iff.mp hi) ((ha.inode i).2.2.2.1.symm.trans hc)
      pipe := fun i n hi => by
        rw [(ha.inode i).2.2.2.2]
        exact h.pipe i n (ha.at_iff.mp hi) }
  refine ⟨hk', node_congr h hk' fun n => ?_, ha.block, ha.dev, ha.task⟩
  by_cases hn : ∃ i, k.At i n
  · obtain ⟨i, hi⟩ := hn
    exact .inl ⟨i, i, hi, ha.at_iff.mpr hi, (ha.inode i).1⟩
  · rw [not_exists] at hn
    exact .inr (.inr (.inr ⟨hn, fun j hj => hn j (ha.at_iff.mp hj), by rw [ha.dinode]⟩))

theorem alike_setCount (k : Kernel) (i : Slot) (c : Nat) :
    Alike k (k.setInode i { k.inode i with iCount := c }) where
  inode j := by
    by_cases hj : j = i
    · subst hj
      simp [setInode, fields]
    · simp [setInode, hj]
  dinode := rfl
  block := rfl
  dev := rfl
  task := rfl
  failures := rfl

theorem Alike.trans {k1 k2 k3 : Kernel} (h : Alike k1 k2) (h' : Alike k2 k3) : Alike k1 k3 where
  inode i := by
    obtain ⟨hf, hd, hn, hdirt, hp⟩ := h.inode i
    obtain ⟨hf', hd', hn', hdirt', hp'⟩ := h'.inode i
    exact ⟨hf'.trans hf, hd'.trans hd, hn'.trans hn, hdirt'.trans hdirt, hp'.trans hp⟩
  dinode := h'.dinode.trans h.dinode
  block := h'.block.trans h.block
  dev := h'.dev.trans h.dev
  task := h'.task.trans h.task
  failures := h'.failures.trans h.failures

theorem writeInode_eq (hread : k.failures = []) (hdev : (k.inode i).iDev = k.dev) :
    writeInode i k = .ok ⟨⟩ (k.storeInode i) := by
  unfold writeInode withInodeBlock
  rw [get_bind, if_neg (by simpa using hdev),
    bind_of_eq (bread_eq hread _), if_pos rfl]
  exact brelse_eq (k.storeInode i) _

theorem readInode_eq (hread : k.failures = []) (hdev : (k.inode i).iDev = k.dev) :
    readInode i k = .ok ⟨⟩ (k.loadInode i) := by
  unfold readInode withInodeBlock
  rw [get_bind, if_neg (by simpa using hdev),
    bind_of_eq (bread_eq hread _), if_pos rfl]
  exact brelse_eq (k.loadInode i) _

theorem storeInode_inode (k : Kernel) (i j : Slot) : (k.storeInode i).inode j =
    if j = i then { k.inode i with iDirt := false } else k.inode j := by
  by_cases hj : j = i
  · subst hj
    simp [storeInode, setInode]
  · simp [storeInode, setInode, hj]

theorem at_storeInode (k : Kernel) (i : Slot) : (k.storeInode i).At j n ↔ k.At j n := by
  unfold At
  rw [storeInode_inode]
  by_cases hj : j = i
  · subst hj
    rw [if_pos rfl]
    rfl
  · rw [if_neg hj]
    rfl

theorem Kernel.Coherent.store (h : Coherent k) (hi : k.At i n) :
    Coherent (k.storeInode i) ∧ Keeps k (k.storeInode i) := by
  have hfields : ∀ j, fields ((k.storeInode i).inode j).toInode = fields (k.inode j).toInode := by
    intro j
    rw [storeInode_inode]
    by_cases hj : j = i
    · rw [if_pos hj, hj]
      rfl
    · rw [if_neg hj]
  have hdisk : ∀ n', n' ≠ n → (k.storeInode i).dinode n' = k.dinode n' := by
    intro n' hne
    exact update_of_ne (by rw [hi.2]; exact hne) _ _
  have hdisk' : ((k.storeInode i).dinode n).toFields = fields (k.inode i).toInode := by
    show (update k.dinode (k.inode i).iNum (k.inode i).disk n).toFields = _
    rw [hi.2, update_self]
    rfl
  have hk' : Coherent (k.storeInode i) :=
    { dev := h.dev
      readable := h.readable
      unique := fun j j' n' hj hj' =>
        h.unique j j' n' ((at_storeInode k i).mp hj) ((at_storeInode k i).mp hj')
      dirty := fun j hj => by
        rw [storeInode_inode] at hj ⊢
        by_cases hji : j = i
        · rw [if_pos hji] at hj
          cases hj
        · rw [if_neg hji] at hj ⊢
          exact h.dirty j hj
      clean := fun j n' hj hc => by
        have hold := (at_storeInode k i).mp hj
        rw [hfields]
        by_cases hji : j = i
        · subst hji
          obtain rfl : n' = n := hold.2.symm.trans hi.2
          exact hdisk'.symm
        · rw [storeInode_inode, if_neg hji] at hc
          rw [hdisk n' fun hn => hji (h.unique j i n' hold (hn ▸ hi))]
          exact h.clean j n' hold hc
      pipe := fun j n' hj => by
        have hold := (at_storeInode k i).mp hj
        rw [storeInode_inode]
        by_cases hji : j = i
        · rw [if_pos hji]
          exact h.pipe i n hi
        · rw [if_neg hji]
          exact h.pipe j n' hold }
  refine ⟨hk', node_congr h hk' fun n' => ?_, rfl, rfl, rfl⟩
  by_cases hn : ∃ j, k.At j n'
  · obtain ⟨j, hj⟩ := hn
    exact .inl ⟨j, j, hj, (at_storeInode k i).mpr hj, hfields j⟩
  · rw [not_exists] at hn
    refine .inr (.inr (.inr ⟨hn, fun j hj => hn j ((at_storeInode k i).mp hj), ?_⟩))
    rw [hdisk n' fun hne => hn i (hne ▸ hi)]

def Kernel.flushed (k : Kernel) (i : Slot) : Kernel :=
  if (k.inode i).iDirt then k.storeInode i else k

theorem flush_eq (hread : k.failures = [])
    (hdev : (k.inode i).iDirt = true → (k.inode i).iDev = k.dev) :
    flush i k = .ok ⟨⟩ (k.flushed i) := by
  unfold flush flushed
  rw [get_bind]
  unfold doIf
  by_cases hd : (k.inode i).iDirt = true
  · rw [if_pos hd, if_pos hd]
    exact writeInode_eq hread (hdev hd)
  · rw [if_neg hd, if_neg hd]
    rfl

theorem Kernel.Coherent.flush (h : Coherent k) (i : Slot) :
    Coherent (k.flushed i) ∧ Keeps k (k.flushed i) := by
  unfold flushed
  by_cases hd : (k.inode i).iDirt = true
  · rw [if_pos hd]
    exact h.store ⟨h.dirty i hd, rfl⟩
  · rw [if_neg hd]
    exact ⟨h, .refl k⟩

theorem flushed_inode (k : Kernel) (i j : Slot) : (k.flushed i).inode j =
    if j = i then { k.inode i with iDirt := false } else k.inode j := by
  unfold flushed
  by_cases hd : (k.inode i).iDirt = true
  · rw [if_pos hd, storeInode_inode]
  · rw [if_neg hd]
    by_cases hj : j = i
    · rw [if_pos hj, hj, ← Bool.eq_false_iff.mpr hd]
    · rw [if_neg hj]

theorem stays_flushed (S : Set Nat) (b : Slot → Nat) (k : Kernel) (i : Slot) :
    Stays S b k (k.flushed i) := by
  refine .of_eq ?_ (fun j => ?_) ?_ ?_
  · unfold flushed
    split <;> rfl
  · rw [flushed_inode]
    by_cases hj : j = i
    · rw [if_pos hj, hj]
      exact ⟨rfl, rfl⟩
    · rw [if_neg hj]
      exact ⟨rfl, rfl⟩
  · unfold flushed
    split <;> rfl
  · unfold flushed
    split <;> rfl

theorem flushed_dinode {m : Nat} (hm : ¬((k.inode i).iDirt = true ∧ (k.inode i).iNum = m)) :
    (k.flushed i).dinode m = k.dinode m := by
  unfold flushed
  split
  · rename_i hd
    exact update_of_ne (fun hc => hm ⟨hd, hc.symm⟩) _ _
  · rfl

def Kernel.putBack (k : Kernel) (i : Slot) : Kernel :=
  let k₁ := if 1 < (k.inode i).iCount then k else k.flushed i
  k₁.setInode i { k₁.inode i with iCount := (k₁.inode i).iCount - 1 }

theorem iput_eq (hread : k.failures = []) (hdev : (k.inode i).iDev = k.dev) (h0 : k.dev ≠ 0)
    (hpipe : (k.inode i).iPipe = false) (hcount : (k.inode i).iCount ≠ 0)
    (hkept : 1 < (k.inode i).iCount ∨ (k.inode i).iNlinks ≠ 0) :
    iput i k = .ok ⟨⟩ (k.putBack i) := by
  unfold iput putBack
  rw [get_bind, if_neg hcount,
    if_neg (by rw [hpipe]; exact Bool.false_ne_true)]
  by_cases hmany : 1 < (k.inode i).iCount
  · rw [if_pos (.inr hmany), if_pos hmany]
    rfl
  · rw [if_neg (by rw [hdev]; simp [h0, hmany]), if_neg (hkept.resolve_left hmany), if_neg hmany,
      bind_of_eq (flush_eq hread fun _ => hdev)]
    rfl

theorem Kernel.Coherent.putBack (h : Coherent k) (i : Slot) :
    Coherent (k.putBack i) ∧ Keeps k (k.putBack i) := by
  unfold Kernel.putBack
  split
  · exact h.alike (alike_setCount k i _)
  · obtain ⟨h1, hkeeps⟩ := h.flush i
    obtain ⟨h2, hkeeps'⟩ := h1.alike (alike_setCount (k.flushed i) i _)
    exact ⟨h2, hkeeps.trans hkeeps'⟩

theorem stays_putBack (S : Set Nat) (b : Slot → Nat) (k : Kernel) (i : Slot) :
    Stays S b k (k.putBack i) := by
  unfold putBack
  split
  · exact .setInode (fun _ => ⟨rfl, rfl⟩) fun hd => .inr ⟨hd, rfl⟩
  · refine (stays_flushed S b k i).trans (.setInode (fun _ => ⟨rfl, rfl⟩) fun hd => .inr ⟨hd, rfl⟩)

theorem Kernel.Coherent.iput_eq (h : Coherent k) (hi : k.At i n) (hcount : (k.inode i).iCount ≠ 0)
    (hkept : 1 < (k.inode i).iCount ∨ (k.node n).iNlinks ≠ 0) :
    iput i k = .ok ⟨⟩ (k.putBack i) := by
  refine Namei.iput_eq h.readable hi.1 h.dev (h.pipe i n hi) hcount (hkept.imp_right fun hl => ?_)
  rw [h.node_eq hi] at hl
  exact hl

theorem iput_returns (h : Coherent k) (hi : k.At i n) (hcount : (k.inode i).iCount ≠ 0)
    (hkept : 1 < (k.inode i).iCount ∨ (k.node n).iNlinks ≠ 0) :
    Returns (iput i) k fun _ k' => Coherent k' ∧ Keeps k k' ∧ ∀ S b, Stays S b k k' := by
  obtain ⟨hc, hkeeps⟩ := h.putBack i
  exact (returns_of_eq (h.iput_eq hi hcount hkept)).mpr
    ⟨hc, hkeeps, fun S b => stays_putBack S b k i⟩

theorem Kernel.Coherent.evict (h : Coherent k) (hclean : (k.inode i).iDirt = false)
    (hm : m.iDev = 0) (hdirt : m.iDirt = false) :
    Coherent (k.setInode i m) ∧ Keeps k (k.setInode i m) := by
  have hother : ∀ j, j ≠ i → (k.setInode i m).inode j = k.inode j :=
    fun j hj => update_of_ne hj _ _
  have hself : (k.setInode i m).inode i = m := update_self _ _ _
  have hat : ∀ j n, (k.setInode i m).At j n ↔ j ≠ i ∧ k.At j n := by
    intro j n
    unfold At
    by_cases hj : j = i
    · subst hj
      rw [hself, hm]
      exact ⟨fun hd => absurd hd.1.symm h.dev, fun hd => absurd rfl hd.1⟩
    · rw [hother j hj]
      exact ⟨fun hd => ⟨hj, hd⟩, fun hd => hd.2⟩
  have hk' : Coherent (k.setInode i m) :=
    { dev := h.dev
      readable := h.readable
      unique := fun j j' n hj hj' => h.unique j j' n ((hat j n).mp hj).2 ((hat j' n).mp hj').2
      dirty := fun j hj => by
        by_cases hji : j = i
        · subst hji
          rw [hself, hdirt] at hj
          cases hj
        · rw [hother j hji] at hj ⊢
          exact h.dirty j hj
      clean := fun j n hj hc => by
        obtain ⟨hji, hj⟩ := (hat j n).mp hj
        rw [hother j hji] at hc ⊢
        exact h.clean j n hj hc
      pipe := fun j n hj => by
        obtain ⟨hji, hj⟩ := (hat j n).mp hj
        rw [hother j hji]
        exact h.pipe j n hj }
  refine ⟨hk', node_congr h hk' fun n => ?_, rfl, rfl, rfl⟩
  by_cases hn : ∃ j, k.At j n
  · obtain ⟨j, hj⟩ := hn
    by_cases hji : j = i
    · subst hji
      refine .inr (.inl ⟨j, hj, fun j' hj' => ?_, (h.clean j n hj hclean).symm⟩)
      exact ((hat j' n).mp hj').1 (h.unique j' j n ((hat j' n).mp hj').2 hj)
    · exact .inl ⟨j, j, hj, (hat j n).mpr ⟨hji, hj⟩, by rw [hother j hji]⟩
  · rw [not_exists] at hn
    exact .inr (.inr (.inr ⟨hn, fun j hj => hn j ((hat j n).mp hj).2, rfl⟩))

theorem Kernel.Coherent.load (h : Coherent k) (hi : (k.inode i).iDev = 0) (hnone : ∀ j, ¬k.At j n)
    (hdev : m.iDev = k.dev) (hnum : m.iNum = n) (hdirt : m.iDirt = false)
    (hpipe : m.iPipe = false) (hfields : fields m.toInode = (k.dinode n).toFields) :
    Coherent (k.setInode i m) ∧ Keeps k (k.setInode i m) := by
  have hother : ∀ j, j ≠ i → (k.setInode i m).inode j = k.inode j :=
    fun j hj => update_of_ne hj _ _
  have hself : (k.setInode i m).inode i = m := update_self _ _ _
  have hne : ∀ j n', k.At j n' → j ≠ i := by
    rintro j n' hj rfl
    exact h.dev (hj.1.symm.trans hi)
  have hat : ∀ j n', (k.setInode i m).At j n' ↔ j = i ∧ n' = n ∨ k.At j n' := by
    intro j n'
    by_cases hj : j = i
    · subst hj
      unfold At
      rw [hself, hdev, hnum]
      constructor
      · exact fun hd => .inl ⟨rfl, hd.2.symm⟩
      · rintro (⟨-, rfl⟩ | hd)
        · exact ⟨rfl, rfl⟩
        · exact absurd rfl (hne j n' hd)
    · unfold At
      rw [hother j hj]
      exact ⟨.inr, fun hd => hd.resolve_left fun hd => hj hd.1⟩
  have hk' : Coherent (k.setInode i m) :=
    { dev := h.dev
      readable := h.readable
      unique := fun j j' n' hj hj' => by
        rcases (hat j n').mp hj with ⟨hji, hn⟩ | hold
        · rcases (hat j' n').mp hj' with ⟨hji', -⟩ | hold'
          · rw [hji, hji']
          · exact absurd (hn ▸ hold') (hnone j')
        · rcases (hat j' n').mp hj' with ⟨-, hn⟩ | hold'
          · exact absurd (hn ▸ hold) (hnone j)
          · exact h.unique j j' n' hold hold'
      dirty := fun j hj => by
        by_cases hji : j = i
        · subst hji
          rw [hself, hdirt] at hj
          cases hj
        · rw [hother j hji] at hj ⊢
          exact h.dirty j hj
      clean := fun j n' hj hc => by
        rcases (hat j n').mp hj with ⟨rfl, rfl⟩ | hj
        · rw [hself]
          exact hfields
        · rw [hother j (hne j n' hj)] at hc ⊢
          exact h.clean j n' hj hc
      pipe := fun j n' hj => by
        rcases (hat j n').mp hj with ⟨rfl, rfl⟩ | hj
        · rw [hself]
          exact hpipe
        · rw [hother j (hne j n' hj)]
          exact h.pipe j n' hj }
  refine ⟨hk', node_congr h hk' fun n' => ?_, rfl, rfl, rfl⟩
  by_cases hn : ∃ j, k.At j n'
  · obtain ⟨j, hj⟩ := hn
    exact .inl ⟨j, j, hj, (hat j n').mpr (.inr hj), by rw [hother j (hne j n' hj)]⟩
  · rw [not_exists] at hn
    by_cases hnn : n' = n
    · subst hnn
      exact .inr (.inr
        (.inl ⟨i, hn, (hat i n').mpr (.inl ⟨rfl, rfl⟩), by rw [hself]; exact hfields⟩))
    · refine .inr (.inr (.inr ⟨hn, fun j hj => ?_, rfl⟩))
      exact ((hat j n').mp hj).elim (fun hd => hnn hd.2) (hn j)

theorem firstFree_of_count (h : (k.inode i).iCount = 0) : ∃ j, k.firstFree = some j := by
  cases hf : k.firstFree with
  | some j => exact ⟨j, rfl⟩
  | none =>
    rw [firstFree, List.find?_eq_none] at hf
    have hmem : i ∈ (List.finRange 32).map (k.last + ·) :=
      List.mem_map.mpr ⟨i - k.last, List.mem_finRange _, Fin.ext (by
        omega)⟩
    exact absurd (decide_eq_true h) (hf i hmem)

theorem getEmptyInode_returns (h : Coherent k) (hfree : (k.inode i).iCount = 0) :
    Returns getEmptyInode k fun j k' => Coherent k' ∧ Keeps k k' ∧
      k'.inode j = { cleared with iCount := 1 } ∧ (k.inode j).iCount = 0 ∧
      ((∀ s, s ≠ j → k'.inode s = k.inode s) ∧ ∀ m, ¬k.At j m → k'.dinode m = k.dinode m) ∧
      ∀ S b, b j = 0 → Stays S b k k' := by
  obtain ⟨j, hj⟩ := firstFree_of_count hfree
  refine .step rfl ?_
  rw [hj]
  have halike : Alike k { k with last := j, freed := k.freed.filter (· ≠ j) } :=
    ⟨fun _ => ⟨rfl, rfl, rfl, rfl, rfl⟩, rfl, rfl, rfl, rfl, rfl⟩
  obtain ⟨h1, hkeeps1⟩ := h.alike halike
  refine .step rfl ?_
  refine .step (flush_eq h1.readable (h1.dirty j)) ?_
  obtain ⟨h2, hkeeps2⟩ := h1.flush j
  refine .step rfl (returns_pure.mpr ?_)
  obtain ⟨h3, hkeeps3⟩ := h2.evict (i := j) (m := { cleared with iCount := 1 })
    (by rw [flushed_inode, if_pos rfl]) rfl rfl
  refine ⟨h3, (hkeeps1.trans hkeeps2).trans hkeeps3, update_self _ _ _, by
    simpa using List.find?_some hj, ⟨fun s hs => ?_, fun m hm => ?_⟩, fun S b hb => ?_⟩
  · rw [setInode_of_ne hs, flushed_inode, if_neg hs]
  · exact flushed_dinode fun hc => hm ⟨h.dirty j hc.1, hc.2⟩
  · have hstays : Stays S b k { k with last := j, freed := k.freed.filter (· ≠ j) } :=
      .of_eq rfl (fun _ => ⟨rfl, rfl⟩) rfl rfl
    refine (hstays.trans (stays_flushed S b _ j)).trans
      (.setInode (fun hc => absurd hb hc) fun hd => ?_)
    exact absurd hd.symm h2.dev

theorem iget_returns (h : Coherent k) (hfree : (k.inode i).iCount = 0) (n : Nat) :
    Returns (iget k.dev n) k fun j k' => Coherent k' ∧ Keeps k k' ∧ k'.At j n ∧
      ∀ S b, n ∈ S → (∀ i, (k.inode i).iCount = 0 → b i = 0) → Stays S b k k' := by
  unfold iget
  rw [if_neg h.dev]
  refine (getEmptyInode_returns h hfree).bind fun e k1 ⟨h1, hkeeps1, he, hzero, _, hstays1⟩ => ?_
  refine .step rfl ?_
  rw [← hkeeps1.dev]
  cases hl : k1.lookup k1.dev n with
  | some j =>
    have hj := at_of_lookup hl
    have hne : e ≠ j := by
      rintro rfl
      refine h1.dev (hj.1.symm.trans ?_)
      rw [he]
      rfl
    -- the slot that was taken is given back
    let k2 : Kernel := { k1 with freed := k1.freed.filter (· ≠ j) }
    let k3 : Kernel := k2.setInode j { k2.inode j with iCount := (k2.inode j).iCount + 1 }
    have halike2 : Alike k1 k2 := ⟨fun _ => ⟨rfl, rfl, rfl, rfl, rfl⟩, rfl, rfl, rfl, rfl, rfl⟩
    have halike3 : Alike k1 k3 := halike2.trans (alike_setCount k2 j _)
    have he3 : k3.inode e = { cleared with iCount := 1 } := (update_of_ne hne _ _).trans he
    have hgrab : igrab j k1 = .ok ⟨⟩ k3 := rfl
    have hput : iput e k3 = .ok ⟨⟩
      (k3.setInode e { k3.inode e with iCount := (k3.inode e).iCount - 1 }) := by
      unfold iput
      rw [get_bind, if_neg (by rw [he3]; exact Nat.one_ne_zero),
        if_neg (by rw [he3]; exact Bool.false_ne_true), if_pos (.inl (by rw [he3]; rfl))]
      rfl
    refine .step hgrab ?_
    refine .step hput (returns_pure.mpr ?_)
    have halike := halike3.trans (alike_setCount k3 e ((k3.inode e).iCount - 1))
    obtain ⟨h4, hkeeps4⟩ := h1.alike halike
    refine ⟨h4, hkeeps1.trans hkeeps4, halike.at_iff.mpr hj, fun S b _ hb => ?_⟩
    exact (hstays1 S b (hb e hzero)).trans
      (.of_eq rfl (fun s => ⟨(halike.inode s).2.1, (halike.inode s).2.2.1⟩) rfl rfl)
  | none =>
    have hnone : ∀ j, ¬k1.At j n := fun j hj => by
      rw [h1.lookup_eq hj] at hl
      cases hl
    let m : CoreInode := { k1.inode e with iDev := k1.dev, iNum := n }
    have hread : readInode e (k1.setInode e m) = .ok ⟨⟩ (k1.setInode e (m.load (k1.dinode n))) := by
      rw [readInode_eq (k := k1.setInode e m) h1.readable (by simp [setInode, m])]
      simp [loadInode, setInode, m]
    refine .step rfl ?_
    refine .step hread (returns_pure.mpr ?_)
    have hload := h1.load (i := e) (m := m.load (k1.dinode n)) (by rw [he]; rfl) hnone rfl rfl
      (by simp [CoreInode.load, m, he, cleared]) (by simp [CoreInode.load, m, he, cleared]) rfl
    refine ⟨hload.1, hkeeps1.trans hload.2, ⟨?_, ?_⟩, fun S b hn hb => ?_⟩
    · simp [setInode, CoreInode.load, m]
    · simp [setInode, CoreInode.load, m]
    · exact (hstays1 S b (hb e hzero)).trans
        (.setInode (fun hc => absurd (hb e hzero) hc) fun _ => .inl hn)

end Linux001.Namei
