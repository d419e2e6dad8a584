import Linux001.Fs.Truncate
import Linux001.ProofKit.Runs

/-! The zone allocation of a mounted file system, over every sequence of `create_block` and
`truncate` calls on a family of files and directories. -/

namespace Linux001.Fs

open Function ProofKit ProofKit.Forest

variable {ι : Type*}

structure Files (ι : Type*) where
  zones : Zones
  inode : ι → Inode

namespace Files

variable {s t : Files ι} {i : ι}

def zone (s : Files ι) (i : ι) : Nat → Nat := (s.inode i).iZone

def pointers (s : Files ι) : Forest (ι × Fin 9) (Fin 512) := forest s.zones s.zone

/-- Every pointer is to a data zone, none is in two slots or held by a call, and the bits of data
zones say which have a slot. -/
structure Allocated (s : Files ι) : Prop where
  file : ∀ i, (isReg (s.inode i).iMode || isDir (s.inode i).iMode) = true
  idle : ∀ n, s.zones.IsData n → s.zones.count n = 0
  reserved : s.zones.Reserved
  range : ∀ r path, path.length ≤ depth r → s.pointers.value r path ≠ 0 →
    s.zones.IsData (s.pointers.value r path)
  distinct : ∀ r path r' path', path.length ≤ depth r → path'.length ≤ depth r' →
    s.pointers.value r path ≠ 0 → s.pointers.value r path = s.pointers.value r' path' →
      r = r' ∧ path = path'
  used : ∀ n, s.zones.IsData n →
    (s.zones.used n = true ↔ ∃ r path, path.length ≤ depth r ∧ s.pointers.value r path = n)

theorem Allocated.zoned (h : s.Allocated) : Zoned s.zones s.zone where
  reserved := h.reserved
  unheld n hn _ := h.idle n hn
  range n hn := by
    rintro ⟨r, path, hlen, rfl⟩
    exact h.range r path hlen hn
  distinct := h.distinct
  used n hn := by
    rintro ⟨r, path, hlen, rfl⟩
    exact (h.used _ (h.range r path hlen hn)).mpr ⟨r, path, hlen, rfl⟩

theorem Allocated.of_zoned (hz : Zoned s.zones s.zone) (he : Exact s.zones s.zone)
    (hfile : ∀ i, (isReg (s.inode i).iMode || isDir (s.inode i).iMode) = true)
    (hidle : ∀ n, s.zones.IsData n → s.zones.count n = 0) : s.Allocated where
  file := hfile
  idle := hidle
  reserved := hz.reserved
  range r path hlen hv := hz.range _ hv ⟨r, path, hlen, rfl⟩
  distinct := hz.distinct
  used n hn := ⟨he n hn, hz.used n hn.ne_zero⟩

theorem Allocated.owned_idle (h : s.Allocated) (n : Nat) (hn : Owned s.zones s.zone i n) :
    s.zones.count n = 0 := by
  obtain ⟨h0, r, path, -, hlen, rfl⟩ := owned_iff.mp hn
  exact h.idle _ (h.range r path hlen h0)

end Files

/-- A call; `stale` is what the disk holds for dropped buffers. -/
inductive Call (ι : Type*)
  | createBlock (i : ι) (block : Nat)
  | truncate (i : ι) (stale : Nat → Block)

variable [DecidableEq ι]

def call (s : Files ι) : Call ι → Except Panic (Files ι × Nat)
  | .createBlock i block =>
    match createBlock (s.inode i) block s.zones with
    | .ok (inode, n) z => .ok (⟨z, update s.inode i inode⟩, n)
    | .error e _ => .error e
  | .truncate i stale =>
    match truncate stale (s.inode i) s.zones with
    | .ok inode z => .ok (⟨z, update s.inode i inode⟩, 0)
    | .error e _ => .error e

def Call.InRange : Call ι → Prop
  | .createBlock _ block => block < maxBlocks
  | .truncate _ _ => True

def callStep (s : Files ι) (c : Call ι) : Option (Files ι) :=
  match call s c with
  | .ok (t, _) => some t
  | .error _ => none

section

variable {s t : Files ι} {i : ι} {z : Zones} {inode : Inode}

theorem zone_update :
    (Files.mk z (update s.inode i inode)).zone = update s.zone i inode.iZone :=
  comp_update Inode.iZone s.inode i inode

theorem file_update (h : s.Allocated) (hmode : inode.iMode = (s.inode i).iMode) (i' : ι) :
    (isReg ((Files.mk z (update s.inode i inode)).inode i').iMode ||
      isDir ((Files.mk z (update s.inode i inode)).inode i').iMode) = true :=
  update_of (p := fun _ (m : Inode) => (isReg m.iMode || isDir m.iMode) = true)
    (hmode ▸ h.file i) fun _ =>
    h.file i'

theorem createBlock_allocated (h : s.Allocated) {block : Nat} (hblock : block < maxBlocks) :
    ∃ t n, call s (.createBlock i block) = .ok (t, n) ∧ t.Allocated ∧
      n = zoneOf t.zones t.zone i block ∧ (n = 0 → t.zones.Full) := by
  have hzone : s.zone i = (s.inode i).iZone := rfl
  obtain ⟨⟨inode, n⟩, z, hrun, hg, hre, hn, hfull⟩ := createBlock_returns h.zoned hzone hblock
  refine ⟨⟨z, update s.inode i inode⟩, n, by simp only [call, hrun], ?_, ?_, hfull⟩
  · refine .of_zoned ?_ ?_ (file_update h hre.iMode_eq) fun m hm => ?_
    · rw [zone_update]
      exact hg.zoned
    · rw [zone_update]
      exact hg.exact fun m hm hu => (h.used m hm).mp hu
    · rw [hg.count]
      exact h.idle m ((Zones.IsData.congr hg.sb).mp hm)
  · rw [zone_update]
    exact hn

theorem truncate_allocated (h : s.Allocated) (i : ι) (stale : Nat → Block) :
    ∃ inode z, truncate stale (s.inode i) s.zones = .ok inode z ∧
      Shrinks s.zones s.zone i z (update s.zone i inode.iZone) ∧ inode.iSize = 0 ∧
      (Files.mk z (update s.inode i inode)).Allocated := by
  have hzone : s.zone i = (s.inode i).iZone := rfl
  obtain ⟨inode, z, hrun, hf, hre, hzero⟩ :
    Returns (truncate stale (s.inode i)) s.zones _ := truncate_returns h.zoned hzone (h.file i)
  have hmode : inode.iMode = (s.inode i).iMode := by rw [hre]
  have hshrinks : Shrinks s.zones s.zone i z (update s.zone i inode.iZone) := by
    refine h.zoned.shrinks hf (fun k hk => ?_) fun i' hi' => update_of_ne hi' _ _
    rw [update_self]
    exact hzero k hk
  refine ⟨inode, z, hrun, hshrinks, by rw [hre], ?_⟩
  refine .of_zoned ?_ ?_ (file_update h hmode) fun m hm => ?_
  · rw [zone_update]
    exact hshrinks.zoned
  · rw [zone_update]
    exact hshrinks.exact h.owned_idle fun m hm hu => (h.used m hm).mp hu
  · rw [hshrinks.count h.owned_idle]
    exact h.idle m ((Zones.IsData.congr hshrinks.sb).mp hm)

theorem call_allocated (h : s.Allocated) {c : Call ι} (hc : c.InRange) :
    ∃ t n, call s c = .ok (t, n) ∧ t.Allocated := by
  cases c with
  | createBlock i block =>
    obtain ⟨t, n, hcall, ht, -⟩ := createBlock_allocated (i := i) h hc
    exact ⟨t, n, hcall, ht⟩
  | truncate i stale =>
    obtain ⟨inode, z, hrun, -, -, ht⟩ := truncate_allocated h i stale
    exact ⟨_, 0, by simp only [call, hrun], ht⟩

/-- Calls with block indices in range keep the allocation, and no such call panics. -/
theorem allocated_of_reaches (h : s.Allocated)
    (hr : Reaches callStep (fun _ c => Call.InRange c) s t) :
    t.Allocated ∧ ∀ c : Call ι, c.InRange → ∃ u n, call t c = .ok (u, n) ∧ u.Allocated := by
  have ht : t.Allocated := by
    refine Reaches.invariant (P := Files.Allocated) (fun s c u hs hc hu => ?_) hr h
    obtain ⟨u', n, hcall, hu'⟩ := call_allocated hs hc
    simp only [callStep, hcall, Option.some.injEq] at hu
    exact hu ▸ hu'
  exact ⟨ht, fun c hc => call_allocated ht hc⟩

end

/-- The super block of a file system with the four data zones 4 to 7. -/
def smallSuper : SuperBlock where
  sNinodes := 0
  sNzones := 8
  sImapBlocks := 1
  sZmapBlocks := 1
  sFirstdatazone := 4
  ninodes_lt := by decide
  nzones_lt := by decide
  layout := by decide

def emptyFile : Inode where
  iMode := 0o100644
  iUid := 0
  iSize := 0
  iGid := 0
  iNlinks := 1
  iZone := fun _ => 0
  iDev := 0x301
  iNum := 2
  iCount := 1
  iDirt := false
  iPipe := false

def emptyZones : Zones where
  sb := smallSuper
  zmap := fun i => if i = 0 then some fun w => if w = 0 then 1 else 0 else none
  block := fun _ => clearBlock
  count := fun _ => 0

def emptyFiles (ι : Type*) : Files ι := ⟨emptyZones, fun _ => emptyFile⟩

omit [DecidableEq ι] in
theorem allocated_emptyFiles : (emptyFiles ι).Allocated := by
  have hv : ∀ r path, (emptyFiles ι).pointers.value r path = 0 := fun r path => by
    have hroot : (emptyFiles ι).pointers.value r [] = 0 := rfl
    have happ := value_append_of_eq hroot path
    rwa [List.append_nil] at happ
  have hfile : (isReg emptyFile.iMode || isDir emptyFile.iMode) = true := by decide
  refine ⟨fun _ => hfile, fun _ _ => rfl, fun p hp => ?_, fun r path _ h => absurd (hv r path) h,
    fun r path _ _ _ _ h => absurd (hv r path) h, fun n hn => ?_⟩
  · obtain rfl : (fun w => if w = 0 then 1 else 0 : Bitmap) = p := Option.some.inj hp
    decide
  have hfree : emptyZones.used n = false := by
    obtain ⟨h1, h2⟩ := hn
    have hn' : n = 4 ∨ n = 5 ∨ n = 6 ∨ n = 7 := by
      change 4 ≤ n at h1
      change n < 8 at h2
      omega
    rcases hn' with rfl | rfl | rfl | rfl <;> decide
  change emptyZones.used n = true ↔ _
  rw [hfree]
  refine ⟨fun h => (by cases h), fun ⟨r, path, _, h⟩ =>
    absurd (h.symm.trans (hv r path)) hn.ne_zero⟩

/-- A file gets the block 7, is truncated and gets the block 0. -/
theorem allocated_of_reaches_create : ∃ t : Files Unit,
    Reaches callStep (fun _ c => Call.InRange c) (emptyFiles Unit) t ∧ t.Allocated ∧
      (t.inode ()).iZone 0 = 4 := by
  have hrun : (run callStep [.createBlock () 7, .truncate () fun _ _ => 255, .createBlock () 0]
      (emptyFiles Unit)).map (fun t => (t.inode ()).iZone 0) = some 4 := by decide +kernel
  obtain ⟨t, ht, hzone⟩ := Option.map_eq_some_iff.mp hrun
  have hreach : Reaches callStep (fun _ c => Call.InRange c) (emptyFiles Unit) t := by
    refine reaches_of_run ht fun c hc _ => ?_
    simp only [List.mem_cons, List.not_mem_nil, or_false] at hc
    rcases hc with rfl | rfl | rfl
    · exact (by decide : 7 < maxBlocks)
    · exact trivial
    · exact (by decide : 0 < maxBlocks)
  exact ⟨t, hreach, (allocated_of_reaches allocated_emptyFiles hreach).1, hzone⟩

end Linux001.Fs
