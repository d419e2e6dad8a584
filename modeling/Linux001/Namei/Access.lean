import Linux001.Namei.Paths

/-! `sys_access` against the permissions that `open_namei` enforces, for a process whose real and
effective ids are the same. -/

namespace Linux001.Namei

open Function Fs ProofKit Kernel

variable {k k' : Kernel} {cur : TaskNr} {t : Task} {root pwd i : Slot} {S : Set Nat}
  {b : Slot → Nat} {n : Nat} {bits mask : Nat} {text : List UInt8} {flag : Nat}

def Kernel.inodeAs (k : Kernel) (n : Nat) : Inode where
  iMode := (k.node n).iMode
  iUid := (k.node n).iUid
  iSize := (k.node n).iSize
  iGid := (k.node n).iGid
  iNlinks := (k.node n).iNlinks
  iZone := (k.node n).iZone
  iDev := k.dev
  iNum := n
  iCount := 0
  iDirt := false
  iPipe := false

def Kernel.Grants (k : Kernel) (t : Task) (n mask : Nat) : Prop :=
  permission t (k.inodeAs n) mask &&& mask = mask

/-- The real and effective ids are the same, and not privileged. -/
structure Ordinary (t : Task) : Prop where
  uid : t.uid = t.euid
  unprivileged : t.euid ≠ 0
  gid : t.gid = t.egid

/-- A mask of read, write and execute bits, all of which are in `bits`. -/
def Covers (bits mask : Nat) : Prop := bits &&& mask = mask

instance (bits mask : Nat) : Decidable (Covers bits mask) := inferInstanceAs (Decidable (_ = _))

/-- The process owns the inode, is not in its group, or both may do the same. -/
def SameForGroup (t : Task) (m : Fields) (mask : Nat) : Prop :=
  t.uid = m.iUid ∨ t.gid ≠ m.iGid ∨ (Covers (m.iMode >>> 6) mask ↔ Covers (m.iMode >>> 3) mask)

def accessBits (t : Task) (m : Fields) : Nat :=
  let res := m.iMode &&& 0o777
  let res := if unprivileged t then res else if res &&& 0o111 ≠ 0 then 0o777 else 0o666
  if t.euid = m.iUid ∨ t.egid = m.iGid then res >>> 6 else res

theorem seven_and (mode : Nat) : 7 &&& (mode &&& 7) = mode &&& 7 := by
  rw [Nat.and_comm mode, ← Nat.and_assoc, Nat.and_self]

theorem covers_permission (h : 7 &&& mask = mask) :
    bits &&& mask &&& 7 &&& mask = mask ↔ Covers bits mask := by
  rw [Nat.and_assoc _ 7, h, Nat.and_assoc, Nat.and_self]
  rfl

theorem covers_access (h : 7 &&& mask = mask) :
    bits &&& 7 &&& mask = mask ↔ Covers bits mask := by
  rw [Nat.and_assoc, h]
  rfl

theorem covers_and (h : 7 &&& mask = mask) :
    Covers (bits &&& 0o777) mask ↔ Covers bits mask := by
  have h777 : 0o777 &&& mask = mask := by
    rw [← h, ← Nat.and_assoc]
    rfl
  unfold Covers
  rw [Nat.and_assoc, h777]

theorem covers_shift_and (h : 7 &&& mask = mask) :
    Covers ((bits &&& 0o777) >>> 6) mask ↔ Covers (bits >>> 6) mask := by
  unfold Covers
  rw [Nat.shiftRight_and_distrib, show 0o777 >>> 6 = 7 from rfl, Nat.and_assoc, h]

theorem grants_iff (ht : Ordinary t) (hmask : 7 &&& mask = mask) (hlinks : (k.node n).iNlinks ≠ 0) :
    k.Grants t n mask ↔ Covers (if t.uid = (k.node n).iUid then (k.node n).iMode >>> 6
      else if t.gid = (k.node n).iGid then (k.node n).iMode >>> 3 else (k.node n).iMode) mask := by
  obtain ⟨huid, hpriv, hgid⟩ := ht
  unfold Grants permission
  rw [if_neg fun h => hlinks h.2]
  rw [if_neg (not_not_intro ⟨huid ▸ hpriv, hpriv⟩), covers_permission hmask, ← huid, ← hgid]
  simp only [or_self]
  rfl

theorem covers_accessBits (ht : Ordinary t) {m : Fields} (hmask : 7 &&& mask = mask) :
    Covers (accessBits t m) mask ↔
      Covers (if t.uid = m.iUid ∨ t.gid = m.iGid then m.iMode >>> 6 else m.iMode) mask := by
  obtain ⟨huid, hpriv, hgid⟩ := ht
  have hunpriv : unprivileged t = true := by simp [unprivileged, huid, hpriv]
  unfold accessBits
  dsimp only
  rw [if_pos hunpriv, ← huid, ← hgid]
  split
  · exact covers_shift_and hmask
  · exact covers_and hmask

theorem accessBits_agree_iff (ht : Ordinary t) (hmask : 7 &&& mask = mask)
    (hlinks : (k.node n).iNlinks ≠ 0) :
    (Covers (accessBits t (k.node n)) mask ↔ k.Grants t n mask) ↔
      SameForGroup t (k.node n) mask := by
  rw [grants_iff ht hmask hlinks, covers_accessBits ht hmask]
  unfold SameForGroup
  by_cases huid : t.uid = (k.node n).iUid
  · simp only [huid, true_or, if_true]
  · by_cases hgid : t.gid = (k.node n).iGid
    · simp only [huid, hgid, or_true, if_true, if_false, false_or, ne_eq, not_true]
    · simp only [huid, hgid, or_self, if_false, ne_eq, not_false_eq_true, true_or, or_true]

theorem putBack_fields (k : Kernel) (i : Slot) :
    fields ((k.putBack i).inode i).toInode = fields (k.inode i).toInode := by
  unfold putBack
  rw [setInode_self]
  split
  · rfl
  · have hflushed := flushed_inode k i i
    rw [if_pos rfl] at hflushed
    rw [hflushed]
    rfl

theorem sysAccess_returns (h : Stage k cur t root pwd S) (htext : 0 ∉ text) (rest : List UInt8)
    (hfree : ∃ i, (k.inode i).iCount = 0) (hn : k.inodeOf t root pwd text = some n) (mode : Nat) :
    Returns (sysAccess cur (text ++ 0 :: rest) mode) k fun r _ =>
      r = 0 ↔ Covers (accessBits t (k.node n)) (mode &&& 7) := by
  refine (h.namei htext rest (.inl hfree)).bind fun r k1 ⟨hw, _⟩ => ?_
  match r with
  | none =>
    have := hw.none rfl
    rw [hn] at this
    cases this
  | some i =>
    obtain ⟨n', hn', hwalking⟩ := hw.some i rfl
    cases hn.symm.trans hn'
    have hcount := hwalking.count
    have hput := hwalking.coherent.iput_eq hwalking.place (by omega)
      (hwalking.kept.imp (fun hb => by omega) id)
    obtain ⟨-, hkeeps⟩ := hwalking.coherent.putBack i
    have htask : (k1.putBack i).task cur = some t := by
      rw [hkeeps.task]
      exact hwalking.task
    have hnode : fields (k1.inode i).toInode = k.node n := by
      rw [← hwalking.coherent.node_eq hwalking.place, hw.keeps.node]
    have hnode' : fields ((k1.putBack i).inode i).toInode = k.node n :=
      (putBack_fields k1 i).trans hnode
    have hmode : (k1.inode i).iMode = (k.node n).iMode := congrArg Fields.iMode hnode
    have huid : ((k1.putBack i).inode i).iUid = (k.node n).iUid := congrArg Fields.iUid hnode'
    have hgid : ((k1.putBack i).inode i).iGid = (k.node n).iGid := congrArg Fields.iGid hnode'
    refine .step rfl ?_
    refine .step hput ?_
    refine .step (current_of_task htask) ?_
    refine .step rfl ?_
    dsimp only
    rw [hmode, huid, hgid]
    refine returns_ite.mpr ⟨fun hc => ?_, fun hc => ?_⟩
    · exact returns_pure.mpr (iff_of_true rfl ((covers_access (seven_and mode)).mp hc))
    · refine returns_pure.mpr (iff_of_false (by decide) fun hcov => hc ?_)
      exact (covers_access (seven_and mode)).mpr hcov

theorem openOld_eq (hflag : flag &&& oExcl = 0) (dir : Slot) (z e : Nat) :
    openOld cur flag dir z e = (do
      let inode ← enter dir z e
      let m := (← get).inode inode
      if isDir m.iMode ∧ flag &&& oAccmode ≠ 0 ∨
          ((← mayAccess cur inode (accMode flag).toNat) : Int) ≠ accMode flag then
        iput inode
        pure (.error (-eperm))
      else
        doIf (flag &&& oTrunc ≠ 0) (truncate inode)
        pure (.ok inode)) := by
  unfold openOld enter
  simp only [bind_assoc, hflag, ne_eq, not_true, if_false]

theorem Walking.permission_eq (h : Walking cur t S b k i n) (mask : Nat) :
    permission t (k.inode i).toInode mask = permission t (k.inodeAs n) mask := by
  have hnode := h.coherent.node_eq h.place
  have hdev : (k.inode i).iDev = k.dev := h.place.1
  unfold permission inodeAs
  rw [hdev, hnode]
  rfl

theorem permission_eq_iff {m : Inode} :
    permission t m mask = mask ↔ permission t m mask &&& mask = mask := by
  have hsub : permission t m mask &&& mask = permission t m mask := by
    unfold permission
    split
    · exact Nat.zero_and _
    · rw [Nat.and_assoc, Nat.and_comm 7, ← Nat.and_assoc, Nat.and_assoc _ mask mask, Nat.and_self]
  rw [hsub]

theorem openNamei_returns (h : Stage k cur t root pwd S) (htext : 0 ∉ text)
    (rest : List UInt8) (hfree : ∃ i, (k.inode i).iCount = 0) (hname : baseName text ≠ [])
    (hn : k.inodeOf t root pwd text = some n) (hfile : isDir (k.node n).iMode = false)
    (hmask : accMode flag = mask) (hexcl : flag &&& oExcl = 0)
    (htrunc : flag &&& oTrunc = 0) (mode : Nat) :
    Returns (openNamei cur (text ++ 0 :: rest) flag mode) k fun r _ =>
      (∃ i, r = .ok i) ↔ k.Grants t n mask := by
  unfold openNamei
  rw [if_neg fun hc => hc.1 htrunc]
  refine .step h.current_eq ?_
  refine (h.dirNamei htext rest (.inl hfree)).bind fun r k1 hr => ?_
  obtain ⟨⟨hw, hbase⟩, -⟩ := hr
  obtain ⟨d, hd, hn⟩ := Option.bind_eq_some_iff.mp hn
  rw [if_neg hname] at hn
  cases r with
  | none =>
    have := hw.none rfl
    rw [hd] at this
    cases this
  | some found =>
    obtain ⟨i, name⟩ := found
    obtain ⟨d', hd', hwalking⟩ := hw.some i rfl
    cases hd.symm.trans hd'
    obtain rfl : name = baseName text := hbase _ rfl
    dsimp only
    rw [if_neg hname]
    have hdir : isDir (k1.node d).iMode = true := by
      rw [hw.keeps.node]
      exact isDir_of_passable (passable_of_dirOf hd)
    rw [← hw.keeps.child, child] at hn
    obtain ⟨p, hp, rfl⟩ := Option.map_eq_some_iff.mp hn
    have hfind : findEntry i (baseName text) k1 =
        .ok (some (k1.entryZone (k1.node d) p, p % dirEntriesPerBlock))
          (k1.hold (k1.entryZone (k1.node d) p)) := by
      rw [hwalking.findEntry_eq hdir, hp]
      rfl
    refine .step hfind ?_
    dsimp only
    rw [openOld_eq hexcl]
    refine (hwalking.enter hdir hfree hp).bind fun j k2 hentered => ?_
    obtain ⟨hkeeps, hj, -⟩ := hentered
    have hnode : k2.node = k.node := hkeeps.node.trans hw.keeps.node
    have hdev : k2.dev = k.dev := hkeeps.dev.trans hw.keeps.dev
    have hmode : isDir (k2.inode j).iMode = false := by
      have heq : (k2.inode j).iMode = (k2.node (k1.entryInode (k1.node d) p)).iMode :=
        (congrArg Fields.iMode (hj.coherent.node_eq hj.place)).symm
      rw [heq, hnode]
      exact hfile
    have hperm : permission t (k2.inode j).toInode (accMode flag).toNat =
        permission t (k.inodeAs (k1.entryInode (k1.node d) p)) mask := by
      rw [hj.permission_eq, hmask, Int.toNat_natCast]
      unfold inodeAs
      rw [hnode, hdev]
    refine .step rfl ?_
    refine .step (hj.mayAccess_eq _) ?_
    rw [hperm, hmask]
    refine returns_ite.mpr ⟨fun hc => ?_, fun hc => ?_⟩
    · -- The file is refused.
      have hne : ¬k.Grants t (k1.entryInode (k1.node d) p) mask := by
        rcases hc with ⟨hc, -⟩ | hc
        · rw [hmode] at hc
          cases hc
        · exact fun hg => hc (congrArg Nat.cast (permission_eq_iff.mpr hg))
      have hput := iput_returns hj.coherent hj.place (by have := hj.count; omega)
        (hj.kept.imp (fun hb => by have := hj.count; omega) id)
      refine hput.bind fun _ _ _ => returns_pure.mpr (iff_of_false ?_ hne)
      rintro ⟨_, ⟨⟩⟩
    · have hg : k.Grants t (k1.entryInode (k1.node d) p) mask := by
        refine permission_eq_iff.mp ?_
        by_contra hne
        exact hc (.inr fun heq => hne (Int.ofNat.inj heq))
      rw [doIf, if_neg (not_not_intro htrunc)]
      exact returns_bind.mpr (returns_pure.mpr (returns_pure.mpr (iff_of_true ⟨_, rfl⟩ hg)))

/-- With equal ids, `sys_access` agrees with `open_namei` exactly if the process owns the file or is
not in its group, or both can do the same. -/
theorem access_agrees_iff (h : Scene k cur t root pwd S) (ht : Ordinary t) {text : List UInt8}
    (htext : 0 ∉ text) (rest : List UInt8) (hn : k.inodeOf t root pwd text = some n)
    (hlinks : (k.node n).iNlinks ≠ 0) (mode : Nat) :
    (Returns (sysAccess cur (text ++ 0 :: rest) mode) k
        (fun r _ => r = 0 ↔ k.Grants t n (mode &&& 7)) ∧
      ∀ flag create, accMode flag = (mode &&& 7 : Nat) → flag &&& oExcl = 0 → flag &&& oTrunc = 0 →
        baseName text ≠ [] → isDir (k.node n).iMode = false →
        Returns (openNamei cur (text ++ 0 :: rest) flag create) k
          (fun r _ => (∃ i, r = .ok i) ↔ k.Grants t n (mode &&& 7))) ↔
      SameForGroup t (k.node n) (mode &&& 7) := by
  have hstage := h.toStage
  have haccess := sysAccess_returns hstage htext rest h.free hn mode
  have hagree := accessBits_agree_iff ht (seven_and mode) hlinks
  constructor
  · rintro ⟨hreturns, -⟩
    obtain ⟨r, k', hr, hgrants⟩ := hreturns
    have hcovers := haccess.ensures r k' hr
    exact hagree.mp (hcovers.symm.trans hgrants)
  · intro hsame
    refine ⟨haccess.imp fun r _ hr => hr.trans (hagree.mpr hsame), ?_⟩
    intro flag create hmask hexcl htrunc hname hfile
    exact openNamei_returns hstage htext rest h.free hname hn hfile hmask hexcl htrunc create

/-- The task in slot 2 of `mounted`, as a process with these ids. -/
def process (uid gid : Nat) : Task :=
  { shell with uid := uid, euid := uid, gid := gid, egid := gid }

/-- The root directory alone, of mode 755, and this process. -/
def mountedFor (uid gid : Nat) : Kernel := mounted.setTask 2 (some (process uid gid))

theorem mountedFor_scene (uid gid : Nat) :
    Scene (mountedFor uid gid) 2 (process uid gid) 0 0 {1} where
  coherent := by
    obtain ⟨h1, h2, h3, h4, h5, h6⟩ := mounted_coherent
    exact ⟨h1, h2, h3, h4, h5, h6⟩
  tree := by
    obtain ⟨hfree, hclosed⟩ := mounted_tree
    refine ⟨fun d hd hdir => ?_, hclosed⟩
    obtain ⟨hsize, hzone⟩ := hfree d hd hdir
    exact ⟨hsize, hzone⟩
  free := ⟨1, rfl⟩
  freed := rfl
  task := by simp [mountedFor, setTask]
  hroot := rfl
  hpwd := rfl
  root_count := mounted_scene.root_count
  pwd_count := mounted_scene.pwd_count
  root_at := ⟨rfl, rfl⟩
  pwd_at := ⟨rfl, rfl⟩
  root_mem := rfl
  pwd_mem := rfl

theorem mountedFor_dot (gid : Nat) (hgid : gid = 0 ∨ gid = 1) :
    (mountedFor 1 gid).inodeOf (process 1 gid) 0 0 [46] = some 1 := by
  rcases hgid with rfl | rfl
  · decide +kernel
  · decide +kernel

/-- Another user is told what `permission` says. -/
theorem access_agrees_iff_other : SameForGroup (process 1 1) ((mountedFor 1 1).node 1) 2 ∧
    Returns (sysAccess 2 [46, 0] 2) (mountedFor 1 1)
      fun r _ => r = 0 ↔ (mountedFor 1 1).Grants (process 1 1) 1 2 := by
  have hsame : SameForGroup (process 1 1) ((mountedFor 1 1).node 1) 2 :=
    .inr (.inl (by decide +kernel))
  have hiff := access_agrees_iff (mountedFor_scene 1 1) ⟨rfl, by decide, rfl⟩
    (by decide : (0 : UInt8) ∉ [46]) [] (mountedFor_dot 1 (.inr rfl)) (by decide +kernel) 2
  exact ⟨hsame, (hiff.mpr hsame).1⟩

/-- A member of group 0 is told that it can write the root directory. -/
theorem access_not_granted : Scene (mountedFor 1 0) 2 (process 1 0) 0 0 {1} ∧
    Ordinary (process 1 0) ∧ (mountedFor 1 0).inodeOf (process 1 0) 0 0 [46] = some 1 ∧
    ((mountedFor 1 0).node 1).iNlinks ≠ 0 ∧
    Returns (sysAccess 2 [46, 0] 2) (mountedFor 1 0) (fun r _ => r = 0) ∧
    ¬(mountedFor 1 0).Grants (process 1 0) 1 2 := by
  refine ⟨mountedFor_scene 1 0, ⟨rfl, by decide, rfl⟩, mountedFor_dot 0 (.inl rfl),
    by decide +kernel, ?_, ?_⟩
  · refine (sysAccess_returns (mountedFor_scene 1 0).toStage (by decide : (0 : UInt8) ∉ [46]) []
      ⟨1, rfl⟩ (mountedFor_dot 0 (.inl rfl)) 2).imp fun r _ hr => hr.mpr ?_
    decide +kernel
  · unfold Grants
    decide +kernel

end Linux001.Namei
