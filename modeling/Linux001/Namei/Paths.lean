import Linux001.Namei.Directories

/-! The resolution of paths. `get_dir` and `dir_namei` read a path byte by byte; where the
directories have no holes the result is a fold of lookups over the names of the path. -/

namespace Linux001.Namei

open Function Fs ProofKit Kernel

variable {k k' : Kernel} {i j : Slot} {n : Nat} {path text : List UInt8} {c : UInt8} {t : Task}
  {S : Set Nat} {d : Nat}

/-! ### The bytes of a path -/

/-- `for(namelen=0;(c=get_fs_byte(pathname++))&&(c!='/');namelen++)`: the name, and what is behind a
slash. -/
def scanName : List UInt8 → Option (List UInt8 × Option (List UInt8))
  | [] => none
  | c :: path =>
    if c = 0 then some ([], none)
    else if c = 47 then some ([], some path)
    else (scanName path).map fun (name, rest) => (c :: name, rest)

/-- `while (c=get_fs_byte(pathname++)) if (c=='/') basename=pathname;`: `basename` and `namelen`. -/
def scanBase : (path basename : List UInt8) → (len : Nat) → Option (List UInt8 × Nat)
  | [], _, _ => none
  | c :: path, basename, len =>
    if c = 0 then some (basename, len)
    else if c = 47 then scanBase path path 0
    else scanBase path basename (len + 1)

def getDirLoop (cur : TaskNr) : (fuel : Nat) → List UInt8 → Slot → K (Option Slot)
  | 0, _, _ => throw .killed
  | fuel + 1, path, inode => do
    let m := (← get).inode inode
    if !isDir m.iMode ∨ (← mayAccess cur inode mayExec) = 0 then
      iput inode
      pure none
    else
      match scanName path with
      | none => throw .killed
      | some (_, none) => pure (some inode)
      | some (name, some rest) => walkInto inode name (getDirLoop cur fuel rest)

def loopFrom (cur : TaskNr) (path : List UInt8) (inode : Slot) : K (Option Slot) := do
  igrab inode
  getDirLoop cur (path.length + 1) path inode

def getDirBytes (cur : TaskNr) : List UInt8 → K (Option Slot) := getDirWith (loopFrom cur) cur

def dirNameiBytes (cur : TaskNr) (path : List UInt8) : K (Option (Slot × List UInt8)) := do
  match ← getDirBytes cur path with
  | none => pure none
  | some dir =>
    match scanBase path path 0 with
    | none => throw .killed
    | some (basename, namelen) => pure (some (dir, basename.take namelen))

def nameiBytes (cur : TaskNr) (path : List UInt8) : K (Option Slot) :=
  dirNameiBytes cur path >>= nameiFrom

theorem scanName_split (path : List UInt8) :
    match scanName path with
    | none => splitPath path = ([], none)
    | some (name, none) => splitPath path = ([], some name)
    | some (name, some rest) => rest.length < path.length ∧
      splitPath path = (name :: (splitPath rest).1, (splitPath rest).2) := by
  induction path with
  | nil => rfl
  | cons c path ih =>
    rw [scanName, splitPath]
    by_cases h0 : c = 0
    · rw [if_pos h0, if_pos h0]
    rw [if_neg h0, if_neg h0]
    by_cases hs : c = 47
    · simp [hs]
    rw [if_neg hs]
    rcases hscan : scanName path with _ | ⟨name, _ | rest⟩
    · rw [hscan] at ih
      simp [ih, hs]
    · rw [hscan] at ih
      simp [ih, hs]
    · rw [hscan] at ih
      obtain ⟨hlt, heq⟩ := ih
      refine ⟨Nat.lt_succ_of_lt hlt, ?_⟩
      rw [heq]
      simp [hs]

theorem getDirLoop_eq (cur : TaskNr) {fuel : Nat} (h : path.length < fuel)
    (inode : Slot) : getDirLoop cur fuel path inode =
      walk cur (splitPath path).2.isSome (splitPath path).1 inode := by
  induction fuel generalizing path inode with
  | zero => exact absurd h (Nat.not_lt_zero _)
  | succ fuel ih =>
    have hsplit := scanName_split path
    unfold getDirLoop
    match hscan : scanName path with
    | none =>
      rw [hscan] at hsplit
      rw [hsplit, walk]
      rfl
    | some (name, none) =>
      rw [hscan] at hsplit
      rw [hsplit, walk]
      rfl
    | some (name, some rest) =>
      rw [hscan] at hsplit
      obtain ⟨hlt, hsplit⟩ := hsplit
      have hrest : getDirLoop cur fuel rest = _ := funext (ih (by omega))
      rw [hsplit, walk]
      simp only [hrest]

theorem loopFrom_eq (cur : TaskNr) : loopFrom cur = walkFrom cur := by
  funext path inode
  unfold loopFrom walkFrom
  rw [getDirLoop_eq cur (Nat.lt_succ_self _)]

theorem getDirBytes_eq (cur : TaskNr) (path : List UInt8) :
    getDirBytes cur path = getDir cur path := by
  rw [getDirBytes, loopFrom_eq, getDir]

theorem scanBase_split {base : List UInt8} {len : Nat} (hbase : base.drop len = path) :
    (scanBase path base len).map (fun p => p.1.take p.2) =
      match (splitPath path).1 with
      | [] => (splitPath path).2.map (base.take len ++ ·)
      | _ :: _ => (splitPath path).2 := by
  induction path generalizing base len with
  | nil => rfl
  | cons c path ih =>
    have hdrop : base.drop (len + 1) = path := by
      rw [← List.drop_drop, hbase]
      rfl
    have htake : base.take (len + 1) = base.take len ++ [c] := by
      rw [List.take_add, hbase]
      rfl
    rw [scanBase, splitPath]
    by_cases h0 : c = 0
    · rw [if_pos h0, if_pos h0]
      simp
    rw [if_neg h0, if_neg h0]
    by_cases hs : c = 47
    · rw [if_pos hs, ih (List.drop_zero)]
      rcases hsplit : splitPath path with ⟨_ | _, last⟩
      · simp [hs]
      · simp [hs]
    rw [if_neg hs, ih hdrop]
    rcases hsplit : splitPath path with ⟨_ | _, last⟩
    · simp only [hs, if_false, htake, Option.map_map]
      congr 1
      funext l
      simp
    · simp [hs]

theorem scanBase_eq (path : List UInt8) :
    (scanBase path path 0).map (fun p => p.1.take p.2) = (splitPath path).2 := by
  rw [scanBase_split List.drop_zero]
  split
  · simp
  · rfl

theorem dirNameiBytes_eq (cur : TaskNr) (path : List UInt8) :
    dirNameiBytes cur path = dirNamei cur path := by
  have hbase := scanBase_eq path
  unfold dirNameiBytes dirNamei
  rw [getDirBytes_eq, ← hbase]
  congr 1
  funext dir
  cases dir with
  | none => rfl
  | some dir =>
    cases scanBase path path 0 with
    | none => rfl
    | some p => rfl

theorem nameiBytes_eq (cur : TaskNr) (path : List UInt8) :
    nameiBytes cur path = namei cur path := by
  rw [nameiBytes, dirNameiBytes_eq, namei]

/-! ### The text of a path -/

def components (text : List UInt8) : List (List UInt8) := (text.splitOn 47).dropLast

def baseName (text : List UInt8) : List UInt8 := (text.splitOn 47).getLastD []

theorem splitOn_slash (text : List UInt8) :
    (47 :: text).splitOn 47 = [] :: text.splitOn 47 := by
  rfl

theorem splitOn_of_ne (hc : c ≠ 47) (text : List UInt8) :
    (c :: text).splitOn 47 = (text.splitOn 47).modifyHead (c :: ·) := by
  rw [List.splitOn, List.splitOnP_cons_eq_if_modifyHead, if_neg (by simpa using hc)]
  rfl

theorem splitPath_text (h : 0 ∉ text) (rest : List UInt8) :
    splitPath (text ++ 0 :: rest) = (components text, some (baseName text)) := by
  induction text with
  | nil => rfl
  | cons c text ih =>
    have hc : c ≠ 0 := fun hc => h (hc ▸ List.mem_cons_self)
    have ih := ih fun hmem => h (List.mem_cons_of_mem _ hmem)
    rw [List.cons_append, splitPath, if_neg hc, ih]
    unfold components baseName
    have hne : text.splitOn 47 ≠ [] := List.splitOnP_ne_nil _ _
    obtain ⟨name, names, hsplit⟩ := List.exists_cons_of_ne_nil hne
    by_cases hs : c = 47
    · subst hs
      rw [splitOn_slash, hsplit]
      simp
    · rw [splitOn_of_ne hs, hsplit]
      cases names with
      | nil => simp [hs]
      | cons name' names => simp [hs]

/-! ### The fold of lookups -/

/-- The task may execute the inode, as root, owner, group or other. -/
def executable (t : Task) (m : Fields) : Bool :=
  m.iNlinks != 0 && (t.uid == 0 || t.euid == 0 ||
    (if t.uid = m.iUid ∨ t.euid = m.iUid then m.iMode >>> 6
      else if t.gid = m.iGid ∨ t.egid = m.iGid then m.iMode >>> 3
      else m.iMode).testBit 0)

def passable (t : Task) (m : Fields) : Bool := isDir m.iMode && executable t m

namespace Kernel

def lookupIn (k : Kernel) (t : Task) (d : Nat) (name : List UInt8) : Option Nat :=
  if passable t (k.node d) then k.child d name else none

/-- The names are looked up one after the other, through directories. -/
def resolve (k : Kernel) (t : Task) (names : List (List UInt8)) (d : Nat) : Option Nat :=
  (names.foldlM (k.lookupIn t) d).filter fun d => passable t (k.node d)

/-- The fold for a path, from the root or the working directory. -/
def foldPath (k : Kernel) (t : Task) (root pwd : Nat) (text : List UInt8) : Option Nat :=
  if text.head? = some 47 then k.resolve t (components text.tail) root
  else k.resolve t (components text) pwd

def Enters (k : Kernel) (t : Task) : (names : List (List UInt8)) → (d : Nat) → Prop
  | [], _ => False
  | name :: _, d => k.lookupIn t d name ≠ none

def PathEnters (k : Kernel) (t : Task) (root pwd : Nat) (text : List UInt8) : Prop :=
  if text.head? = some 47 then k.Enters t (components text.tail) root
  else k.Enters t (components text) pwd

/-- `S` is closed under its directories, which have no holes. -/
structure Tree (k : Kernel) (S : Set Nat) : Prop where
  holeFree : ∀ d ∈ S, isDir (k.node d).iMode = true → k.HoleFree (k.node d)
  closed : ∀ d ∈ S, isDir (k.node d).iMode = true → ∀ name n, k.child d name = some n →
    n ∈ S ∧ (k.node n).iNlinks ≠ 0

/-- The table agrees with the disk, and root and `pwd` are in the tree. -/
structure Stage (k : Kernel) (cur : TaskNr) (t : Task) (root pwd : Slot) (S : Set Nat) : Prop where
  coherent : Coherent k
  tree : Tree k S
  freed : k.freed = []
  task : k.task cur = some t
  hroot : t.root = some root
  hpwd : t.pwd = some pwd
  root_count : (k.inode root).iCount ≠ 0
  pwd_count : (k.inode pwd).iCount ≠ 0
  root_at : k.At root (k.inode root).iNum
  pwd_at : k.At pwd (k.inode pwd).iNum
  root_mem : (k.inode root).iNum ∈ S
  pwd_mem : (k.inode pwd).iNum ∈ S

/-- A call of the task `cur`, with a table that has a free slot. -/
structure Scene (k : Kernel) (cur : TaskNr) (t : Task) (root pwd : Slot) (S : Set Nat) :
    Prop extends Stage k cur t root pwd S where
  free : ∃ i, (k.inode i).iCount = 0

/-- The result has one more reference, and no other count has changed. -/
structure Yields (k : Kernel) (want : Option Nat) (r : Option Slot) (k' : Kernel) : Prop where
  num : r.map (fun i => (k'.inode i).iNum) = want
  dev : ∀ i ∈ r, (k'.inode i).iDev = k.dev
  count : ∀ i, (k'.inode i).iCount = (k.inode i).iCount + if r = some i then 1 else 0

end Kernel

theorem Kernel.Keeps.child (h : Keeps k k') : k'.child = k.child := by
  funext d name
  unfold Kernel.child entryOf entryInode
  have hzone : k'.entryZone = k.entryZone := by
    funext m j
    rw [entryZone, entryZone, h.block]
  have hfits : k'.entryFits = k.entryFits := by
    funext m name j
    rw [entryFits, entryFits, hzone, h.block]
  rw [h.node, hfits, hzone, h.block]

theorem Kernel.Keeps.lookupIn (h : Keeps k k') (t : Task) : k'.lookupIn t = k.lookupIn t := by
  funext d name
  rw [Kernel.lookupIn, Kernel.lookupIn, h.node, h.child]

theorem Kernel.Keeps.resolve (h : Keeps k k') (t : Task) : k'.resolve t = k.resolve t := by
  funext names d
  rw [Kernel.resolve, Kernel.resolve, h.lookupIn, h.node]

theorem Kernel.Keeps.tree (h : Keeps k k') (htree : Tree k S) : Tree k' S where
  holeFree d hd hdir := by
    rw [h.node] at hdir ⊢
    obtain ⟨hsize, hzone⟩ := htree.holeFree d hd hdir
    refine ⟨hsize, fun j hj => ?_⟩
    rw [entryZone, h.block]
    exact hzone j hj
  closed d hd hdir name n hn := by
    rw [h.node] at hdir ⊢
    rw [h.child] at hn
    exact htree.closed d hd hdir name n hn

theorem resolve_nil (t : Task) (n : Nat) :
    k.resolve t [] n = if passable t (k.node n) then some n else none := rfl

theorem resolve_cons (t : Task) (name : List UInt8) (names : List (List UInt8)) (n : Nat) :
    k.resolve t (name :: names) n =
      if passable t (k.node n) then (k.child n name).bind (k.resolve t names) else none := by
  unfold Kernel.resolve
  rw [List.foldlM_cons, lookupIn]
  split
  · cases k.child n name with
    | none => rfl
    | some m => rfl
  · rfl

theorem permission_exec {m : Inode} (hdev : m.iDev ≠ 0) :
    permission t m mayExec = 0 ↔ executable t (fields m) = false := by
  have hbit : ∀ mode : Nat, mode &&& 1 &&& 7 = 0 ↔ mode.testBit 0 = false := by
    intro mode
    rw [Nat.and_assoc, show 1 &&& 7 = 1 from rfl, Nat.and_one_is_mod, Nat.testBit_zero]
    simp
  unfold permission executable mayExec
  by_cases hlinks : m.iNlinks = 0
  · rw [if_pos ⟨hdev, hlinks⟩]
    simp [fields, hlinks]
  rw [if_neg fun h => hlinks h.2]
  rw [hbit]
  by_cases hpriv : t.uid ≠ 0 ∧ t.euid ≠ 0
  · simp [fields, hlinks, hpriv]
    rfl
  · rw [if_pos hpriv]
    have : (t.uid == 0 || t.euid == 0) = true := by
      by_contra hne
      exact hpriv (by simpa using hne)
    simp [fields, hlinks, this]

/-! ### The walk -/

section
variable {cur : TaskNr} {t : Task} {S : Set Nat} {b : Slot → Nat}

/-- The call has a reference to the inode `n` in the slot `i`, which nothing frees. -/
structure Walking (cur : TaskNr) (t : Task) (S : Set Nat) (b : Slot → Nat) (k : Kernel) (i : Slot)
    (n : Nat) : Prop where
  coherent : Coherent k
  tree : Tree k S
  held : Held b k [i]
  task : k.task cur = some t
  place : k.At i n
  mem : n ∈ S
  kept : b i ≠ 0 ∨ (k.node n).iNlinks ≠ 0

structure Walked (cur : TaskNr) (t : Task) (S : Set Nat) (b : Slot → Nat) (k : Kernel)
    (want : Option Nat) (r : Option Slot) (k' : Kernel) : Prop where
  keeps : Keeps k k'
  held : Held b k' (orNull [] r)
  none : r = none → want = none
  some : ∀ i, r = some i → ∃ n, want = some n ∧ Walking cur t S b k' i n

section
variable (h : Walking cur t S b k i n)
include h

theorem Walking.count : (k.inode i).iCount = b i + 1 := by
  rw [h.held.count, List.count_singleton_self]

theorem Walking.fail :
    Returns (do iput i; pure none : K (Option Slot)) k fun r k' =>
      Walked cur t S b k none r k' ∧ Stays S b k k' := by
  have hcount := h.count
  have hput := iput_returns h.coherent h.place (by omega)
    (h.kept.imp (fun hb => by omega) id)
  refine ((hput.and_meets (iput_takes b k h.held)).bind
    fun _ k' ⟨⟨_, hkeeps, hstays⟩, hheld, _⟩ => returns_pure.mpr ?_)
  exact ⟨⟨hkeeps, hheld, fun _ => rfl, fun _ hr => nomatch hr⟩, hstays S b⟩

theorem Walking.mayAccess_eq (mask : Nat) :
    mayAccess cur i mask k = .ok (permission t (k.inode i).toInode mask) k := by
  unfold mayAccess current
  simp only [bind_assoc]
  rw [get_bind]
  simp only [h.task]
  rfl

theorem Walking.passable_eq {α : Type} {m m' : K α} :
    (do
      let x := (← get).inode i
      if !isDir x.iMode ∨ (← mayAccess cur i mayExec) = 0 then m else m' : K α) k =
      if passable t (k.node n) then m' k else m k := by
  have hdev : (k.inode i).iDev ≠ 0 := h.place.1 ▸ h.coherent.dev
  rw [get_bind, bind_of_eq (h.mayAccess_eq mayExec),
    h.coherent.node_eq h.place, passable]
  by_cases hdir : isDir (k.inode i).iMode = true
  · by_cases hperm : permission t (k.inode i).toInode mayExec = 0
    · rw [if_pos (.inr hperm), (permission_exec hdev).mp hperm, Bool.and_false,
        if_neg Bool.false_ne_true]
    · have hexec : executable t (fields (k.inode i).toInode) = true := by
        rw [← Bool.not_eq_false]
        exact fun hno => hperm ((permission_exec hdev).mpr hno)
      rw [if_neg (by simp [hdir, hperm]), hexec,
        show isDir (fields (k.inode i).toInode).iMode = true
        from hdir]
      rfl
  · have hdir' : isDir (fields (k.inode i).toInode).iMode = false := Bool.eq_false_iff.mpr hdir
    rw [if_pos (.inl (by simp [hdir])), hdir', Bool.false_and, if_neg Bool.false_ne_true]

theorem Walking.findEntry_eq (hdir : isDir (k.node n).iMode = true) (name : List UInt8) :
    findEntry i name k = found k (k.node n) (k.entryOf (k.node n) name) :=
  Namei.findEntry_eq h.coherent.readable (h.coherent.node_eq h.place).symm
    (h.tree.holeFree n h.mem hdir) name

end

theorem isDir_of_passable {m : Fields} (h : passable t m = true) : isDir m.iMode = true := by
  rw [passable, Bool.and_eq_true] at h
  exact h.1

theorem Walking.enter (h : Walking cur t S b k i n) (hdir : isDir (k.node n).iMode = true)
    (hfree : ∃ i, b i = 0) {name : List UInt8} {p : Nat} (hp : k.entryOf (k.node n) name = some p) :
    Returns (enter i (k.entryZone (k.node n) p) (p % dirEntriesPerBlock))
      (k.hold (k.entryZone (k.node n) p)) fun j k' =>
        Keeps k k' ∧ Walking cur t S b k' j (k.entryInode (k.node n) p) ∧ Stays S b k k' := by
  have hcount := h.count
  have hchild : k.child n name = some (k.entryInode (k.node n) p) := by
    rw [child, hp]
    rfl
  obtain ⟨hmem, hlinks⟩ := h.tree.closed n h.mem hdir name _ hchild
  unfold Namei.enter
  refine .step rfl ?_
  refine .step (brelse_eq k _) ?_
  have hput := iput_returns h.coherent h.place (by omega)
    (h.kept.imp (fun hb => by omega) id)
  refine ((hput.and_meets (iput_takes b k h.held)).bind
    fun _ k1 ⟨⟨hc1, hkeeps1, hstays1⟩, hheld1, _⟩ => ?_)
  obtain ⟨f, hf⟩ := hfree
  have hdev : (k.inode i).iDev = k1.dev := h.place.1.trans hkeeps1.dev.symm
  show Returns (iget (k.inode i).iDev (k.entryInode (k.node n) p)) k1 _
  rw [hdev]
  have hget := iget_returns hc1 (i := f) (by rw [hheld1.count, hf]; rfl)
    (k.entryInode (k.node n) p)
  refine (hget.and_meets (iget_takes b k1 hheld1)).imp
    fun j k2 ⟨⟨hc2, hkeeps2, hat, hstays2⟩, hheld2, _⟩ => ?_
  have hkeeps := hkeeps1.trans hkeeps2
  refine ⟨hkeeps, ⟨hc2, hkeeps.tree h.tree, hheld2, by rw [hkeeps.task]; exact h.task, hat, hmem,
    .inr (by rw [hkeeps.node]; exact hlinks)⟩,
    (hstays1 S b).trans (hstays2 S b hmem fun s hs => ?_)⟩
  rw [hheld1.count] at hs
  exact Nat.eq_zero_of_add_eq_zero_right hs

theorem Walking.walk_cons (h : Walking cur t S b k i n) (hpass : passable t (k.node n) = true)
    (name : List UInt8) (names : List (List UInt8)) :
    walk cur true (name :: names) i k =
      match k.entryOf (k.node n) name with
      | none => (do iput i; pure none : K (Option Slot)) k
      | some p => (do
          let j ← Namei.enter i (k.entryZone (k.node n) p) (p % dirEntriesPerBlock)
          walk cur true names j : K (Option Slot)) (k.hold (k.entryZone (k.node n) p)) := by
  rw [Namei.walk, h.passable_eq, if_pos hpass]
  have hfind := h.findEntry_eq (isDir_of_passable hpass) name
  cases hp : k.entryOf (k.node n) name with
  | none =>
    rw [hp] at hfind
    exact bind_of_eq hfind
  | some p =>
    rw [hp] at hfind
    exact bind_of_eq hfind

theorem lookupIn_of_passable (hpass : passable t (k.node d) = true) (name : List UInt8) :
    k.lookupIn t d name = k.child d name := if_pos hpass

theorem Walking.walk (h : Walking cur t S b k i n) (names : List (List UInt8))
    (hslot : (∃ i, b i = 0) ∨ ¬k.Enters t names n) :
    Returns (walk cur true names i) k fun r k' =>
      Walked cur t S b k (k.resolve t names n) r k' ∧ Stays S b k k' := by
  induction names generalizing k i n with
  | nil =>
    unfold Returns
    rw [Namei.walk, h.passable_eq, resolve_nil]
    by_cases hpass : passable t (k.node n) = true
    · rw [if_pos hpass, if_pos hpass]
      refine returns_pure.mpr ⟨⟨.refl k, h.held, (nomatch ·), fun j hr => ?_⟩, .refl S b k⟩
      cases hr
      exact ⟨n, rfl, h⟩
    · rw [if_neg hpass, if_neg hpass]
      exact h.fail
  | cons name names ih =>
    unfold Returns
    rw [resolve_cons]
    by_cases hpass : passable t (k.node n) = true
    · rw [h.walk_cons hpass, if_pos hpass, child]
      cases hp : k.entryOf (k.node n) name with
      | none => exact h.fail
      | some p =>
        have hfree : ∃ i, b i = 0 := by
          refine hslot.resolve_right (not_not_intro ?_)
          rw [Enters, lookupIn_of_passable hpass, child, hp]
          exact Option.some_ne_none _
        refine Returns.bind (h.enter (isDir_of_passable hpass) hfree hp)
          fun j k' ⟨hkeeps, hwalking, hstays⟩ => ?_
        refine (ih hwalking (.inl hfree)).imp fun r k'' ⟨hw, hstays'⟩ => ?_
        rw [hkeeps.resolve] at hw
        exact ⟨⟨hkeeps.trans hw.keeps, hw.held, hw.none, hw.some⟩, hstays.trans hstays'⟩
    · rw [Namei.walk, h.passable_eq, if_neg hpass, if_neg hpass]
      exact h.fail

theorem Walked.yields {want : Option Nat} {r : Option Slot}
    (h : Walked cur t S (fun i => (k.inode i).iCount) k want r k') : Yields k want r k' where
  num := by
    cases r with
    | none => rw [h.none rfl]; rfl
    | some i =>
      obtain ⟨n, hn, hwalking⟩ := h.some i rfl
      rw [hn, Option.map_some, hwalking.place.2]
  dev i hi := by
    obtain ⟨n, -, hwalking⟩ := h.some i hi
    rw [hwalking.place.1, h.keeps.dev]
  count i := by
    rw [h.held.count]
    cases r with
    | none => simp [orNull]
    | some j => by_cases hij : j = i <;> simp [orNull, hij]

variable {root pwd : Slot}

theorem Kernel.Stage.grab (h : Stage k cur t root pwd S) (hat : k.At i (k.inode i).iNum)
    (hmem : (k.inode i).iNum ∈ S) (hcount : (k.inode i).iCount ≠ 0) :
    ∃ k', igrab i k = .ok ⟨⟩ k' ∧ Keeps k k' ∧ Stays S (fun i => (k.inode i).iCount) k k' ∧
      Walking cur t S (fun i => (k.inode i).iCount) k' i (k.inode i).iNum := by
  have hheld : Held (fun i => (k.inode i).iCount) k [] :=
    ⟨fun _ => rfl, fun j hj => absurd hj (by rw [h.freed]; exact List.not_mem_nil)⟩
  let k1 : Kernel := { k with freed := k.freed.filter (· ≠ i) }
  let k2 : Kernel := k1.setInode i { k1.inode i with iCount := (k1.inode i).iCount + 1 }
  have halike1 : Alike k k1 := ⟨fun _ => ⟨rfl, rfl, rfl, rfl, rfl⟩, rfl, rfl, rfl, rfl, rfl⟩
  have halike : Alike k k2 := halike1.trans (alike_setCount k1 i _)
  obtain ⟨hc, hkeeps⟩ := h.coherent.alike halike
  have hgrab : igrab i k = .ok ⟨⟩ k2 := rfl
  have htakes := igrab_takes (i := i) _ k hheld
  exact ⟨k2, hgrab, hkeeps, .of_eq rfl
    (fun s => ⟨(halike.inode s).2.1, (halike.inode s).2.2.1⟩) rfl rfl,
    hc, hkeeps.tree h.tree, htakes.1, h.task, halike.at_iff.mpr hat, hmem, .inl hcount⟩

theorem Kernel.Keeps.enters (h : Keeps k k') (names : List (List UInt8)) (d : Nat) :
    k'.Enters t names d ↔ k.Enters t names d := by
  cases names with
  | nil => rfl
  | cons name names => rw [Enters, Enters, h.lookupIn]

theorem Kernel.Stage.walkFrom (h : Stage k cur t root pwd S) (hpath : Terminated path)
    (hat : k.At i (k.inode i).iNum) (hmem : (k.inode i).iNum ∈ S) (hcount : (k.inode i).iCount ≠ 0)
    (hslot : (∃ i, (k.inode i).iCount = 0) ∨ ¬k.Enters t (splitPath path).1 (k.inode i).iNum) :
    Returns (walkFrom cur path i) k fun r k' =>
      Walked cur t S (fun i => (k.inode i).iCount) k
        (k.resolve t (splitPath path).1 (k.inode i).iNum) r k' ∧
      Stays S (fun i => (k.inode i).iCount) k k' := by
  obtain ⟨k1, hgrab, hkeeps, hstays, hwalking⟩ := h.grab hat hmem hcount
  unfold Namei.walkFrom
  rw [hpath]
  refine .step hgrab ?_
  rw [← hkeeps.enters] at hslot
  refine (hwalking.walk _ hslot).imp fun r k' ⟨hw, hstays'⟩ => ?_
  rw [hkeeps.resolve] at hw
  exact ⟨⟨hkeeps.trans hw.keeps, hw.held, hw.none, hw.some⟩, hstays.trans hstays'⟩

theorem terminated_text (htext : 0 ∉ text) (rest : List UInt8) :
    Terminated (text ++ 0 :: rest) := by
  unfold Terminated
  rw [splitPath_text htext]
  rfl

def Kernel.dirOf (k : Kernel) (t : Task) (root pwd : Slot) (text : List UInt8) : Option Nat :=
  if text = [] then none else k.foldPath t (k.inode root).iNum (k.inode pwd).iNum text

theorem current_of_task (h : k.task cur = some t) : current cur k = .ok t k := by
  unfold current
  rw [get_bind, h]
  rfl

section
variable (h : Stage k cur t root pwd S)
include h

theorem Kernel.Stage.current_eq : current cur k = .ok t k :=
  current_of_task h.task

theorem Kernel.Stage.getDir_cons (hc : c ≠ 0) (path : List UInt8) : getDir cur (c :: path) k =
      if c = 47 then Namei.walkFrom cur path root k else Namei.walkFrom cur (c :: path) pwd k := by
  unfold getDir getDirWith
  rw [bind_of_eq h.current_eq, get_bind, h.hroot, h.hpwd]
  dsimp only
  rw [if_neg h.root_count, if_neg h.pwd_count]
  by_cases hs : c = 47
  · rw [if_pos hs, if_pos hs]
  · rw [if_neg hs, if_pos hc, if_neg hs]

theorem Kernel.Stage.getDir (htext : 0 ∉ text)
    (rest : List UInt8) (hslot : (∃ i, (k.inode i).iCount = 0) ∨
      ¬k.PathEnters t (k.inode root).iNum (k.inode pwd).iNum text) :
    Returns (getDir cur (text ++ 0 :: rest)) k fun r k' =>
      Walked cur t S (fun i => (k.inode i).iCount) k (k.dirOf t root pwd text) r k' ∧
        Stays S (fun i => (k.inode i).iCount) k k' := by
  cases text with
  | nil =>
    unfold Namei.getDir getDirWith
    refine .step h.current_eq ?_
    refine .step rfl ?_
    rw [h.hroot, h.hpwd]
    dsimp only
    rw [if_neg h.root_count, if_neg h.pwd_count]
    refine returns_pure.mpr ⟨⟨.refl k, ⟨fun _ => rfl, fun j hj => ?_⟩, fun _ => rfl,
      fun _ hr => nomatch hr⟩, .refl _ _ k⟩
    exact absurd hj (by rw [h.freed]; exact List.not_mem_nil)
  | cons c text =>
    have hc : c ≠ 0 := fun hc => htext (hc ▸ List.mem_cons_self)
    have htext' : 0 ∉ text := fun hmem => htext (List.mem_cons_of_mem _ hmem)
    unfold Returns dirOf
    rw [List.cons_append, h.getDir_cons hc, if_neg (List.cons_ne_nil _ _), foldPath]
    unfold PathEnters at hslot
    by_cases hs : c = 47
    · subst hs
      rw [if_pos rfl, if_pos (show (47 :: text).head? = some 47 from rfl)]
      rw [if_pos (show (47 :: text).head? = some 47 from rfl)] at hslot
      have hwalk := h.walkFrom (terminated_text htext' rest) h.root_at h.root_mem h.root_count
      rw [splitPath_text htext'] at hwalk
      exact hwalk hslot
    · have hhead : ¬(c :: text).head? = some 47 := by simpa using hs
      rw [if_neg hs, if_neg hhead]
      rw [if_neg hhead] at hslot
      have hwalk := h.walkFrom (terminated_text htext rest) h.pwd_at h.pwd_mem h.pwd_count
      rw [splitPath_text htext] at hwalk
      exact hwalk hslot

theorem Kernel.Stage.dirNamei (htext : 0 ∉ text)
    (rest : List UInt8) (hslot : (∃ i, (k.inode i).iCount = 0) ∨
      ¬k.PathEnters t (k.inode root).iNum (k.inode pwd).iNum text) :
    Returns (dirNamei cur (text ++ 0 :: rest)) k fun r k' =>
      (Walked cur t S (fun i => (k.inode i).iCount) k (k.dirOf t root pwd text)
        (r.map Prod.fst) k' ∧
        ∀ p ∈ r, p.2 = baseName text) ∧ Stays S (fun i => (k.inode i).iCount) k k' := by
  unfold Namei.dirNamei
  refine (h.getDir htext rest hslot).bind fun r k' ⟨hw, hstays⟩ => ?_
  cases r with
  | none => exact returns_pure.mpr ⟨⟨hw, fun _ hp => nomatch hp⟩, hstays⟩
  | some i =>
    rw [splitPath_text htext]
    refine returns_pure.mpr ⟨⟨hw, fun p hp => ?_⟩, hstays⟩
    cases hp
    rfl

end

theorem Kernel.Coherent.touch (h : Coherent k) (hi : k.At i n) :
    let k' := k.setInode i { k.inode i with iDirt := true }
    Coherent k' ∧ Keeps k k' ∧ k'.At i n ∧ ∀ j, (k'.inode j).iCount = (k.inode j).iCount := by
  intro k'
  have hfields : ∀ j, fields (k'.inode j).toInode = fields (k.inode j).toInode ∧
      (k'.inode j).iDev = (k.inode j).iDev ∧ (k'.inode j).iNum = (k.inode j).iNum ∧
      (k'.inode j).iPipe = (k.inode j).iPipe ∧ (k'.inode j).iCount = (k.inode j).iCount := by
    intro j
    by_cases hj : j = i
    · subst hj
      simp [k', setInode, fields]
    · simp [k', setInode, hj]
  have hat : ∀ j m, k'.At j m ↔ k.At j m := fun j m => by
    rw [At, At, (hfields j).2.1, (hfields j).2.2.1]
    rfl
  have hk' : Coherent k' :=
    { dev := h.dev
      readable := h.readable
      unique := fun j j' m hj hj' => h.unique j j' m ((hat j m).mp hj) ((hat j' m).mp hj')
      dirty := fun j hj => by
        by_cases hji : j = i
        · rw [hji, (hfields i).2.1]
          exact hi.1
        · have hsame : k'.inode j = k.inode j := update_of_ne hji _ _
          rw [hsame] at hj ⊢
          exact h.dirty j hj
      clean := fun j m hj hc => by
        by_cases hji : j = i
        · rw [hji] at hc
          simp [k', setInode] at hc
        · have hsame : k'.inode j = k.inode j := update_of_ne hji _ _
          rw [hsame] at hc ⊢
          exact h.clean j m ((hat j m).mp hj) hc
      pipe := fun j m hj => by
        rw [(hfields j).2.2.2.1]
        exact h.pipe j m ((hat j m).mp hj) }
  refine ⟨hk', ⟨node_congr h hk' fun m => ?_, rfl, rfl, rfl⟩, (hat i n).mpr hi,
    fun j => (hfields j).2.2.2.2⟩
  by_cases hm : ∃ j, k.At j m
  · obtain ⟨j, hj⟩ := hm
    exact .inl ⟨j, j, hj, (hat j m).mpr hj, (hfields j).1⟩
  · rw [not_exists] at hm
    exact .inr (.inr (.inr ⟨hm, fun j hj => hm j ((hat j m).mp hj), rfl⟩))

theorem Walking.touch (h : Walking cur t S b k i n) :
    Keeps k (k.setInode i { k.inode i with iDirt := true }) ∧
      Walking cur t S b (k.setInode i { k.inode i with iDirt := true }) i n ∧
      Stays S b k (k.setInode i { k.inode i with iDirt := true }) := by
  obtain ⟨hc, hkeeps, hat, hcount⟩ := h.coherent.touch h.place
  refine ⟨hkeeps,
    ⟨hc, hkeeps.tree h.tree, ⟨fun j => (hcount j).trans (h.held.count j), fun j hj => ?_⟩,
    h.task, hat, h.mem, ?_⟩, .setInode (fun _ => ⟨rfl, rfl⟩) fun hd => .inr ⟨hd, rfl⟩⟩
  · rw [hcount]
    exact h.held.freed j hj
  · rw [hkeeps.node]
    exact h.kept

theorem passable_of_resolve {names : List (List UInt8)} (h : k.resolve t names d = some n) :
    passable t (k.node n) = true := (Option.filter_eq_some_iff.mp h).2

theorem passable_of_dirOf (h : k.dirOf t root pwd text = some n) :
    passable t (k.node n) = true := by
  unfold dirOf foldPath at h
  split at h
  · cases h
  · split at h
    · exact passable_of_resolve h
    · exact passable_of_resolve h

def Kernel.inodeOf (k : Kernel) (t : Task) (root pwd : Slot) (text : List UInt8) : Option Nat :=
  (k.dirOf t root pwd text).bind fun d =>
    if baseName text = [] then some d else k.child d (baseName text)

def Kernel.NameEnters (k : Kernel) (t : Task) (root pwd : Slot) (text : List UInt8) : Prop :=
  k.PathEnters t (k.inode root).iNum (k.inode pwd).iNum text ∨
    ∃ d, k.dirOf t root pwd text = some d ∧ baseName text ≠ [] ∧ k.child d (baseName text) ≠ none

theorem Kernel.Stage.namei (h : Stage k cur t root pwd S) (htext : 0 ∉ text)
    (rest : List UInt8) (hslot : (∃ i, (k.inode i).iCount = 0) ∨ ¬k.NameEnters t root pwd text) :
    Returns (namei cur (text ++ 0 :: rest)) k fun r k' =>
      Walked cur t S (fun i => (k.inode i).iCount) k (k.inodeOf t root pwd text) r k' ∧
        Stays S (fun i => (k.inode i).iCount) k k' := by
  unfold Namei.namei inodeOf
  refine (h.dirNamei htext rest (hslot.imp_right (mt .inl))).bind fun r k1 ⟨⟨hw, hbase⟩, hstays⟩ =>
    ?_
  match r with
  | none =>
    refine returns_pure.mpr ⟨⟨hw.keeps, hw.held, fun _ => ?_, fun _ hr => nomatch hr⟩, hstays⟩
    rw [hw.none rfl]
    rfl
  | some (i, name) =>
    obtain ⟨n, hn, hwalking⟩ := hw.some i rfl
    obtain rfl : name = baseName text := hbase _ rfl
    rw [hn, Option.bind_some, nameiFrom]
    by_cases hempty : baseName text = []
    · rw [if_pos hempty, if_pos hempty]
      refine returns_pure.mpr ⟨⟨hw.keeps, hw.held, (nomatch ·), fun j hj => ?_⟩, hstays⟩
      cases hj
      exact ⟨n, rfl, hwalking⟩
    rw [if_neg hempty, if_neg hempty]
    have hdir : isDir (k1.node n).iMode = true := by
      rw [hw.keeps.node]
      exact isDir_of_passable (passable_of_dirOf hn)
    rw [← hw.keeps.child, child]
    cases hp : k1.entryOf (k1.node n) (baseName text) with
    | none =>
      have hfind : findEntry i (baseName text) k1 = .ok none k1 := by
        rw [hwalking.findEntry_eq hdir, hp]
        rfl
      refine .step hfind ?_
      refine hwalking.fail.imp fun r k' ⟨hw', hstays'⟩ => ?_
      exact ⟨⟨hw.keeps.trans hw'.keeps, hw'.held, hw'.none, hw'.some⟩, hstays.trans hstays'⟩
    | some p =>
      have hfind : findEntry i (baseName text) k1 =
          .ok (some (k1.entryZone (k1.node n) p, p % dirEntriesPerBlock))
            (k1.hold (k1.entryZone (k1.node n) p)) := by
        rw [hwalking.findEntry_eq hdir, hp]
        rfl
      have hfree : ∃ i, (k.inode i).iCount = 0 := by
        refine hslot.resolve_right (not_not_intro (.inr ⟨n, hn, hempty, ?_⟩))
        rw [← hw.keeps.child, child, hp]
        exact Option.some_ne_none _
      refine .step hfind ?_
      refine (hwalking.enter hdir hfree hp).bind fun j k2 ⟨hkeeps, hj, hstays'⟩ => ?_
      obtain ⟨hkeeps', hj', htouch⟩ := hj.touch
      refine .step rfl (returns_pure.mpr ?_)
      refine ⟨⟨(hw.keeps.trans hkeeps).trans hkeeps', hj'.held, (nomatch ·), fun m hm => ?_⟩,
        (hstays.trans hstays').trans htouch⟩
      cases hm
      exact ⟨_, rfl, hj'⟩

/-- `get_dir` finds what the fold of lookups over the names finds, `dir_namei` also has the last
name, and `namei` looks it up, with one reference more. -/
theorem path_resolution (h : Scene k cur t root pwd S) {text : List UInt8} (htext : 0 ∉ text)
    (rest : List UInt8) :
    Returns (getDirBytes cur (text ++ 0 :: rest)) k (Yields k (k.dirOf t root pwd text)) ∧
      Returns (dirNameiBytes cur (text ++ 0 :: rest)) k (fun r k' =>
        Yields k (k.dirOf t root pwd text) (r.map Prod.fst) k' ∧ ∀ p ∈ r, p.2 = baseName text) ∧
      Returns (nameiBytes cur (text ++ 0 :: rest)) k (Yields k (k.inodeOf t root pwd text)) := by
  rw [getDirBytes_eq, dirNameiBytes_eq, nameiBytes_eq]
  have hstage := h.toStage
  refine ⟨(hstage.getDir htext rest (.inl h.free)).imp fun _ _ hw => hw.1.yields, ?_,
    (hstage.namei htext rest (.inl h.free)).imp fun _ _ hw => hw.1.yields⟩
  exact (hstage.dirNamei htext rest (.inl h.free)).imp fun _ _ hw => ⟨hw.1.1.yields, hw.1.2⟩

end

/-! ### The root directory alone -/

theorem mounted_inode_of_ne (hi : i ≠ 0) : mounted.inode i = cleared := by
  simp [mounted, hi]

theorem mounted_at {n : Nat} (h : mounted.At i n) : i = 0 ∧ n = 1 := by
  by_cases hi : i = 0
  · subst hi
    exact ⟨rfl, h.2.symm⟩
  · rw [At, mounted_inode_of_ne hi] at h
    exact absurd h.1 (by decide)

theorem mounted_coherent : Coherent mounted where
  dev := by decide
  readable := rfl
  unique i j n hi hj := (mounted_at hi).1.trans (mounted_at hj).1.symm
  dirty i hi := by
    by_cases h0 : i = 0
    · subst h0
      cases hi
    · rw [mounted_inode_of_ne h0] at hi
      cases hi
  clean i n hi _ := by
    obtain ⟨rfl, rfl⟩ := mounted_at hi
    rfl
  pipe i n hi := by
    obtain ⟨rfl, rfl⟩ := mounted_at hi
    rfl

theorem mounted_tree : Tree mounted {1} := by
  have hsize : (mounted.node 1).iSize / 16 = 2 := by decide +kernel
  refine ⟨fun d hd _ => ?_, fun d hd _ name n hn => ?_⟩
  · obtain rfl : d = 1 := hd
    refine ⟨by decide +kernel, fun j hj => ?_⟩
    obtain rfl | rfl : j = 0 ∨ j = 1 := by omega
    · decide +kernel
    · decide +kernel
  · obtain rfl : d = 1 := hd
    obtain ⟨j, hj, rfl⟩ := Option.map_eq_some_iff.mp hn
    unfold entryOf at hj
    split at hj
    · cases hj
    have hlt := List.mem_range.mp (List.mem_of_find?_eq_some hj)
    have hone : mounted.entryInode (mounted.node 1) j = 1 := by
      obtain rfl | rfl : j = 0 ∨ j = 1 := by omega
      · decide +kernel
      · decide +kernel
    rw [hone]
    exact ⟨rfl, by decide +kernel⟩

theorem mounted_scene : Scene mounted 2 shell 0 0 {1} where
  coherent := mounted_coherent
  tree := mounted_tree
  free := ⟨1, rfl⟩
  freed := rfl
  task := rfl
  hroot := rfl
  hpwd := rfl
  root_count := by decide
  pwd_count := by decide
  root_at := ⟨rfl, rfl⟩
  pwd_at := ⟨rfl, rfl⟩
  root_mem := rfl
  pwd_mem := rfl

/-- The path "./.". -/
theorem path_resolution_dot :
    Returns (getDirBytes 2 [46, 47, 46, 0]) mounted (Yields mounted (some 1)) ∧
      Returns (nameiBytes 2 [46, 47, 46, 0]) mounted (Yields mounted (some 1)) := by
  obtain ⟨hdir, -, hnamei⟩ := path_resolution mounted_scene (by decide : (0 : UInt8) ∉ [46, 47, 46])
    []
  exact ⟨hdir, hnamei⟩

/-- The fold over the empty path is `pwd`, and `get_dir` returns `NULL`. -/
theorem empty_path_fails :
    mounted.foldPath shell (mounted.inode 0).iNum (mounted.inode 0).iNum [] = some 1 ∧
      Returns (getDirBytes 2 [0]) mounted fun r _ => r = none :=
  ⟨by decide +kernel, none, mounted, rfl, rfl⟩

end Linux001.Namei
