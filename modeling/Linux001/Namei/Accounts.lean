import Linux001.Namei.Counts
import Linux001.ProofKit.Counting
import Linux001.ProofKit.Update

/-! The accounts of the file table and of the inode table between two calls: each count is the
number of the pointers in the tables. -/

namespace Linux001.Namei

open Function Fs ProofKit

variable {α : Type} {k k' k1 : Kernel} {i : Slot} {f : FileNr} {cur : TaskNr} {l l' : List Slot}
  {t : Task} {fd : Fd} {path : List UInt8} {m : K α} {out : α → List Slot} {γ : Type}
  {b : Slot → Nat} {p : Option Slot} {t' : Task} {inode : Slot} {change : Slot → Task → Task}
  {count : Nat} {buf : List UInt8} {raw : (Nat → Block) × (Nat → DiskInode)} {E : Stop → Prop}
  {fds : List Fd}

/-! ### The pointers in the tables -/

def File.refs (i : Slot) (m : File) : Nat := if m.fCount ≠ 0 ∧ m.fInode = some i then 1 else 0

def pointer {γ : Type} [DecidableEq γ] (x : γ) (p : Option γ) : Nat := if p = some x then 1 else 0

def dirRefs (i : Slot) : Option Task → Nat
  | none => 0
  | some t => pointer i t.pwd + pointer i t.root

def fdRefs (f : FileNr) : Option Task → Nat
  | none => 0
  | some t => ∑ fd, pointer f (t.filp fd)

namespace Kernel

@[irreducible] def fileRefs (k : Kernel) (f : FileNr) : Nat := ∑ nr, fdRefs f (k.task nr)

/-- The open files, directories and mounts that refer to an inode. -/
@[irreducible] def inodeRefs (k : Kernel) (i : Slot) : Nat :=
  ∑ f, (k.file f).refs i + ∑ nr, dirRefs i (k.task nr) + (pointer i k.sIsup + pointer i k.sImount)

end Kernel

/-- The counts are right, and no pointer refers to an inode that was freed. -/
structure Accounted (k : Kernel) : Prop where
  file : ∀ f, (k.file f).fCount = k.fileRefs f
  inode : ∀ i, (k.inode i).iCount = k.inodeRefs i
  freed : ∀ i ∈ k.freed, k.inodeRefs i = 0

/-- The counts in the middle of a call, which holds the references `l` to inodes. -/
structure Books (k : Kernel) (l : List Slot) : Prop where
  file : ∀ f, (k.file f).fCount = k.fileRefs f
  held : Held k.inodeRefs k l

theorem Accounted.books (h : Accounted k) : Books k [] := by
  refine ⟨h.file, fun i => ?_, fun i hi => ?_⟩
  · rw [h.inode, List.count_nil, Nat.add_zero]
  · rw [h.inode, h.freed i hi]

theorem Books.accounted (h : Books k []) : Accounted k := by
  have hinode : ∀ i, (k.inode i).iCount = k.inodeRefs i := fun i => by
    rw [h.held.count, List.count_nil, Nat.add_zero]
  exact ⟨h.file, hinode, fun i hi => by rw [← hinode, h.held.freed i hi]⟩

theorem SameTables.fileRefs (h : SameTables k k') : k'.fileRefs = k.fileRefs := by
  unfold Kernel.fileRefs
  rw [h.task]

theorem SameTables.inodeRefs (h : SameTables k k') : k'.inodeRefs = k.inodeRefs := by
  unfold Kernel.inodeRefs
  rw [h.file, h.task, h.sIsup, h.sImount]

theorem Books.same (h : Books k l) (hsame : SameTables k k') (hheld : Held k.inodeRefs k' l') :
    Books k' l' := by
  refine ⟨?_, ?_⟩
  · rw [hsame.file, hsame.fileRefs]
    exact h.file
  · rw [hsame.inodeRefs]
    exact hheld

theorem Takes.books (h : Takes m l out) (hk : Books k l) :
    Meets m k (fun a k' => Books k' (out a) ∧ SameTables k k') Alive :=
  (h _ k hk.held).imp fun _ _ ⟨hheld, hsame⟩ => ⟨hk.same hsame hheld, hsame⟩

/-- A call that holds no reference at its end keeps the books. -/
def KeepsBooks (m : K α) : Prop := ∀ {k l}, Books k l → Meets m k (fun _ k' => Books k' l) Alive

theorem Takes.keepsBooks (h : ∀ {l}, Takes m l fun _ => l) : KeepsBooks m :=
  fun hk => (h.books hk).imp fun _ _ h => h.1

/-! ### Changes of one entry -/

@[simp] theorem pointer_none [DecidableEq γ] (x : γ) : pointer x none = 0 := rfl

@[simp] theorem pointer_some [DecidableEq γ] (x y : γ) :
    pointer x (some y) = if y = x then 1 else 0 := by
  unfold pointer
  simp

theorem inodeRefs_setFile (k : Kernel) (f : FileNr) (m : File) (i : Slot) :
    (k.setFile f m).inodeRefs i + (k.file f).refs i = k.inodeRefs i + m.refs i := by
  have := sum_update (Finset.mem_univ f) k.file m (File.refs i)
  unfold Kernel.inodeRefs Kernel.setFile
  dsimp only
  omega

theorem inodeRefs_setTask (k : Kernel) (t : Option Task) (cur : TaskNr) (i : Slot) :
    (k.setTask cur t).inodeRefs i + dirRefs i (k.task cur) = k.inodeRefs i + dirRefs i t := by
  have := sum_update (Finset.mem_univ cur) k.task t (dirRefs i)
  unfold Kernel.inodeRefs Kernel.setTask
  dsimp only
  omega

theorem fileRefs_setTask (k : Kernel) (t : Option Task) (cur : TaskNr) (f : FileNr) :
    (k.setTask cur t).fileRefs f + fdRefs f (k.task cur) = k.fileRefs f + fdRefs f t := by
  unfold Kernel.fileRefs
  exact sum_update (Finset.mem_univ cur) k.task t (fdRefs f)

theorem fileRefs_setFile (k : Kernel) (f : FileNr) (m : File) :
    (k.setFile f m).fileRefs = k.fileRefs := by
  unfold Kernel.fileRefs
  rfl

theorem fdRefs_update (t : Task) (fd : Fd) (p : Option FileNr) (f : FileNr) :
    fdRefs f (some { t with filp := update t.filp fd p }) + pointer f (t.filp fd) =
      fdRefs f (some t) + pointer f p :=
  sum_update (Finset.mem_univ fd) t.filp p (pointer f)

theorem fileRefs_setFilp (ht : k.task cur = some t) (fd : Fd) (p : Option FileNr) (f : FileNr) :
    (k.setTask cur (some { t with filp := update t.filp fd p })).fileRefs f +
      pointer f (t.filp fd) = k.fileRefs f + pointer f p := by
  have htask := fileRefs_setTask k (some { t with filp := update t.filp fd p }) cur f
  have hfd := fdRefs_update t fd p f
  rw [ht] at htask
  omega

theorem inodeRefs_setFilp (ht : k.task cur = some t) (fd : Fd) (p : Option FileNr) :
    (k.setTask cur (some { t with filp := update t.filp fd p })).inodeRefs = k.inodeRefs := by
  funext i
  have htask := inodeRefs_setTask k (some { t with filp := update t.filp fd p }) cur i
  rw [ht] at htask
  exact Nat.add_right_cancel htask

theorem Held.move {b' : Slot → Nat} (h : Held b k l)
    (hinode : k'.inode = k.inode) (hfreed : k'.freed = k.freed)
    (hb : ∀ i, b i + l.count i = b' i + l'.count i) : Held b' k' l' := by
  refine ⟨fun i => ?_, fun i hi => ?_⟩
  · rw [hinode, h.count, hb]
  · rw [hinode]
    exact h.freed i (hfreed ▸ hi)

theorem Held.setTask {t : Option Task} (h : Held b k l')
    (hfile : ∀ f, (k.file f).fCount + fdRefs f (k.task cur) = k.fileRefs f + fdRefs f t)
    (hdir : ∀ i, b i + l'.count i + dirRefs i (k.task cur) =
      k.inodeRefs i + dirRefs i t + l.count i) : Books (k.setTask cur t) l := by
  refine ⟨fun f => ?_, h.move rfl rfl fun i => ?_⟩
  · have hrefs := fileRefs_setTask k t cur f
    have := hfile f
    show (k.file f).fCount = _
    omega
  · have hrefs := inodeRefs_setTask k t cur i
    have := hdir i
    omega

theorem count_orNull (l : List Slot) (p : Option Slot) (i : Slot) :
    (orNull l p).count i = l.count i + pointer i p := by
  cases p with
  | none => rfl
  | some j => simp [orNull, List.count_cons]

theorem iputAny_takes : Takes (iputAny p) (orNull l p) fun _ => l := by
  cases p with
  | none => exact .pure rfl
  | some i => exact iput_takes

theorem igrabAny_takes : Takes (igrabAny p) l fun _ => orNull l p := by
  cases p with
  | none => exact .pure rfl
  | some i => exact igrab_takes

/-! ### Steps of a call -/

section Steps

variable {Q : α → Kernel → Prop} {E : Stop → Prop}

theorem meets_current {f : Task → K α} (hnull : E .nullPointer)
    (h : ∀ t, k.task cur = some t → Meets (f t) k Q E) : Meets (current cur >>= f) k Q E := by
  have hread : Meets (current cur) k (fun t s => s = k ∧ k.task cur = some t) E := by
    refine meets_get_bind ?_
    split
    · exact hnull
    · next t ht => exact ⟨rfl, ht⟩
  refine hread.bind ?_
  rintro t _ ⟨rfl, ht⟩
  exact h t ht

theorem meets_modifyTask {g : Task → Task} {f : PUnit → K α} (ht : k.task cur = some t)
    (h : Meets (f ⟨⟩) (k.setTask cur (some (g t))) Q E) :
    Meets (modifyTask cur g >>= f) k Q E := by
  have : k.setTask cur ((k.task cur).map g) = k.setTask cur (some (g t)) := by rw [ht]; rfl
  refine (meets_modify (Q := fun _ s => s = k.setTask cur (some (g t))) this).bind ?_
  rintro ⟨⟩ _ rfl
  exact h

theorem meets_state (k' : Kernel) (hk : k = k') (h : Meets m k' Q E) : Meets m k Q E :=
  hk ▸ h

theorem meets_modifyFile {g : File → File} {f : PUnit → K α} {nr : FileNr}
    (h : Meets (f ⟨⟩) (k.setFile nr (g (k.file nr))) Q E) :
    Meets (modifyFile nr g >>= f) k Q E := h

end Steps

/-! ### Descriptors -/

/-- The state after `sys_close` has dropped the reference to the file. -/
def dropFile (k : Kernel) (cur : TaskNr) (t : Task) (fd : Fd) (f : FileNr) : Kernel :=
  (k.setTask cur (some { t with filp := update t.filp fd none })).setFile f
    { k.file f with fCount := (k.file f).fCount - 1 }

theorem dropFile_file (hk : Books k l) (ht : k.task cur = some t) (hfd : t.filp fd = some f)
    (g : FileNr) :
    ((dropFile k cur t fd f).file g).fCount = (dropFile k cur t fd f).fileRefs g := by
  have hrefs := fileRefs_setFilp ht fd none g
  have hcount := hk.file g
  rw [hfd] at hrefs
  rw [dropFile, fileRefs_setFile]
  show (update k.file f _ g).fCount = _
  by_cases hg : g = f
  · subst hg
    rw [update_self]
    simp only [pointer_some, pointer_none, if_true] at hrefs
    show (k.file g).fCount - 1 = _
    omega
  · rw [update_of_ne hg]
    simp only [pointer_some, pointer_none, if_neg (Ne.symm hg)] at hrefs
    omega

theorem dropFile_inode (fd : Fd) (ht : k.task cur = some t) (hcount : (k.file f).fCount ≠ 0)
    (i : Slot) :
    (dropFile k cur t fd f).inodeRefs i +
      (if (k.file f).fCount - 1 = 0 then pointer i (k.file f).fInode else 0) = k.inodeRefs i := by
  have hrefs := inodeRefs_setFile (k.setTask cur (some { t with filp := update t.filp fd none })) f
    { k.file f with fCount := (k.file f).fCount - 1 } i
  rw [inodeRefs_setFilp ht] at hrefs
  have hold : ((k.setTask cur (some { t with filp := update t.filp fd none })).file f).refs i =
      pointer i (k.file f).fInode := by
    show (k.file f).refs i = _
    simp only [File.refs, pointer, hcount, ne_eq, not_false_eq_true, true_and]
  have hnew : File.refs i { k.file f with fCount := (k.file f).fCount - 1 } =
      if (k.file f).fCount - 1 = 0 then 0 else pointer i (k.file f).fInode := by
    unfold File.refs pointer
    split <;> simp_all
  rw [hold, hnew] at hrefs
  unfold dropFile
  by_cases hlast : (k.file f).fCount - 1 = 0
  · rw [if_pos hlast] at hrefs ⊢
    omega
  · rw [if_neg hlast] at hrefs ⊢
    omega

def Closed (cur : TaskNr) (fd : Nat) (k k' : Kernel) : Prop :=
  ∀ t, k.task cur = some t → ∃ filp, k'.task cur = some { t with filp := filp } ∧
    ∀ x, x.val = fd ∨ t.filp x = none → filp x = none

theorem Closed.refl {fd : Nat} (ht : k.task cur = some t)
    (h : ∀ x : Fd, x.val = fd → t.filp x = none) : Closed cur fd k k := by
  intro t' ht'
  obtain rfl : t = t' := Option.some.inj (ht.symm.trans ht')
  exact ⟨t.filp, ht, fun x hx => hx.elim (h x) id⟩

theorem Closed.of_task (fd : Fd) (ht : k.task cur = some t)
    (h : k'.task = update k.task cur (some { t with filp := update t.filp fd none })) :
    Closed cur fd.val k k' := by
  intro t' ht'
  obtain rfl : t = t' := Option.some.inj (ht.symm.trans ht')
  exact ⟨update t.filp fd none, by rw [h, update_self], fun x hx =>
    update_eq fun hne => hx.resolve_left fun heq => hne (Fin.ext heq)⟩

theorem sysClose_books {fd : Nat} (hk : Books k l) :
    Meets (sysClose cur fd) k (fun _ k' => Books k' l ∧ Closed cur fd k k') Alive := by
  refine meets_current nofun fun t ht => ?_
  split
  · next hlt =>
    cases hfd : t.filp ⟨fd, hlt⟩ with
    | none => exact ⟨hk, .refl ht fun x hx => by rw [← hfd]; exact congrArg _ (Fin.ext hx)⟩
    | some f =>
      refine meets_modifyTask ht (meets_get_bind ?_)
      show Meets (if (k.file f).fCount = 0 then throw Stop.closeCount else _) _ _ _
      split
      · exact nofun
      rename_i hcount
      have hfile := dropFile_file hk ht hfd
      have hinode := dropFile_inode ⟨fd, hlt⟩ ht hcount
      refine meets_modifyFile ?_
      show Meets (if (k.file f).fCount - 1 ≠ 0 then _ else _)
        (dropFile k cur t ⟨fd, hlt⟩ f) _ _
      split
      · next hmore =>
        refine ⟨⟨hfile, hk.held.move rfl rfl fun i => ?_⟩, .of_task ⟨fd, hlt⟩ ht rfl⟩
        rw [← hinode i, if_neg hmore, Nat.add_zero]
      rename_i hlast
      have hheld : Books (dropFile k cur t ⟨fd, hlt⟩ f) (orNull l (k.file f).fInode) := by
        refine ⟨hfile, hk.held.move rfl rfl fun i => ?_⟩
        rw [← hinode i, if_pos (not_not.mp hlast), count_orNull]
        omega
      refine (iputAny_takes.books hheld).bind fun _ k' ⟨hbooks, hsame⟩ => ?_
      exact ⟨hbooks, .of_task ⟨fd, hlt⟩ ht hsame.task⟩
  · next hlt => exact ⟨hk, .refl ht fun x hx => absurd (hx ▸ x.isLt) hlt⟩

theorem fdRefs_le_fileRefs : fdRefs f (k.task cur) ≤ k.fileRefs f := by
  unfold Kernel.fileRefs
  exact le_sum (Finset.mem_univ cur) k.task (fdRefs f)

theorem fileRefs_pos (ht : k.task cur = some t) (hfd : t.filp fd = some f) :
    1 ≤ k.fileRefs f := by
  have hfd' : pointer f (t.filp fd) ≤ fdRefs f (some t) :=
    le_sum (Finset.mem_univ fd) t.filp (pointer f)
  have htask : fdRefs f (k.task cur) ≤ k.fileRefs f := fdRefs_le_fileRefs
  rw [hfd, pointer_some, if_pos rfl] at hfd'
  rw [ht] at htask
  exact hfd'.trans htask

theorem filpOf_eq {fd : Nat} (h : filpOf t fd = some f) : ∃ fd, t.filp fd = some f := by
  unfold filpOf at h
  split at h
  · exact ⟨_, h⟩
  · cases h

theorem Books.addFd {m : File} (h : Books k l')
    (ht : k.task cur = some t) (hfd : t.filp fd = none) (hm : m.fCount = (k.file f).fCount + 1)
    (hrefs : ∀ i, m.refs i + l.count i = (k.file f).refs i + l'.count i) :
    Books ((k.setTask cur (some { t with filp := update t.filp fd (some f) })).setFile f m) l := by
  refine ⟨fun g => ?_, h.held.move rfl rfl fun i => ?_⟩
  · have hfile := fileRefs_setFilp ht fd (some f) g
    have hcount := h.file g
    rw [hfd, pointer_none, pointer_some] at hfile
    rw [fileRefs_setFile]
    show (update k.file f m g).fCount = _
    by_cases hg : g = f
    · subst hg
      rw [if_pos rfl] at hfile
      rw [update_self]
      omega
    · rw [if_neg (Ne.symm hg)] at hfile
      rw [update_of_ne hg]
      omega
  · have hinode := inodeRefs_setFile
      (k.setTask cur (some { t with filp := update t.filp fd (some f) })) f m i
    have hi : m.refs i + l.count i = (k.file f).refs i + l'.count i := hrefs i
    rw [inodeRefs_setFilp ht] at hinode
    change _ + (k.file f).refs i = _ at hinode
    omega

theorem dupfd_books {fd arg : Nat} : KeepsBooks (dupfd cur fd arg) := by
  intro k l hk
  refine meets_current nofun fun t ht => ?_
  cases hf : filpOf t fd with
  | none => exact hk
  | some f =>
    dsimp only
    split
    · exact hk
    cases hfind : (freeFds t).find? fun fd => arg ≤ fd.val with
    | none => exact hk
    | some new =>
      have hnew : t.filp new = none := by
        have := List.mem_of_find?_eq_some hfind
        simpa [freeFds] using this
      obtain ⟨old, hold⟩ := filpOf_eq hf
      have huse : (k.file f).fCount ≠ 0 := by
        rw [hk.file]
        exact Nat.one_le_iff_ne_zero.mp (fileRefs_pos ht hold)
      refine meets_modifyTask ht (meets_modifyFile (hk.addFd ht hnew rfl fun i => ?_))
      show (if (k.file f).fCount + 1 ≠ 0 ∧ (k.file f).fInode = some i then 1 else 0) + _ = _
      simp [File.refs, huse]

theorem sysDup2_books {oldfd newfd : Nat} : KeepsBooks (sysDup2 cur oldfd newfd) :=
  fun hk => (sysClose_books hk).bind fun _ _ ⟨hbooks, _⟩ => dupfd_books hbooks

theorem Books.setFile {m : File} (h : Books k l) (hcount : m.fCount = (k.file f).fCount)
    (hinode : m.fInode = (k.file f).fInode) : Books (k.setFile f m) l := by
  refine ⟨fun g => ?_, h.held.move rfl rfl fun i => ?_⟩
  · rw [fileRefs_setFile, ← h.file]
    show (update k.file f m g).fCount = _
    by_cases hg : g = f
    · rw [hg, update_self, hcount]
    · rw [update_of_ne hg]
  · have hrefs := inodeRefs_setFile k f m i
    have : m.refs i = (k.file f).refs i := by rw [File.refs, hcount, hinode, File.refs]
    omega

theorem sysFcntl_books {fd arg : Nat} {cmd : Fcntl} : KeepsBooks (sysFcntl cur fd cmd arg) := by
  intro k l hk
  refine meets_current nofun fun t ht => ?_
  cases filpOf t fd with
  | none => exact hk
  | some f =>
    cases cmd with
    | dupfd => exact dupfd_books hk
    | getfl => exact hk
    | setfl => exact meets_modifyFile (hk.setFile rfl rfl)

/-! ### `sys_open` and `sys_pipe` -/

theorem Books.congr (h : Books k l) (hsame : SameTables k k') (hinode : k'.inode = k.inode)
    (hfreed : k'.freed = k.freed) : Books k' l :=
  h.same hsame (h.held.move hinode hfreed fun _ => rfl)

/-- The state while a call fills a file, with its tables as they were before. -/
def restored (k k' : Kernel) : Kernel := { k' with file := k.file, task := k.task }

/-- `sys_open` looks for the inode: the file has the count 1. -/
structure Opening (k : Kernel) (cur : TaskNr) (t : Task) (fd : Fd) (f : FileNr) (k' : Kernel)
    (l : List Slot) : Prop where
  caller : k.task cur = some t
  unused : t.filp fd = none
  free : (k.file f).fCount = 0
  task : k'.task = update k.task cur (some { t with filp := update t.filp fd (some f) })
  file : k'.file = update k.file f { k.file f with fCount := 1 }
  books : Books (restored k k') l

section Opening

theorem Opening.takes (h : Opening k cur t fd f k1 l) (hm : Takes m l out) :
    Meets m k1 (fun a k2 => Opening k cur t fd f k2 (out a)) Alive := by
  have hheld : Held (restored k k1).inodeRefs k1 l := h.books.held.move rfl rfl fun _ => rfl
  refine (hm _ k1 hheld).imp fun a k2 ⟨hheld2, hsame⟩ => ?_
  have hbooks : Books (restored k k2) (out a) := by
    have htables : SameTables (restored k k1) (restored k k2) :=
      ⟨rfl, rfl, hsame.sIsup, hsame.sImount⟩
    exact h.books.same htables (hheld2.move rfl rfl fun _ => rfl)
  exact ⟨h.caller, h.unused, h.free, hsame.task.trans h.task, hsame.file.trans h.file, hbooks⟩

theorem Opening.task_cur (h : Opening k cur t fd f k1 l) :
    k1.task cur = some { t with filp := update t.filp fd (some f) } := by
  rw [h.task, update_self]

theorem Opening.undo (h : Opening k cur t fd f k1 l) (e : Int) :
    Meets (do setFilp cur fd none; setCount f 0; pure e) k1 (fun _ k' => Books k' l) Alive := by
  refine meets_modifyTask h.task_cur (meets_modifyFile ?_)
  refine h.books.congr ⟨?_, ?_, rfl, rfl⟩ rfl rfl
  · show update k1.file f { k1.file f with fCount := 0 } = k.file
    rw [h.file, update_idem, update_self, update_eq_self_iff]
    rw [← h.free]
  · show update k1.task cur (some { t with filp := update (update t.filp fd (some f)) fd none }) =
      k.task
    rw [h.task, update_idem, update_idem, update_eq_self_iff, h.caller, ← h.unused, update_eq_self]

theorem Books.setTask (h : Books k l) (ht : k.task cur = some t)
    (hfilp : t'.filp = t.filp) (hpwd : t'.pwd = t.pwd) (hroot : t'.root = t.root) :
    Books (k.setTask cur (some t')) l := by
  refine h.held.setTask (fun f => ?_) fun i => ?_
  · rw [ht, h.file, fdRefs, fdRefs, hfilp]
  · rw [ht, dirRefs, dirRefs, hpwd, hroot, Nat.add_right_comm]

theorem Opening.setTty (h : Opening k cur t fd f k1 l) (tty : Int) :
    Opening (k.setTask cur (some { t with tty })) cur { t with tty } fd f
      (k1.setTask cur (some { t with filp := update t.filp fd (some f), tty })) l where
  caller := update_self _ _ _
  unused := h.unused
  free := h.free
  task := by
    show update k1.task cur _ = update (update k.task cur _) cur _
    rw [h.task, update_idem, update_idem]
  file := h.file
  books := Books.setTask (k := restored k k1) h.books h.caller rfl rfl rfl

theorem Opening.fill {m : File} (h : Opening k cur t fd f k1 (inode :: l))
    (hcount : m.fCount = 1) (hinode : m.fInode = some inode) : Books (k1.setFile f m) l := by
  refine (h.books.addFd (f := f) (m := m) h.caller h.unused ?_ fun i => ?_).congr
    ⟨?_, h.task, rfl, rfl⟩ rfl rfl
  · show m.fCount = (k.file f).fCount + 1
    rw [hcount, h.free]
  · show m.refs i + l.count i = (k.file f).refs i + (inode :: l).count i
    simp [File.refs, hcount, hinode, h.free, List.count_cons, Nat.add_comm]
  · show update k1.file f m = update k.file f m
    rw [h.file, update_idem]

theorem openFile_books {flag : Nat} (h : Opening k cur t fd f k1 (inode :: l)) :
    Meets (openFile cur flag fd f inode) k1 (fun _ k' => Books k' l) Alive := by
  refine meets_current nofun fun t' ht' => meets_get_bind ?_
  dsimp only
  split
  · exact (h.takes iput_takes).bind fun _ k2 h2 => h2.undo _
  · unfold doIf
    split
    · exact meets_modifyTask h.task_cur (meets_modifyFile ((h.setTty _).fill rfl rfl))
    · refine (meets_pure (Q := fun _ s => s = k1) rfl).bind ?_
      rintro ⟨⟩ _ rfl
      exact meets_modifyFile (h.fill rfl rfl)

end Opening

theorem mem_freeFds (h : fd ∈ freeFds t) : t.filp fd = none := by
  simpa [freeFds] using h

theorem mem_freeFiles (h : f ∈ freeFiles k) : (k.file f).fCount = 0 := by
  simpa [freeFiles] using h

theorem sysOpen_books {flag mode : Nat} (hpath : Terminated path) :
    KeepsBooks (sysOpen cur path flag mode) := by
  intro k l hk
  refine meets_current nofun fun t ht => ?_
  split
  · exact hk
  rename_i fd fds hfd
  refine meets_get_bind ?_
  split
  · exact hk
  rename_i f fs hf
  refine meets_modifyTask ht (meets_modifyFile ?_)
  have hopen : Opening k cur t fd f ((k.setTask cur
      (some { t with filp := update t.filp fd (some f) })).setFile f
      { k.file f with fCount := 1 }) l := by
    refine ⟨ht, mem_freeFds (hfd ▸ List.mem_cons_self), mem_freeFiles (hf ▸ List.mem_cons_self),
      rfl, rfl, ?_⟩
    exact hk.congr ⟨rfl, rfl, rfl, rfl⟩ rfl rfl
  refine (hopen.takes (openNamei_takes hpath)).bind fun r k1 h1 => ?_
  cases r with
  | error e => exact h1.undo e
  | ok inode => exact openFile_books h1

theorem update_twice {ι : Type} [DecidableEq ι] {x y : ι} (hne : x ≠ y) (table : ι → γ)
    (a b c d : γ) :
    update (update (update (update table x a) y b) x c) y d =
      update (update table x c) y d := by
  rw [update_comm hne.symm b c (update table x a), update_idem, update_idem]

section Pipe

variable {fd0 fd1 : Fd} {f0 f1 : FileNr}

def withPipe (t : Task) (fd₀ fd₁ : Fd) (p₀ p₁ : Option FileNr) : Task :=
  { t with filp := update (update t.filp fd₀ p₀) fd₁ p₁ }

structure Piping (k : Kernel) (cur : TaskNr) (t : Task) (fd₀ fd₁ : Fd) (f₀ f₁ : FileNr)
    (k' : Kernel) (l : List Slot) : Prop where
  caller : k.task cur = some t
  unused₀ : t.filp fd₀ = none
  unused₁ : t.filp fd₁ = none
  free₀ : (k.file f₀).fCount = 0
  free₁ : (k.file f₁).fCount = 0
  fds : fd₀ ≠ fd₁
  files : f₀ ≠ f₁
  task : k'.task = update k.task cur (some (withPipe t fd₀ fd₁ (some f₀) (some f₁)))
  file : k'.file = update (update k.file f₀ { k.file f₀ with fCount := 1 }) f₁
    { k.file f₁ with fCount := 1 }
  books : Books (restored k k') l

def piped (k : Kernel) (cur : TaskNr) (t : Task) (fd₀ fd₁ : Fd) (f₀ f₁ : FileNr) : Kernel :=
  { k with
    task := update k.task cur (some (withPipe t fd₀ fd₁ (some f₀) (some f₁)))
    file := update (update k.file f₀ { k.file f₀ with fCount := 1 }) f₁
      { k.file f₁ with fCount := 1 } }

section
variable (h : Piping k cur t fd0 fd1 f0 f1 k1 l)
include h

theorem Piping.next {k2 : Kernel}
    (hsame : SameTables k1 k2) (hheld : Held (restored k k1).inodeRefs k2 l') :
    Piping k cur t fd0 fd1 f0 f1 k2 l' := by
  have htables : SameTables (restored k k1) (restored k k2) :=
    ⟨rfl, rfl, hsame.sIsup, hsame.sImount⟩
  exact { h with
    task := hsame.task.trans h.task
    file := hsame.file.trans h.file
    books := h.books.same htables (hheld.move rfl rfl fun _ => rfl) }

theorem Piping.file₀ :
    k1.file f0 = { k.file f0 with fCount := 1 } := by
  rw [h.file, update_of_ne h.files, update_self]

theorem Piping.file₁ :
    k1.file f1 = { k.file f1 with fCount := 1 } := by
  rw [h.file, update_self]

theorem Piping.undo (e : Int) :
    Meets (do
      setFilp cur fd0 none
      setFilp cur fd1 none
      setCount f0 0
      setCount f1 0
      pure e) k1 (fun _ k' => Books k' l) Alive := by
  have ht : k1.task cur = some (withPipe t fd0 fd1 (some f0) (some f1)) := by
    rw [h.task, update_self]
  refine meets_modifyTask ht (meets_modifyTask (update_self _ _ _) ?_)
  refine meets_modifyFile (meets_modifyFile (h.books.congr ⟨?_, ?_, rfl, rfl⟩ rfl rfl))
  · have hclear0 : { k.file f0 with fCount := 0 } = k.file f0 := by rw [← h.free₀]
    have hclear1 : { k.file f1 with fCount := 0 } = k.file f1 := by rw [← h.free₁]
    show update (update k1.file f0 { k1.file f0 with fCount := 0 }) f1
      { update k1.file f0 { k1.file f0 with fCount := 0 } f1 with fCount := 0 } = k.file
    rw [update_of_ne h.files.symm, h.file₀, h.file₁, h.file, update_twice h.files, hclear0, hclear1,
      update_eq_self, update_eq_self]
  · show update (update k1.task cur _) cur (some { t with
      filp := update (update (update (update t.filp fd0 (some f0)) fd1 (some f1)) fd0 none) fd1
        none }) = k.task
    rw [h.task, update_idem, update_idem, update_twice h.fds, update_eq_self_iff, h.caller]
    congr 1
    have hfilp : update (update t.filp fd0 none) fd1 none = t.filp := by
      rw [← h.unused₀, update_eq_self, h.unused₀, ← h.unused₁, update_eq_self]
    rw [hfilp]

end

theorem Piping.fill {m0 m1 : File} (h : Piping k cur t fd0 fd1 f0 f1 k1 (inode :: inode :: l))
    (hcount0 : m0.fCount = 1) (hcount1 : m1.fCount = 1) (hinode0 : m0.fInode = some inode)
    (hinode1 : m1.fInode = some inode) : Books ((k1.setFile f0 m0).setFile f1 m1) l := by
  have hfill : ∀ {m : File} (m' : File) {l : List Slot}, m.fCount = 1 → m.fInode = some inode →
      m'.fCount = 0 → ∀ i, m.refs i + l.count i = m'.refs i + (inode :: l).count i := by
    intro m m' l hm hi hm' i
    simp [File.refs, hm, hi, hm', List.count_cons, Nat.add_comm]
  have hbooks0 := h.books.addFd (f := f0) (m := m0) h.caller h.unused₀
    (by rw [hcount0]; show 1 = (k.file f0).fCount + 1; rw [h.free₀])
    (hfill (k.file f0) hcount0 hinode0 h.free₀)
  have hfree1 : update k.file f0 m0 f1 = k.file f1 := update_of_ne h.files.symm _ _
  have hbooks1 := hbooks0.addFd (f := f1) (m := m1) (update_self _ _ _)
    (by show update t.filp fd0 (some f0) fd1 = none; rw [update_of_ne h.fds.symm, h.unused₁])
    (by rw [hcount1]; show 1 = (update k.file f0 m0 f1).fCount + 1; rw [hfree1, h.free₁])
    (hfill (update k.file f0 m0 f1) hcount1 hinode1 (by rw [hfree1, h.free₁]))
  refine hbooks1.congr ⟨?_, ?_, rfl, rfl⟩ rfl rfl
  · show update (update k1.file f0 m0) f1 m1 = update (update k.file f0 m0) f1 m1
    rw [h.file, update_twice h.files]
  · show k1.task = update (update k.task cur _) cur _
    rw [h.task, update_idem]
    rfl

end Pipe

theorem ne_of_nodup {xs ys : List γ} {a b : γ} (h : xs.Nodup) (hxs : xs = a :: b :: ys) :
    a ≠ b := by
  rw [hxs] at h
  rintro rfl
  simp at h

theorem sysPipe_books {page : Option Nat} : KeepsBooks (sysPipe cur page true) := by
  intro k l hk
  refine meets_current nofun fun t ht => meets_get_bind ?_
  split
  · next f0 f1 fs fd0 fd1 fds hf hfd =>
    have hfiles : f0 ≠ f1 := ne_of_nodup ((List.nodup_finRange 64).filter _) hf
    have hfds : fd0 ≠ fd1 := ne_of_nodup ((List.nodup_finRange 20).filter _) hfd
    have hunused : ∀ fd ∈ [fd0, fd1], t.filp fd = none := fun fd h => by
      refine mem_freeFds ?_
      rw [hfd]
      exact (List.sublist_append_left [fd0, fd1] fds).subset h
    have hfree : ∀ f ∈ [f0, f1], (k.file f).fCount = 0 := fun f h => by
      refine mem_freeFiles ?_
      rw [hf]
      exact (List.sublist_append_left [f0, f1] fs).subset h
    refine meets_modifyFile (meets_modifyFile (meets_modifyTask ht ?_))
    refine meets_modifyTask (update_self _ _ _) (meets_state (piped k cur t fd0 fd1 f0 f1) ?_ ?_)
    · simp only [Kernel.setTask, Kernel.setFile, piped, withPipe, update_idem,
        update_of_ne hfiles.symm]
    have hpipe : Piping k cur t fd0 fd1 f0 f1 (piped k cur t fd0 fd1 f0 f1) l :=
      ⟨ht, hunused fd0 (by simp), hunused fd1 (by simp), hfree f0 (by simp), hfree f1 (by simp),
        hfds, hfiles, rfl, rfl, hk.congr ⟨rfl, rfl, rfl, rfl⟩ rfl rfl⟩
    generalize piped k cur t fd0 fd1 f0 f1 = k2 at hpipe
    have hheld : Held (restored k k2).inodeRefs k2 l := hpipe.books.held.move rfl rfl fun _ => rfl
    refine (getPipeInode_meets hheld page).bind fun r k3 ⟨hsame, hleft⟩ => ?_
    cases r with
    | none => exact (hpipe.next hsame hleft).undo _
    | some inode =>
      have hpipe3 := hpipe.next hsame hleft
      refine meets_modifyFile (meets_modifyFile ?_)
      refine hpipe3.fill ?_ ?_ rfl rfl
      · rw [hpipe3.file₀]
      · show (update k3.file f0 _ f1).fCount = 1
        rw [update_of_ne hfiles.symm, hpipe3.file₁]
  · exact hk

/-! ### Directories of a task -/

theorem iputAny_setTask (hk : Books k l') (ht : k.task cur = some t) (hfilp : t'.filp = t.filp)
    (hp : ∀ i, pointer i p ≤ dirRefs i (some t))
    (hdir : ∀ i, dirRefs i (some t') + pointer i p + l.count i =
      dirRefs i (some t) + l'.count i) :
    Meets (iputAny p) k
      (fun _ k1 => Books (k1.setTask cur (some t')) l ∧ k1.task = k.task) Alive := by
  have hle : ∀ i, dirRefs i (k.task cur) ≤ k.inodeRefs i := fun i => by
    have := le_sum (Finset.mem_univ cur) k.task (dirRefs i)
    unfold Kernel.inodeRefs
    omega
  have hheld : Held (fun i => k.inodeRefs i - pointer i p) k (orNull l' p) := by
    refine hk.held.move rfl rfl fun i => ?_
    have := hle i
    have := hp i
    rw [ht] at *
    rw [count_orNull]
    omega
  refine (iputAny_takes _ k hheld).imp fun _ k1 ⟨hheld1, hsame⟩ => ?_
  refine ⟨hheld1.setTask (fun f => ?_) fun i => ?_, hsame.task⟩
  · rw [hsame.task, hsame.file, hsame.fileRefs, hk.file, ht, fdRefs, fdRefs, hfilp]
  · have := hle i
    have := hp i
    have := hdir i
    rw [hsame.task, hsame.inodeRefs]
    rw [ht] at *
    dsimp only
    omega

theorem changeDir_books {old : Task → Option Slot}
    (hpath : Terminated path) (hfilp : ∀ t j, (change j t).filp = t.filp)
    (hold : ∀ t i, pointer i (old t) ≤ dirRefs i (some t))
    (hdir : ∀ t i j, dirRefs i (some (change j t)) + pointer i (old t) =
      dirRefs i (some t) + pointer i (some j)) : KeepsBooks (changeDir cur path old change) := by
  intro k l hk
  refine ((namei_takes hpath).books hk).bind fun found k1 ⟨hbooks, _⟩ => ?_
  cases found with
  | none => exact hbooks
  | some inode =>
    refine meets_get_bind ?_
    split
    · exact ((iput_none_takes rfl).books hbooks).imp fun _ _ h => h.1
    refine meets_current nofun fun t ht => ?_
    have hlist : ∀ i, dirRefs i (some (change inode t)) + pointer i (old t) + l.count i =
        dirRefs i (some t) + (inode :: l).count i := by
      intro i
      have hcount : (inode :: l).count i = l.count i + pointer i (some inode) :=
        count_orNull l (some inode) i
      have := hdir t i inode
      omega
    refine (iputAny_setTask hbooks ht (hfilp t inode) (hold t) hlist).bind ?_
    rintro _ k2 ⟨hbooks2, htask⟩
    rw [← htask] at ht
    exact meets_modifyTask ht hbooks2

theorem sysChdir_books (hpath : Terminated path) : KeepsBooks (sysChdir cur path) := by
  refine changeDir_books hpath ?_ (fun t i => ?_) fun t i j => ?_
  · exact fun _ _ => rfl
  · exact Nat.le_add_right _ _
  · show pointer i (some j) + pointer i t.root + pointer i t.pwd =
      pointer i t.pwd + pointer i t.root + pointer i (some j)
    omega

theorem sysChroot_books (hpath : Terminated path) : KeepsBooks (sysChroot cur path) := by
  refine changeDir_books hpath ?_ (fun t i => ?_) fun t i j => ?_
  · exact fun _ _ => rfl
  · exact Nat.le_add_left _ _
  · show pointer i t.pwd + pointer i (some j) + pointer i t.root =
      pointer i t.pwd + pointer i t.root + pointer i (some j)
    omega

/-! ### `sys_write` -/

theorem writeLoop_still {fuel written pos : Nat}
    (hbuf : count - written ≤ buf.length) : Still (writeLoop i count fuel written pos buf) := by
  induction fuel generalizing written pos buf with
  | zero => exact .pure _
  | succ fuel ih =>
    refine .ite (.pure _) (.bind bmap'_still fun block => .ite (.pure _) ?_)
    refine .bind bread_still fun ok => .ite (.bind .get fun k => ?_) (.pure _)
    refine .bind (.doIf (modifyInode_still fun _ => rfl)) fun _ => ?_
    refine .bind modifyBlock_still fun _ => ?_
    have hle : min (1024 - pos % 1024) (count - written) ≤ buf.length := by omega
    rw [if_neg (Nat.not_lt.mpr hle)]
    refine .bind brelse_still fun _ => ih ?_
    rw [List.length_drop]
    omega

theorem fileWrite_books (hbuf : count ≤ buf.length) :
    KeepsBooks (fileWrite i f buf count) := by
  intro k l hk
  refine meets_get_bind ?_
  refine ((Takes.of_still (writeLoop_still (by omega))).books hk).bind ?_
  rintro ⟨written, pos⟩ k1 ⟨hk1, -⟩
  refine ((Takes.of_still touch_still).books hk1).bind fun _ k2 ⟨hk2, _⟩ => ?_
  unfold doIf
  split
  · exact meets_modifyFile (hk2.setFile rfl rfl)
  · exact hk2

theorem sysWrite_books {fd : Nat} (hbuf : count ≤ buf.length)
    : KeepsBooks (sysWrite cur fd buf count raw) := by
  intro k l hk
  refine meets_current nofun fun t ht => ?_
  split
  · exact hk
  rename_i f _
  split
  · exact hk
  refine meets_get_bind ?_
  split
  · exact nofun
  rename_i i _
  dsimp only
  split
  · exact hk
  split
  · unfold doIf
    split
    · exact hk.congr ⟨rfl, rfl, rfl, rfl⟩ rfl rfl
    · exact hk
  · split
    · exact fileWrite_books hbuf hk
    · exact hk

/-! ### `copy_process` -/

def grabbed (k : Kernel) (t : Task) (l : List Fd) : Kernel :=
  { k with
    file := fun f =>
      { k.file f with fCount := (k.file f).fCount + (l.map fun fd => pointer f (t.filp fd)).sum } }

theorem grabFile_meets (p : Option FileNr) :
    Meets (grabFile p) k (fun _ k' => k' = { k with
      file := fun f => { k.file f with fCount := (k.file f).fCount + pointer f p } }) E := by
  cases p with
  | none => rfl
  | some f =>
    show k.setFile f { k.file f with fCount := (k.file f).fCount + 1 } = _
    unfold Kernel.setFile
    congr 1
    funext g
    by_cases hg : g = f
    · subst hg
      rw [update_self, pointer_some, if_pos rfl]
    · rw [update_of_ne hg, pointer_some, if_neg (Ne.symm hg), Nat.add_zero]

theorem grabFiles_meets (t : Task) (fds : List Fd) :
    Meets (fds.forM fun fd => grabFile (t.filp fd)) k (fun _ k' => k' = grabbed k t fds) E := by
  induction fds generalizing k with
  | nil => rfl
  | cons fd fds ih =>
    refine (grabFile_meets (t.filp fd)).bind ?_
    rintro ⟨⟩ _ rfl
    refine ih.imp ?_
    rintro ⟨⟩ _ rfl
    unfold grabbed
    simp only [List.map_cons, List.sum_cons, Nat.add_assoc]

theorem fdRefs_eq_sum (t : Task) (f : FileNr) :
    fdRefs f (some t) = ((List.finRange 20).map fun fd => pointer f (t.filp fd)).sum :=
  Fin.sum_univ_def _

theorem grabbed_inodeRefs
    (huse : ∀ f, (fds.map fun fd => pointer f (t.filp fd)).sum ≤ (k.file f).fCount) :
    (grabbed k t fds).inodeRefs = k.inodeRefs := by
  have hrefs : ∀ f i, ((grabbed k t fds).file f).refs i = (k.file f).refs i := by
    intro f i
    have hpos : (k.file f).fCount + (fds.map fun fd => pointer f (t.filp fd)).sum ≠ 0 ↔
        (k.file f).fCount ≠ 0 := by
      have := huse f
      omega
    show (if (k.file f).fCount + _ ≠ 0 ∧ (k.file f).fInode = some i then 1 else 0) = _
    simp only [hpos, File.refs]
  funext i
  unfold Kernel.inodeRefs
  simp only [hrefs]
  rfl

theorem grabbed_fileRefs (t : Task) (fds : List Fd) : (grabbed k t fds).fileRefs = k.fileRefs := by
  unfold Kernel.fileRefs
  rfl

theorem Books.fork {nr : TaskNr} (hk : Books k l) (hsame : SameTables (grabbed k t fds) k1)
    (hheld : Held b k1 (orNull (orNull l t.pwd) t.root)) (hb : b = k.inodeRefs)
    (hfds : ∀ f, (fds.map fun fd => pointer f (t.filp fd)).sum = fdRefs f (some t))
    (ht : k.task cur = some t) (hnr : k.task nr = none) (hfilp : t'.filp = t.filp)
    (hpwd : t'.pwd = t.pwd) (hroot : t'.root = t.root) : Books (k1.setTask nr (some t')) l := by
  have hfree : k1.task nr = none := by
    rw [hsame.task]
    exact hnr
  refine hheld.setTask (fun f => ?_) fun i => ?_
  · have hfd : fdRefs f (some t') = fdRefs f (some t) := by rw [fdRefs, hfilp, fdRefs]
    rw [hfree, hsame.file, hsame.fileRefs, grabbed_fileRefs, hfd, ← hk.file, ← hfds]
    rfl
  · have huse : ∀ f, (fds.map fun fd => pointer f (t.filp fd)).sum ≤ (k.file f).fCount := by
      intro f
      rw [hk.file, hfds, ← ht]
      exact fdRefs_le_fileRefs
    rw [hfree, hsame.inodeRefs, grabbed_inodeRefs huse, count_orNull, count_orNull, hb, dirRefs,
      dirRefs, hpwd, hroot]
    omega

theorem sysFork_books {pid : Nat} {page mem : Bool} : KeepsBooks (sysFork cur pid page mem) := by
  intro k l hk
  refine meets_current nofun fun t ht => meets_get_bind ?_
  split
  · exact hk
  rename_i nr hfind
  have hnr : k.task nr = none := by
    have := List.find?_some hfind
    simp only [decide_eq_true_eq] at this
    simpa using this.2
  split
  · exact hk
  have hfds := fun f => (fdRefs_eq_sum t f).symm
  generalize List.finRange 20 = fds at hfds
  refine (grabFiles_meets t fds).bind ?_
  rintro ⟨⟩ _ rfl
  have hheld : Held k.inodeRefs (grabbed k t fds) l := hk.held.move rfl rfl fun _ => rfl
  refine (igrabAny_takes _ _ hheld).bind fun _ k2 ⟨hheld2, hsame2⟩ => ?_
  refine (igrabAny_takes _ _ hheld2).bind fun _ k3 ⟨hheld3, hsame3⟩ => ?_
  exact hk.fork (hsame2.trans hsame3) hheld3 rfl hfds ht hnr rfl rfl rfl

/-! ### `do_exit` -/

theorem Books.mapTasks {h : Task → Task} (hk : Books k l) (hfilp : ∀ t, (h t).filp = t.filp)
    (hpwd : ∀ t, (h t).pwd = t.pwd) (hroot : ∀ t, (h t).root = t.root) :
    Books { k with task := fun nr => (k.task nr).map h } l := by
  have hfd : ∀ f nr, fdRefs f ((k.task nr).map h) = fdRefs f (k.task nr) := by
    intro f nr
    cases k.task nr with
    | none => rfl
    | some t =>
      show ∑ fd, pointer f ((h t).filp fd) = _
      rw [hfilp]
      rfl
  have hdir : ∀ i nr, dirRefs i ((k.task nr).map h) = dirRefs i (k.task nr) := by
    intro i nr
    cases k.task nr with
    | none => rfl
    | some t =>
      show pointer i (h t).pwd + pointer i (h t).root = _
      rw [hpwd, hroot]
      rfl
  refine ⟨fun f => ?_, hk.held.move rfl rfl fun i => ?_⟩
  · rw [hk.file]
    unfold Kernel.fileRefs
    exact Finset.sum_congr rfl fun nr _ => (hfd f nr).symm
  · unfold Kernel.inodeRefs
    simp only [hdir]

theorem closeAll_books (fds : List Fd) (hk : Books k l) (ht : k.task cur = some t) :
    Meets (fds.forM fun fd => do
        let t ← current cur
        doIf ((t.filp fd).isSome) (discard (sysClose cur fd.val))) k
      (fun _ k' => Books k' l ∧ ∃ filp, k'.task cur = some { t with filp := filp } ∧
        ∀ fd, fd ∈ fds ∨ t.filp fd = none → filp fd = none) Alive := by
  induction fds generalizing k t with
  | nil => exact ⟨hk, t.filp, ht, fun fd hfd => hfd.elim nofun id⟩
  | cons fd fds ih =>
    have hone : Meets (do
        let t ← current cur
        doIf ((t.filp fd).isSome) (discard (sysClose cur fd.val))) k
        (fun _ k' => Books k' l ∧ Closed cur fd.val k k') Alive := by
      refine meets_current nofun fun t' ht' => ?_
      unfold doIf
      split
      · exact (sysClose_books hk).bind fun _ _ h => h
      · next hnone =>
        refine ⟨hk, .refl ht' fun x hx => ?_⟩
        rw [Fin.ext hx]
        simpa using hnone
    refine hone.bind fun _ k1 ⟨hk1, hclosed⟩ => ?_
    obtain ⟨filp, ht1, hfilp⟩ := hclosed t ht
    refine (ih hk1 ht1).imp ?_
    rintro _ k2 ⟨hk2, filp2, ht2, hfilp2⟩
    refine ⟨hk2, filp2, ht2, fun x hx => hfilp2 x ?_⟩
    rcases hx with hx | hx
    · rcases List.mem_cons.mp hx with rfl | hx
      · exact .inr (hfilp x (.inl rfl))
      · exact .inl hx
    · exact .inr (hfilp x (.inr hx))

theorem iputPwd_books (hk : Books k l) (ht : k.task cur = some t) :
    Meets (iputAny t.pwd) k (fun _ k1 =>
      Books (k1.setTask cur (some { t with pwd := none })) l ∧ k1.task = k.task) Alive := by
  refine iputAny_setTask hk ht rfl (fun i => Nat.le_add_right _ _) fun i => ?_
  show 0 + pointer i t.root + pointer i t.pwd + l.count i =
    pointer i t.pwd + pointer i t.root + l.count i
  omega

theorem iputRoot_books (hk : Books k l) (ht : k.task cur = some t) :
    Meets (iputAny t.root) k (fun _ k1 =>
      Books (k1.setTask cur (some { t with root := none })) l ∧ k1.task = k.task) Alive := by
  refine iputAny_setTask hk ht rfl (fun i => Nat.le_add_left _ _) fun i => ?_
  show pointer i t.pwd + 0 + pointer i t.root + l.count i =
    pointer i t.pwd + pointer i t.root + l.count i
  omega

theorem finish_books (hk : Books k l) (ht : k.task cur = some t)
    (hfilp : ∀ fd, t.filp fd = none) (hpwd : t.pwd = none) (hroot : t.root = none) :
    Meets (finish cur t') k (fun _ k' => Books k' l) Alive := by
  unfold finish
  split
  · have : k.setTask cur ((k.task cur).map fun t => { t with zombie := true }) =
        k.setTask cur (some { t with zombie := true }) := by rw [ht]; rfl
    show Books (k.setTask cur ((k.task cur).map fun t => { t with zombie := true })) l
    rw [this]
    exact hk.setTask ht rfl rfl rfl
  · split
    · exact nofun
    refine hk.held.setTask (fun f => ?_) fun i => ?_
    · simp [ht, hk.file f, fdRefs, hfilp]
    · simp [ht, dirRefs, hpwd, hroot]

theorem doExit_books : KeepsBooks (doExit cur) := by
  intro k l hk
  refine meets_current nofun fun t ht => ?_
  have hk1 : Books { k with task := fun nr => (k.task nr).map (orphan t.pid) } l := by
    refine hk.mapTasks (fun t => ?_) (fun t => ?_) fun t => ?_
    all_goals
      unfold orphan
      split <;> rfl
  have ht1 : (k.task cur).map (orphan t.pid) = some (orphan t.pid t) := by rw [ht, Option.map_some]
  refine (meets_modify (Q := fun _ s =>
    s = { k with task := fun nr => (k.task nr).map (orphan t.pid) }) rfl).bind ?_
  rintro ⟨⟩ _ rfl
  refine (closeAll_books (List.finRange 20) hk1 ht1).bind ?_
  rintro _ k2 ⟨hk2, filp, ht2, hfilp⟩
  have hempty : ∀ fd, filp fd = none := fun fd => hfilp fd (.inl (List.mem_finRange fd))
  refine meets_current nofun fun t2 ht2' => ?_
  cases ht2.symm.trans ht2'
  refine (iputPwd_books hk2 ht2).bind fun _ k3 ⟨hk3, htask3⟩ => ?_
  rw [← htask3] at ht2
  refine meets_modifyTask ht2 (meets_current nofun fun t3 ht3 => ?_)
  cases (update_self cur _ k3.task).symm.trans ht3
  refine (iputRoot_books hk3 ht3).bind fun _ k4 ⟨hk4, htask4⟩ => ?_
  rw [← htask4] at ht3
  refine meets_modifyTask ht3 (meets_current nofun fun t5 ht5 => ?_)
  exact (finish_books hk4 (update_self cur _ _) hempty rfl rfl).bind fun _ _ h => h

/-! ### Runs -/

theorem exec_books {call : Call} (hcall : call.Accessible) : KeepsBooks (call.exec cur) := by
  cases call with
  | «open» path flag mode => exact sysOpen_books hcall
  | creat path mode => exact sysOpen_books hcall
  | close fd => exact fun hk => (sysClose_books hk).imp fun _ _ h => h.1
  | dup fd => exact dupfd_books
  | dup2 oldfd newfd => exact sysDup2_books
  | fcntl fd cmd arg => exact sysFcntl_books
  | pipe page fildes =>
    obtain rfl : fildes = true := hcall
    exact sysPipe_books
  | fork pid page mem => exact sysFork_books
  | exit => exact doExit_books
  | chdir path => exact sysChdir_books hcall
  | chroot path => exact sysChroot_books hcall
  | mkdir path mode => exact Takes.keepsBooks (sysMkdir_takes hcall)
  | rmdir path => exact Takes.keepsBooks (sysRmdir_takes hcall)
  | link oldname newname => exact Takes.keepsBooks (sysLink_takes hcall.1 hcall.2)
  | unlink path => exact Takes.keepsBooks (sysUnlink_takes hcall)
  | stat path buf =>
    obtain ⟨hpath, rfl⟩ := hcall
    exact Takes.keepsBooks (sysStat_takes hpath)
  | access path mode => exact Takes.keepsBooks (sysAccess_takes hcall)
  | utime path times => exact Takes.keepsBooks (sysUtime_takes hcall.1 hcall.2)
  | chmod path mode => exact Takes.keepsBooks (sysChmod_takes hcall)
  | chown path uid gid => exact Takes.keepsBooks (sysChown_takes hcall)
  | write fd buf count raw => exact sysWrite_books hcall

theorem Accounted.start (hk : Accounted k) (e : Event) : Books (k.start e) [] := by
  have htables : SameTables k (k.start e) := ⟨rfl, rfl, rfl, rfl⟩
  exact hk.books.same htables ⟨hk.books.held.count, fun i hi => absurd hi List.not_mem_nil⟩

theorem step_accounted {e : Event} (hk : Accounted k) (hcall : e.call.Accessible)
    (hstep : step k e = some k') : Accounted k' := by
  have hexec : Meets (e.call.exec e.cur) (k.start e) _ Alive := exec_books hcall (hk.start e)
  unfold step at hstep
  unfold Meets at hexec
  split at hstep
  · cases hstep
  split at hstep
  · cases hstep
  split at hstep
  · next hrun =>
    cases hstep
    rw [hrun] at hexec
    exact hexec.accounted
  · next hrun =>
    rw [hrun] at hexec
    exact (hexec rfl).elim
  · cases hstep

theorem mounted_accounted : Accounted mounted := by
  refine ⟨?_, ?_, nofun⟩
  · decide +kernel
  · decide +kernel

/-- `a` is made, opened, inherited and removed; the father ends. -/
def session : List Event :=
  [calls (.creat [97, 0] 0o644), calls (.dup 0), calls (.fork 3 true true),
    calls (.mkdir [98, 0] 0o755), calls (.chdir [98, 0]), calls (.unlink [47, 97, 0]),
    calls (.close 0), calls .exit]

end Linux001.Namei
