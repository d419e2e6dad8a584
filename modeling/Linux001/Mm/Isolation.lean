import Linux001.Mm.Rollback
import Linux001.ProofKit.Update

/-! Which page tables the calls of `fork`, `exec` and `exit` touch. `get_limit` reads a descriptor
in the LDT that was loaded last, which is that of task 0 with its limits of 4GB, so that the calls
walk far beyond the slot of the process. -/

namespace Linux001.Mm

open Function ProofKit

def setLimit (d : Desc) (limit : BitVec 64) : Desc :=
  let pages := (limit - 1) >>> 12
  fun k =>
    if k = 0 then pages.setWidth 8
    else if k = 1 then (pages >>> 8).setWidth 8
    else if k = 6 then (d 6 &&& 0xF0) ||| ((pages >>> 16).setWidth 8 &&& 0x0F)
    else d k

/-- The result of `lsl`: the limit in bytes, by the granularity bit. -/
def lsl (d : Desc) : Nat :=
  let raw := ((d 6 &&& 0x0F) ++ d 1 ++ d 0).toNat
  if (d 6).getLsbD 7 then raw * 4096 + 4095 else raw

/-- The descriptors, the slots in use, `current`, and the loaded LDT. -/
structure Procs where
  ldt : Fin 64 → Ldt
  live : Fin 64 → Bool
  current : Fin 64
  ldtr : Fin 64

namespace Procs

def getLimit (P : Procs) (k : Fin 3) : Nat := lsl (P.ldt P.ldtr k) + 1

def findEmptyProcess (P : Procs) : Option (Fin 64) :=
  (List.finRange 64).find? fun i => decide (i ≠ 0) && !P.live i

def changeLdt (l : Ldt) (textSize : BitVec 64) : Ldt :=
  let codeLimit := (textSize + 4096 - 1) &&& 0xFFFFF000
  let base := getBase (l 1)
  update (update l 1 (setLimit (setBase (l 1) base) codeLimit)) 2
    (setLimit (setBase (l 2) base) 0x4000000)

end Procs

/-- A `fork` that succeeds, an `exec`, the release of a task, or a `switch_to`. -/
inductive ProcEvent
  | fork
  | exec (textSize : BitVec 64)
  | release (i : Fin 64)
  | switchTo (n : Fin 64)

/-- `copy_process`, whose copy is taken to reach no other task. -/
def Procs.fork (P : Procs) : Option Procs :=
  if P.live P.current then
    P.findEmptyProcess.map fun nr => { P with
      ldt := update P.ldt nr (rebase (P.ldt P.current) (newBase nr.val))
      live := update P.live nr true }
  else none

def Procs.exec (P : Procs) (textSize : BitVec 64) : Option Procs :=
  if P.live P.current ∧ getBase (P.ldt P.current 1) ≠ 0 then
    some { P with
      ldt := update P.ldt P.current (Procs.changeLdt (P.ldt P.current) textSize) }
  else none

/-- One step of the process table. `release` does not look at slot 0, and `switch_to` does not load
an LDT. -/
def procStep (P : Procs) : ProcEvent → Option Procs
  | .fork => P.fork
  | .exec textSize => P.exec textSize
  | .release i => if i = 0 then none else some { P with live := update P.live i false }
  | .switchTo n => if P.live n then some { P with current := n } else none

def bootProcs : Procs := ⟨fun _ => initLdt, fun i => decide (i = 0), 0, 0⟩

/-- The loaded LDT is that of task 0, and every process has the base of its slot. -/
structure Procs.Placed (P : Procs) : Prop where
  loaded : P.ldtr = 0
  init : P.ldt 0 = initLdt
  task : P.live 0 = true
  code : ∀ i, P.live i = true → (getBase (P.ldt i 1)).toNat = slotBase i.val
  data : ∀ i, P.live i = true → (getBase (P.ldt i 2)).toNat = slotBase i.val

theorem placed_bootProcs : bootProcs.Placed where
  loaded := rfl
  init := rfl
  task := rfl
  code i hi := by
    obtain rfl : i = 0 := of_decide_eq_true hi
    decide
  data i hi := by
    obtain rfl : i = 0 := of_decide_eq_true hi
    decide

section Steps

variable {P Q : Procs} {e : ProcEvent} {i : Fin 64} {l : Ldt} {nr : Nat}

theorem findEmptyProcess_spec {nr : Fin 64} (h : P.findEmptyProcess = some nr) :
    nr ≠ 0 ∧ P.live nr = false := by
  have hfound := List.find?_some h
  simpa using hfound

theorem Procs.Placed.setLdt {live : Fin 64 → Bool} (h : P.Placed)
    (hzero : i ≠ 0) (hlive : ∀ j, j ≠ i → live j = P.live j)
    (hcode : (getBase (l 1)).toNat = slotBase i.val)
    (hdata : (getBase (l 2)).toNat = slotBase i.val) :
    ({ P with ldt := update P.ldt i l, live := live } : Procs).Placed := by
  refine ⟨h.loaded, ?_, ?_, fun j hj => ?_, fun j hj => ?_⟩
  · exact (update_of_ne hzero.symm _ _).trans h.init
  · exact (hlive 0 hzero.symm).trans h.task
  · change (getBase (update P.ldt i l j 1)).toNat = _
    by_cases hji : j = i
    · rw [hji, update_self]
      exact hcode
    · rw [update_of_ne hji]
      exact h.code j ((hlive j hji).symm.trans hj)
  · change (getBase (update P.ldt i l j 2)).toNat = _
    by_cases hji : j = i
    · rw [hji, update_self]
      exact hdata
    · rw [update_of_ne hji]
      exact h.data j ((hlive j hji).symm.trans hj)

theorem getBase_rebase (l : Ldt) (hnr : nr < nrTasks) :
    (getBase (rebase l (newBase nr) 1)).toNat = slotBase nr ∧
      (getBase (rebase l (newBase nr) 2)).toNat = slotBase nr := by
  exact ⟨getBase_newBase _ hnr, getBase_newBase _ hnr⟩

theorem getBase_changeLdt (textSize : BitVec 64) (hnr : nr < nrTasks)
    (h : (getBase (l 1)).toNat = slotBase nr) :
    (getBase (Procs.changeLdt l textSize 1)).toNat = slotBase nr ∧
      (getBase (Procs.changeLdt l textSize 2)).toNat = slotBase nr := by
  have hset : ∀ d, (getBase (setBase d (getBase (l 1)))).toNat = slotBase nr := by
    intro d
    have hlt : nr < 64 := hnr
    rw [getBase_setBase, BitVec.toNat_setWidth, BitVec.toNat_setWidth, h]
    unfold slotBase
    omega
  exact ⟨hset (l 1), hset (l 2)⟩

theorem slotBase_pos (h : slotBase i.val ≠ 0) : i ≠ 0 := by
  rintro rfl
  exact h rfl

theorem procStep_placed (h : P.Placed) (hs : procStep P e = some Q) : Q.Placed := by
  cases e with
  | fork =>
    obtain ⟨-, hs⟩ := Option.ite_none_right_eq_some.mp hs
    obtain ⟨nr, hnr, rfl⟩ := Option.map_eq_some_iff.mp hs
    obtain ⟨hzero, -⟩ := findEmptyProcess_spec hnr
    obtain ⟨hcode, hdata⟩ := getBase_rebase (P.ldt P.current) nr.isLt
    exact h.setLdt hzero (fun j hj => update_of_ne hj _ _) hcode hdata
  | exec textSize =>
    obtain ⟨⟨hlive, hne⟩, heq⟩ := Option.ite_none_right_eq_some.mp hs
    cases heq
    have hbase := h.code _ hlive
    obtain ⟨hcode, hdata⟩ := getBase_changeLdt textSize P.current.isLt hbase
    refine h.setLdt (slotBase_pos fun hz => hne ?_) (fun _ _ => rfl) hcode hdata
    exact BitVec.eq_of_toNat_eq (hbase.trans hz)
  | release i =>
    obtain ⟨hzero, heq⟩ := Option.ite_none_left_eq_some.mp hs
    cases heq
    exact ⟨h.loaded, h.init, (update_of_ne (Ne.symm hzero) _ _).trans h.task,
      fun j hj => h.code j (of_update hj nofun).2, fun j hj => h.data j (of_update hj nofun).2⟩
  | switchTo n =>
    obtain ⟨-, heq⟩ := Option.ite_none_right_eq_some.mp hs
    cases heq
    exact ⟨h.loaded, h.init, h.task, h.code, h.data⟩

theorem placed_of_reaches (h : Reaches procStep (fun _ _ => True) bootProcs P) : P.Placed :=
  Reaches.invariant (P := Procs.Placed)
    (fun _ _ _ h _ hs => procStep_placed h hs) h placed_bootProcs

theorem Procs.Placed.getLimit (h : P.Placed) : P.getLimit 1 = 2 ^ 32 ∧ P.getLimit 2 = 2 ^ 32 := by
  unfold Procs.getLimit
  rw [h.loaded, h.init]
  decide

end Steps

/-- The calls of `free_page_tables` in `do_exit` and `do_execve`. -/
def Procs.freeMem (P : Procs) (m : Memory) : Except Panic Memory :=
  (freePageTables m (getBase (P.ldt P.current 1)).toNat (P.getLimit 1)).bind fun m =>
    freePageTables m (getBase (P.ldt P.current 2)).toNat (P.getLimit 2)

def Procs.copyMem (P : Procs) (m : Memory) (nr : Nat) : Except Panic (Bool × Ldt × Memory) :=
  Mm.copyMem m (P.getLimit 1) (P.getLimit 2) (P.ldt P.current) (P.ldt P.current) nr

def InSlot (j a : Nat) : Prop := slotBase j ≤ a ∧ a < slotBase j + 0x4000000

def Spares (m m' : Memory) (i : Nat) : Prop :=
  ∀ j a, UserSlot j → j ≠ i → InSlot j a → m'.leaf a = m.leaf a

/-- All slots but `i` have their entries, up to the write bits of slot `k`. -/
def SparesBut (m m' : Memory) (i k : Nat) : Prop :=
  ∀ j a, UserSlot j → j ≠ i → InSlot j a →
    (j ≠ k → m'.leaf a = m.leaf a) ∧ readOnlyEntry (m'.leaf a) = readOnlyEntry (m.leaf a)

section Free

variable {m m' : Memory} {a i n : Nat} {P : Procs}

theorem freePageTables_leaf {size : Nat} (h : m.Tree) (hfit : a + roundUp size < 2 ^ 64)
    (hf : freePageTables m a size = .ok m') :
    m'.Tree ∧ ∀ b, m'.leaf b =
      if Covers a (roundUp size / 0x1000) b ∧ present (m.leaf b) then 0 else m.leaf b := by
  unfold freePageTables at hf
  split at hf
  · cases hf
  · split at hf
    · cases hf
    · rw [if_neg (Nat.not_le.mpr hfit)] at hf
      exact freeLoop_leaf h hf

theorem covers_slot {j : Nat} (hi : i < nrTasks) (hj : j < nrTasks) (ha : InSlot j a) :
    Covers (slotBase i) (2 ^ 20) a ↔ i ≤ j := by
  have hi' : i < 64 := hi
  have hj' : j < 64 := hj
  unfold InSlot at ha
  have hbound : slotBase i / 4096 = i * 0x4000 := by
    unfold slotBase
    omega
  constructor
  · rintro ⟨k, hk, hpage⟩
    unfold pageNr at hpage
    unfold slotBase at ha
    omega
  · intro hij
    refine ⟨a / 4096 - i * 0x4000, ?_, ?_⟩
    · unfold slotBase at ha
      omega
    · unfold pageNr
      unfold slotBase at ha
      omega

theorem Procs.Placed.freeMem_leaf (hP : P.Placed) (hlive : P.live P.current = true)
    (h : m.Tree) (hf : P.freeMem m = .ok m') (b : Nat) :
    m'.leaf b = if Covers (slotBase P.current.val) (2 ^ 20) b ∧ present (m.leaf b) then 0
      else m.leaf b := by
  have hpages : roundUp (2 ^ 32) / 0x1000 = 2 ^ 20 := by decide
  have hfit : slotBase P.current.val + roundUp (2 ^ 32) < 2 ^ 64 := by
    unfold slotBase
    omega
  unfold Procs.freeMem at hf
  rw [hP.code _ hlive, hP.data _ hlive, hP.getLimit.1, hP.getLimit.2] at hf
  obtain ⟨u, hu, hrest⟩ := except_bind_eq_ok.mp hf
  obtain ⟨htree, hleaf⟩ := freePageTables_leaf h hfit hu
  obtain ⟨-, hleaf'⟩ := freePageTables_leaf htree hfit hrest
  rw [hpages] at hleaf hleaf'
  rw [hleaf' b, hleaf b]
  -- The second call finds nothing that the first one left.
  split
  · rw [ite_self]
  · rfl

/-- Exit and exec spare the other slots exactly when no page above is present. -/
theorem Procs.Placed.spares_iff (hP : P.Placed) (hlive : P.live P.current = true)
    (h : m.Tree) (hf : P.freeMem m = .ok m') :
    Spares m m' P.current.val ↔
      ∀ j a, P.current.val < j → j < nrTasks → InSlot j a → m.lookup a = none := by
  have hleaf := hP.freeMem_leaf hlive h hf
  constructor
  · intro hspares j a hij hj ha
    have hsame := hspares j a ⟨by omega, hj⟩ (by omega) ha
    rw [hleaf a] at hsame
    rw [lookup_eq_none_iff]
    cases hp : present (m.leaf a) with
    | false => rfl
    | true =>
      rw [if_pos ⟨(covers_slot P.current.isLt hj ha).mpr (Nat.le_of_lt hij), hp⟩] at hsame
      rw [← hsame] at hp
      cases hp
  · intro habs j a hj hne ha
    rw [hleaf a, if_neg]
    rintro ⟨hcovers, hp⟩
    have hle := (covers_slot P.current.isLt hj.2 ha).mp hcovers
    have hnone := lookup_eq_none_iff.mp (habs j a (by omega) hj.2 ha)
    rw [hnone] at hp
    cases hp

end Free

section Copy

variable {m m' : Memory} {i k x : Nat}

/-- The pages of the new slot are not among those that the loop reads. -/
theorem pageNr_newBase_ne (hk : k < nrTasks) (hi : UserSlot i) (hbelow : i < k ∨ 32 ≤ i) {y : Nat}
    (hx : x < 2 ^ 20) (hy : y < slotPages) :
    pageNr (slotBase k + 0x1000 * x) ≠ pageNr ((newBase i).toNat + 0x1000 * y) := by
  rw [pageNr_walk hk hx]
  by_cases hlow : i < 32
  · rw [toNat_newBase i hi.2, if_pos hlow, pageNr_slotBase hi.2 hy]
    unfold slotPages at *
    omega
  · rw [pageNr_newBase (Nat.not_lt.mp hlow) hi.2 hy]
    unfold nrTasks slotPages at *
    omega

/-- Nothing is present above the parent where `copy_page_tables` walks. -/
def ClearAbove (m : Memory) (k : Nat) : Prop :=
  ∀ a, slotBase (k + 1) ≤ a → a < slotBase k + 2 ^ 32 → m.lookup a = none

/-- At each page of the parent there are free pages for the child's missing tables. -/
def Provided (m : Memory) (a b : Nat) : Prop :=
  ∀ x < slotPages, ∀ u, copyLoop x m a b = (true, u) → present (u.leaf (a + 0x1000 * x)) = true →
    ∃ n, missing u (b + 0x1000 * x) = some n ∧ n ≤ freePages u

theorem Provided.done {a b : Nat} (h : Provided m a b) (hwf : Wf m) (hroom : Roomy slotPages m)
    (hdisj : NoOverlap a b slotPages) : (copyLoop slotPages m a b).1 = true := by
  by_contra hfail
  obtain ⟨x, hx, u, hloop, hstop⟩ :=
    copyLoop_stops (Prod.ext (Bool.eq_false_iff.mpr hfail) rfl)
  have hroom' : Roomy x m := fun t ht hlow => by
    have := hroom t ht hlow
    omega
  obtain ⟨hwf', -⟩ := copyLoop_leaf hwf hroom' (by unfold slotPages at hx; omega)
    (fun i hi j hj => hdisj i (by omega) j (by omega)) hloop
  obtain ⟨-, -, hpres, hfew⟩ := copyPte_false hwf' hstop
  obtain ⟨n, hn, henough⟩ := h x hx u hloop hpres
  exact absurd (hfew n hn) (Nat.not_lt.mpr henough)

theorem copyLoop_first {done : Bool} (hk : k < nrTasks) (hi : UserSlot i) (hbelow : i < k ∨ 32 ≤ i)
    (hwf : Wf m) (hroom : Roomy slotPages m) (hclear : ClearAbove m k)
    (hc : copyLoop (2 ^ 20) m (slotBase k) (newBase i).toNat = (done, m')) :
    copyLoop slotPages m (slotBase k) (newBase i).toNat = (done, m') := by
  have hsplit : 2 ^ 20 = slotPages + (2 ^ 20 - slotPages) := by decide
  rw [hsplit, copyLoop_add] at hc
  split at hc
  · rename_i u hu
    exact hu.trans hc
  rename_i u hu
  have hdisj := noOverlap_newBase hk hi fun _ => by omega
  obtain ⟨-, -, -, hother⟩ := copyLoop_leaf hwf hroom (by decide) hdisj hu
  have habs : ∀ y < 2 ^ 20 - slotPages,
      present (u.leaf (slotBase k + 0x1000 * slotPages + 0x1000 * y)) = false := by
    intro y hy
    have haddr : slotBase k + 0x1000 * slotPages + 0x1000 * y =
        slotBase k + 0x1000 * (slotPages + y) := by omega
    have hx : slotPages + y < 2 ^ 20 := by omega
    rw [haddr, hother]
    · apply lookup_eq_none_iff.mp
      apply hclear
      · unfold slotBase slotPages
        omega
      · omega
    · rintro ⟨z, hz, hpage⟩
      rw [pageNr_walk hk hx, pageNr_walk hk (by unfold slotPages at hz; omega)] at hpage
      omega
    · rintro ⟨z, hz, hpage⟩
      exact pageNr_newBase_ne hk hi hbelow hx hz hpage
  rw [copyLoop_absent habs] at hc
  exact hu.trans hc

/-- A `fork` downwards, or that overflows, spares the others if nothing is above the parent. -/
theorem Procs.Placed.sparesBut {P : Procs} {p' : Ldt} {done : Bool} (hP : P.Placed)
    (hlive : P.live P.current = true)
    (hi : UserSlot i) (hbelow : i < P.current.val ∨ 32 ≤ i) (hwf : Wf m)
    (hroom : Roomy slotPages m) (hclear : ClearAbove m P.current.val)
    (hpages : Provided m (slotBase P.current.val) (newBase i).toNat)
    (hc : P.copyMem m i = .ok (done, p', m')) : SparesBut m m' i P.current.val := by
  have hk : P.current.val < nrTasks := P.current.isLt
  obtain ⟨u, hloop, -, hresult⟩ := copyLoop_of_copyMem hc
  rw [hP.data _ hlive, hP.getLimit.2] at hloop
  have hfirst := copyLoop_first hk hi hbelow hwf hroom hclear hloop
  have hdisj := noOverlap_newBase hk hi fun _ => by omega
  obtain rfl : done = true := by
    have hdone := hpages.done hwf hroom hdisj
    rwa [hfirst] at hdone
  obtain rfl : m' = u := hresult
  obtain ⟨-, -, hfrom, hother⟩ := copyLoop_leaf hwf hroom (by decide) hdisj hfirst
  intro j a hj hji ha
  obtain ⟨x, hx, hpage⟩ : ∃ x < slotPages, pageNr a = pageNr (slotBase j + 0x1000 * x) := by
    refine ⟨(a - slotBase j) / 4096, ?_, ?_⟩
    · unfold InSlot at ha
      unfold slotPages
      omega
    · unfold InSlot slotBase at *
      unfold pageNr
      omega
  rw [leaf_congr_pageNr hpage, leaf_congr_pageNr hpage]
  -- The entries of slot `j` are not among those of the child.
  have hto : ¬Covers (newBase i).toNat slotPages (slotBase j + 0x1000 * x) := by
    rintro ⟨y, hy, heq⟩
    exact noOverlap_newBase hj.2 hi (fun _ => hji) x hx y hy heq
  by_cases hjk : j = P.current.val
  · subst hjk
    refine ⟨fun h => absurd rfl h, ?_⟩
    rw [hfrom x hx, sharedFrom]
    split
    · unfold readOnlyEntry
      rw [BitVec.and_assoc, BitVec.and_self]
    · rfl
  · have hsame : m'.leaf (slotBase j + 0x1000 * x) = m.leaf (slotBase j + 0x1000 * x) := by
      apply hother _ _ hto
      rintro ⟨y, hy, heq⟩
      rw [pageNr_slotBase hj.2 hx, pageNr_slotBase hk hy] at heq
      unfold slotPages at *
      omega
    rw [hsame]
    exact ⟨fun _ => rfl, rfl⟩

end Copy

/-- In every reachable process table, exit and exec spare the other slots exactly when no page above
is present; a `fork` does if also the child is below or from 32 on, with pages for its tables. -/
theorem spares_of_reaches {P : Procs} {m m' : Memory}
    (hr : Reaches procStep (fun _ _ => True) bootProcs P) (hlive : P.live P.current = true) :
    (m.Tree → P.freeMem m = .ok m' → (Spares m m' P.current.val ↔
      ∀ j a, P.current.val < j → j < nrTasks → InSlot j a → m.lookup a = none)) ∧
    ∀ i done p', UserSlot i → Wf m → Roomy slotPages m → P.copyMem m i = .ok (done, p', m') →
      ClearAbove m P.current.val → (i < P.current.val ∨ 32 ≤ i) →
      Provided m (slotBase P.current.val) (newBase i).toNat → SparesBut m m' i P.current.val := by
  have hP := placed_of_reaches hr
  refine ⟨fun htree hf => hP.spares_iff hlive htree hf, ?_⟩
  intro i done p' hi hwf hroom hc hclear hbelow hpages
  exact hP.sparesBut hlive hi hbelow hwf hroom hclear hpages hc

section Runs

variable {P : Procs} {k : Nat}

theorem Procs.Placed.freeMem_fault {u : Memory} (hP : P.Placed) (hlive : P.live P.current = true)
    (hpos : 0 < P.current.val) (hle : P.current.val ≤ k) (hk : UserSlot k)
    (hu : freePte (faultMemory (slotBase k)) (slotBase k) = .ok u) :
    P.freeMem (faultMemory (slotBase k)) = .ok u := by
  have hlt : k < 64 := hk.2
  have hwf := (faultMemory_spec hk).1.wf
  have hslot : pageNr (slotBase k) = k * slotPages := by simpa using pageNr_walk hk.2 (i := 0)
  -- The pages of the range but one are absent.
  have habs : ∀ x < 2 ^ 20, x ≠ (k - P.current.val) * slotPages →
      present ((faultMemory (slotBase k)).leaf (slotBase P.current.val + 0x1000 * x)) = false := by
    intro x hx hne
    have haddr : slotBase P.current.val + 0x1000 * x = 4096 * (P.current.val * slotPages + x) := by
      unfold slotBase slotPages
      omega
    rw [haddr, faultMemory_leaf]
    · rfl
    · unfold slotPages
      omega
    · unfold slotPages
      omega
    · unfold slotPages at *
      omega
  have hpage : slotBase P.current.val + 0x1000 * ((k - P.current.val) * slotPages) =
    slotBase k := by
    unfold slotBase slotPages
    omega
  have hfree : ∀ s v, freeLoop (2 ^ 20) s (slotBase P.current.val) = .ok v →
      freePageTables s (slotBase P.current.val) (2 ^ 32) = .ok v := by
    intro s v hv
    have halign : ¬slotBase P.current.val % 0x200000 ≠ 0 := by
      unfold slotBase
      omega
    have hzero : slotBase P.current.val ≠ 0 := by
      unfold slotBase
      omega
    have hround : roundUp (2 ^ 32) = 2 ^ 32 := by decide
    have hfit : ¬2 ^ 64 ≤ slotBase P.current.val + roundUp (2 ^ 32) := by
      unfold slotBase
      omega
    have hpages : roundUp (2 ^ 32) / 0x1000 = 2 ^ 20 := by decide
    rw [freePageTables, if_neg halign, if_neg hzero, if_neg hfit, hpages]
    exact hv
  have hfirst : freeLoop (2 ^ 20) (faultMemory (slotBase k)) (slotBase P.current.val) = .ok u := by
    refine freeLoop_single hwf.tree ?_ (by decide) habs ?_
    · unfold slotPages
      omega
    · rw [hpage]
      exact hu
  obtain ⟨-, hleaf⟩ := freePte_leaf hwf.tree hu
  have hsecond : freeLoop (2 ^ 20) u (slotBase P.current.val) = .ok u := by
    apply freeLoop_absent
    intro x hx
    rw [hleaf]
    split
    · rfl
    · rename_i hkept
      by_cases hxk : x = (k - P.current.val) * slotPages
      · rw [hxk, hpage] at hkept ⊢
        simpa using hkept
      · exact habs x hx hxk
  unfold Procs.freeMem
  rw [hP.code _ hlive, hP.data _ hlive, hP.getLimit.1, hP.getLimit.2, hfree _ _ hfirst,
    except_ok_bind]
  exact hfree _ _ hsecond

/-- The only page of a process can be copied, and no other one has to be. -/
theorem provided_fault {b : Nat} (hk : UserSlot k)
    (hdone : (copyPte (faultMemory (slotBase k)) (slotBase k) b).1 = true)
    (hfar : ∀ x < slotPages, k * slotPages + x ≠ pageNr b) :
    Provided (faultMemory (slotBase k)) (slotBase k) b := by
  obtain ⟨v, hv⟩ : ∃ v, copyPte (faultMemory (slotBase k)) (slotBase k) b = (true, v) :=
    ⟨_, Prod.ext hdone rfl⟩
  intro x hx u hloop hpres
  cases x with
  | zero =>
    cases hloop
    rw [Nat.mul_zero, Nat.add_zero] at hpres ⊢
    by_contra hfew
    have hstuck := copyPte_stuck (b := b) (faultMemory_spec hk).1.wf hpres fun n hn =>
      Nat.not_le.mp fun hle => hfew ⟨n, hn, hle⟩
    rw [hdone] at hstuck
    cases hstuck
  | succ x =>
    -- The copy has ended, and the other pages are absent.
    have hlt : x + 1 < 2 ^ 20 := Nat.lt_trans hx (by decide)
    have hcopy :=
      (copyLoop_faultMemory hk (Nat.lt_of_succ_lt hlt) (fun i hi => hfar i (by omega)) hv).1
    obtain rfl : v = u := congrArg Prod.snd (hcopy.symm.trans hloop)
    have habsent := (copyLoop_faultMemory hk hlt (fun i hi => hfar i (by omega)) hv).2 x
      (Nat.lt_succ_self x)
    rw [habsent] at hpres
    cases hpres

theorem faultMemory_lookup {a : Nat} (hk : UserSlot k) (hlow : slotBase 1 ≤ a) (hhigh : a < 2 ^ 48)
    (hne : a / 4096 ≠ k * slotPages) : (faultMemory (slotBase k)).lookup a = none := by
  have hslot : pageNr (slotBase k) = k * slotPages := by simpa using pageNr_walk hk.2 (i := 0)
  rw [lookup_eq_none_iff, leaf_page, faultMemory_leaf]
  · rfl
  · unfold slotBase at hlow
    omega
  · omega
  · rw [hslot]
    exact hne

end Runs

/-- The process in slot 1 exits; the process in slot 2 forks to slot 1. -/
theorem spares_of_reaches_single :
    (∃ (P : Procs) (m' : Memory), P.current = 1 ∧ P.freeMem (faultMemory (slotBase 1)) = .ok m' ∧
      Spares (faultMemory (slotBase 1)) m' 1) ∧
    ∃ (P : Procs) (p' : Ldt) (m' : Memory), P.current = 2 ∧
      P.copyMem (faultMemory (slotBase 2)) 1 = .ok (true, p', m') ∧
      SparesBut (faultMemory (slotBase 2)) m' 1 2 := by
  constructor
  · have hrun : (run procStep [.fork, .switchTo 1] bootProcs).map (fun P => (P.current, P.live 1)) =
        some (1, true) := by decide +kernel
    obtain ⟨P, hP, heq⟩ := Option.map_eq_some_iff.mp hrun
    obtain ⟨hcur, hone⟩ : P.current = 1 ∧ P.live 1 = true := by
      simpa only [Prod.mk.injEq] using heq
    have hr : Reaches procStep (fun _ _ => True) bootProcs P :=
      reaches_of_run hP
    have hlive : P.live P.current = true := by rw [hcur]; exact hone
    have hslot : UserSlot 1 := ⟨by decide, by decide⟩
    have hok : (freePte (faultMemory (slotBase 1)) (slotBase 1)).toOption.isSome = true := by
      decide +kernel
    cases hu : freePte (faultMemory (slotBase 1)) (slotBase 1) with
    | error e =>
      rw [hu] at hok
      cases hok
    | ok u =>
      have hfree := (placed_of_reaches hr).freeMem_fault hlive (by rw [hcur]; decide)
        (by rw [hcur]; decide) hslot hu
      have hspares := ((spares_of_reaches hr hlive).1 (faultMemory_spec hslot).1.wf.tree hfree).mpr
      rw [hcur] at hspares
      refine ⟨P, u, hcur, hfree, hspares fun j a hj hlt ha => ?_⟩
      have hlt' : j < 64 := hlt
      unfold InSlot slotBase at ha
      exact faultMemory_lookup hslot (by unfold slotBase; omega) (by omega)
        (by unfold slotPages; omega)
  · have hrun : (run procStep [.fork, .fork, .switchTo 2, .release 1] bootProcs).map
        (fun P => (P.current, P.live 2, decide (P.ldt 2 = slotLdt 2))) = some (2, true, true) := by
      decide +kernel
    obtain ⟨P, hP, heq⟩ := Option.map_eq_some_iff.mp hrun
    obtain ⟨hcur, htwo, hldt⟩ : P.current = 2 ∧ P.live 2 = true ∧ P.ldt 2 = slotLdt 2 := by
      simpa only [Prod.mk.injEq, decide_eq_true_iff] using heq
    have hr : Reaches procStep (fun _ _ => True) bootProcs P :=
      reaches_of_run hP
    have hlive : P.live P.current = true := by rw [hcur]; exact htwo
    have hslot : UserSlot 2 := ⟨by decide, by decide⟩
    have hlimit := (placed_of_reaches hr).getLimit
    have hinv := (faultMemory_spec hslot).1
    have hnr : pageNr (newBase 1).toNat = 0x4000 := by decide
    have hdone : (copyPte (faultMemory (slotBase 2)) (slotBase 2) (newBase 1).toNat).1 = true := by
      decide +kernel
    have hc : P.copyMem (faultMemory (slotBase 2)) 1 = .ok (true, rebase (slotLdt 2) (newBase 1),
        (copyPte (faultMemory (slotBase 2)) (slotBase 2) (newBase 1).toNat).2) := by
      unfold Procs.copyMem
      rw [hlimit.1, hlimit.2, hcur, hldt]
      exact copyMem_faultMemory hslot (by decide) (by decide)
        (fun i _ => by rw [hnr]; unfold slotPages; omega) (by decide) hdone
    have hspares := (spares_of_reaches hr hlive).2 1 _ _ ⟨by decide, by decide⟩ hinv.wf
      (hinv.roomy (by decide)) hc
    rw [hcur] at hspares
    refine ⟨P, _, _, hcur, hc, hspares ?_ (.inl (by decide)) (provided_fault hslot hdone ?_)⟩
    swap
    · intro x hx
      unfold slotPages at *
      omega
    intro a hlow hhigh
    have hval : (2 : Fin 64).val = 2 := rfl
    unfold slotBase at hlow hhigh
    rw [hval] at hlow hhigh
    exact faultMemory_lookup hslot (by unfold slotBase; omega) (by omega)
      (by unfold slotPages; omega)

/-- The exit of the process in slot 1 unmaps a page of slot 2. -/
theorem exit_unmaps_neighbour : ∃ (P : Procs) (m' : Memory),
    Reaches procStep (fun _ _ => True) bootProcs P ∧ P.current = 1 ∧ P.live 1 = true ∧
      P.live 2 = true ∧ (faultMemory (slotBase 2)).Tree ∧
      P.freeMem (faultMemory (slotBase 2)) = .ok m' ∧ ¬Spares (faultMemory (slotBase 2)) m' 1 := by
  have hrun : (run procStep [.fork, .fork, .switchTo 1] bootProcs).map
      (fun P => (P.current, P.live 1, P.live 2)) = some (1, true, true) := by decide +kernel
  obtain ⟨P, hP, heq⟩ := Option.map_eq_some_iff.mp hrun
  obtain ⟨hcur, hone, htwo⟩ : P.current = 1 ∧ P.live 1 = true ∧ P.live 2 = true := by
    simpa only [Prod.mk.injEq] using heq
  have hr : Reaches procStep (fun _ _ => True) bootProcs P := reaches_of_run hP
  have hslot : UserSlot 2 := ⟨by decide, by decide⟩
  have htree := (faultMemory_spec hslot).1.wf.tree
  have hok : (freePte (faultMemory (slotBase 2)) (slotBase 2)).toOption.isSome = true := by
    decide +kernel
  have hpres : present ((faultMemory (slotBase 2)).leaf (slotBase 2)) = true := by decide +kernel
  cases hu : freePte (faultMemory (slotBase 2)) (slotBase 2) with
  | error e =>
    rw [hu] at hok
    cases hok
  | ok u =>
    have hplaced := placed_of_reaches hr
    have hfree := hplaced.freeMem_fault (by rw [hcur]; exact hone) (by rw [hcur]; decide)
      (by rw [hcur]; decide) hslot hu
    refine ⟨P, u, hr, hcur, hone, htwo, htree, hfree, fun hspares => ?_⟩
    obtain ⟨-, hleaf⟩ := freePte_leaf htree hu
    have hsame := hspares 2 (slotBase 2) hslot (by decide) ⟨Nat.le_refl _, by decide⟩
    rw [hleaf, if_pos ⟨rfl, hpres⟩] at hsame
    rw [← hsame] at hpres
    cases hpres

end Linux001.Mm
