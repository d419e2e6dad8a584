import Linux001.Mm.Leaks

/-! The indices of `mem_map`. `free_page` accepts the address `HIGH_MEMORY`, whose index is the
length of `mem_map`, and the others test no upper bound; but user slots map pages of the paging
memory only. -/

namespace Linux001.Mm

open Function ProofKit

variable {s s' : Memory} {got : List Nat} {p q t page a n : Nat} {c : Call}

/-- `MAP_NR`, where the difference of two `unsigned long` wraps. -/
def mapNr64 (addr : Nat) : Nat := ((BitVec.ofNat 64 addr - BitVec.ofNat 64 lowMem) >>> 12).toNat

def freePageIndices (addr : Nat) : List Nat :=
  if addr < lowMem then [] else if highMemory < addr then [] else [mapNr64 addr]

def freePteIndices (s : Memory) (addr : Nat) : List Nat :=
  match getPte s addr false with
  | (none, _) => []
  | (some (t, i), s) =>
    if !present (s.mem t i) then []
    else if lowMem ≤ pteAddr (s.mem t i) then freePageIndices (pteAddr (s.mem t i)) else []

def freeLoopIndices : Nat → Memory → Nat → List Nat
  | 0, _, _ => []
  | n + 1, s, addr => freePteIndices s addr ++
    match freePte s addr with
    | .error _ => []
    | .ok s => freeLoopIndices n s (addr + 0x1000)

def freePageTablesIndices (s : Memory) (start size : Nat) : List Nat :=
  if start % 0x200000 ≠ 0 then [] else if start = 0 then []
  else if 2 ^ 64 ≤ start + roundUp size then []
  else freeLoopIndices (roundUp size / 0x1000) s start

def copyPteIndices (s : Memory) (src dst : Nat) : List Nat :=
  match getPte s src false with
  | (none, _) => []
  | (some (ft, fi), s) =>
    if !present (s.mem ft fi) then []
    else
      match getPte s dst true with
      | (none, _) => []
      | (some _, s) =>
        let phys := pteAddr (s.mem ft fi &&& ~~~pageWrite)
        if lowMem ≤ phys then [mapNr64 phys] else []

def copyLoopIndices : Nat → Memory → Nat → Nat → List Nat
  | 0, _, _, _ => []
  | n + 1, s, src, dst => copyPteIndices s src dst ++
    match copyPte s src dst with
    | (false, _) => []
    | (true, s) => copyLoopIndices n s (src + 0x1000) (dst + 0x1000)

def copyPageTablesIndices (s : Memory) (src dst size : Nat) : List Nat :=
  if src % 0x200000 ≠ 0 ∨ dst % 0x200000 ≠ 0 then []
  else copyLoopIndices (roundUp size / 0x1000) s src dst

def putPageIndices (page : Nat) : List Nat := [mapNr64 page]

def unWpPageIndices (s : Memory) (t : Nat) (i : Fin 512) : List Nat :=
  let oldPage := pteAddr (s.mem t i)
  if lowMem ≤ oldPage then [mapNr64 oldPage] else []

def doWpPageIndices (s : Memory) (address : Nat) : List Nat :=
  match getPte s address false with
  | (none, _) => []
  | (some (t, i), s) => unWpPageIndices s t i

def writeVerifyIndices (s : Memory) (address : Nat) : List Nat :=
  match getPte s address false with
  | (none, _) => []
  | (some (t, i), s) =>
    if s.mem t i &&& (pagePresent ||| pageWrite) = pagePresent then unWpPageIndices s t i else []

def doNoPageIndices (s : Memory) : List Nat :=
  match getFreePage s with
  | none => []
  | some (page, _) => putPageIndices page

def Call.indices (x : State) : Call → List Nat
  | .mm .getFreePage => []
  | .mm (.putPage page _) => putPageIndices page
  | .mm (.doNoPage _) => doNoPageIndices x.mm
  | .mm (.doWpPage a) => doWpPageIndices x.mm a
  | .mm (.writeVerify a) => writeVerifyIndices x.mm a
  | .mm (.copyPageTables src dst size) =>
    copyPageTablesIndices x.mm (slotBase src) (slotBase dst) size
  | .mm (.freePageTables nr size) => freePageTablesIndices x.mm (slotBase nr) size
  | .freePage page => freePageIndices page

def InBounds (l : List Nat) : Prop := ∀ i ∈ l, i < pagingPages

theorem InBounds.nil : InBounds [] := nofun

theorem InBounds.append {l l' : List Nat} (h : InBounds l) (h' : InBounds l') :
    InBounds (l ++ l') := fun i hi => (List.mem_append.mp hi).elim (h i) (h' i)

theorem mapNr64_lt (hlow : lowMem ≤ a) (hhigh : a < highMemory) : mapNr64 a < pagingPages := by
  unfold lowMem at hlow
  unfold highMemory at hhigh
  rw [mapNr64, show lowMem = 0x200000 from rfl, show pagingPages = 1536 from rfl]
  rw [BitVec.toNat_ushiftRight, Nat.shiftRight_eq_div_pow, BitVec.toNat_sub]
  simp only [BitVec.toNat_ofNat]
  omega

theorem inBounds_mapNr64 (hlow : lowMem ≤ a) (hhigh : a < highMemory) : InBounds [mapNr64 a] := by
  intro i hi
  rw [List.mem_singleton.mp hi]
  exact mapNr64_lt hlow hhigh

theorem inBounds_freePage (hhigh : a < highMemory) : InBounds (freePageIndices a) := by
  unfold freePageIndices
  split
  · exact .nil
  · rename_i hlow
    split
    · exact .nil
    · exact inBounds_mapNr64 (Nat.not_lt.mp hlow) hhigh

section
variable (h : Inv s got)
include h

theorem inBounds_freePte (hp : p ∈ userPages) :
    InBounds (freePteIndices s (4096 * p)) := by
  rw [freePteIndices, getPte_find]
  cases ht : s.tableAt (path (4096 * p)) with
  | none => exact .nil
  | some t =>
    dsimp only [Option.map_some]
    split
    · exact .nil
    · rename_i hpres
      have hl := lookup_of_present ht (by simpa using hpres)
      split
      · exact inBounds_freePage (h.range p hp _ hl).2
      · exact .nil

theorem inBounds_freeLoop (hp : ∀ k < n, p + k ∈ userPages) :
    InBounds (freeLoopIndices n s (4096 * p)) := by
  induction n generalizing s p with
  | zero => exact .nil
  | succ n ih =>
    have hp0 : p ∈ userPages := hp 0 (Nat.succ_pos n)
    obtain ⟨s1, hs1, h1, -⟩ := freePte_spec h hp0
    rw [freeLoopIndices, hs1]
    refine (inBounds_freePte h hp0).append (ih (p := p + 1) h1 fun k hk => ?_)
    have := hp (k + 1) (by omega)
    rwa [show p + 1 + k = p + (k + 1) by omega]

theorem inBounds_copyPte (hp : p ∈ userPages) :
    InBounds (copyPteIndices s (4096 * p) a) := by
  rw [copyPteIndices, getPte_find]
  cases ht : s.tableAt (path (4096 * p)) with
  | none => exact .nil
  | some t =>
    dsimp only [Option.map_some]
    split
    · exact .nil
    rename_i hpres
    have hl := lookup_of_present ht (by simpa using hpres)
    cases hc : getPte s a true with
    | mk r s1 =>
      obtain ⟨-, hext, -⟩ := getPte_create h.wf hc
      cases r with
      | none => exact .nil
      | some x =>
        have ht1 := hext.path _ _ (by simp [path]) ht
        have hsame : s1.mem t (ptIndex (4096 * p)) = s.mem t (ptIndex (4096 * p)) := by
          rw [← leaf_of_table ht1, ← leaf_of_table ht, hext.leaf]
        dsimp only
        rw [pteAddr_clear, hsame]
        obtain ⟨hlow, hhigh⟩ := h.range p hp _ hl
        rw [if_pos hlow]
        exact inBounds_mapNr64 hlow hhigh

theorem inBounds_copyLoop (hp : ∀ k < n, p + k ∈ userPages)
    (hq : ∀ k < n, q + k ∈ userPages) (hdisj : p + n ≤ q ∨ q + n ≤ p)
    (hnone : ∀ k < n, s.view (q + k) = none) (hcol : ∀ k < n, colour (q + k) = colour (p + k)) :
    InBounds (copyLoopIndices n s (4096 * p) (4096 * q)) := by
  induction n generalizing s p q with
  | zero => exact .nil
  | succ n ih =>
    obtain ⟨r1, s1, hs1, h1, hview1⟩ := copyPte_spec (p := p) (q := q) h (hp 0 (by omega))
      (hq 0 (by omega)) (hnone 0 (by omega)) (hcol 0 (by omega))
    rw [copyLoopIndices, hs1]
    refine (inBounds_copyPte h (hp 0 (by omega))).append ?_
    cases r1 with
    | false => exact .nil
    | true =>
      refine ih (p := p + 1) (q := q + 1) h1 (forall_next hp) (forall_next hq) (by omega)
        (fun k hk => ?_) (fun k hk => ?_)
      · rw [hview1 (forall_next hq k hk), if_pos rfl, shared, update_of_ne (by omega),
          update_of_ne (by omega)]
        exact forall_next (P := fun r => s.view r = none) hnone k hk
      · rw [Nat.add_right_comm, Nat.add_right_comm p]
        exact hcol (k + 1) (Nat.succ_lt_succ hk)

theorem inBounds_putPage (hpage : page ∈ got) : InBounds (putPageIndices page) := by
  obtain ⟨k, hk, rfl⟩ := h.taken page hpage
  exact inBounds_mapNr64 (Nat.le_add_right _ _) (page_lt hk)

theorem inBounds_doNoPage : InBounds (doNoPageIndices s) := by
  rw [doNoPageIndices]
  cases hg : getFreePage s with
  | none => exact .nil
  | some x => exact inBounds_putPage (h.alloc hg).1 List.mem_cons_self

theorem inBounds_unWpPage (hp : p ∈ userPages) (ht : s.tableAt (path (4096 * p)) = some t) :
    InBounds (unWpPageIndices s t (ptIndex (4096 * p))) := by
  unfold unWpPageIndices
  dsimp only
  split
  · rename_i hlow
    refine inBounds_mapNr64 hlow ?_
    cases hpres : present (s.mem t (ptIndex (4096 * p))) with
    | true => exact (h.range p hp _ (lookup_of_present ht hpres)).2
    | false =>
      -- an absent entry is 0
      have hzero := h.absent p hp (by rw [lookup_eq_none_iff, leaf_of_table ht, hpres])
      rw [← leaf_of_table ht, hzero]
      decide
  · exact .nil

theorem inBounds_doWpPage (hp : a / 4096 ∈ userPages) :
    InBounds (doWpPageIndices s a) := by
  rw [doWpPageIndices, getPte_page, getPte_find]
  cases ht : s.tableAt (path (4096 * (a / 4096))) with
  | none => exact .nil
  | some t => exact inBounds_unWpPage h hp ht

theorem inBounds_writeVerify (hp : a / 4096 ∈ userPages) :
    InBounds (writeVerifyIndices s a) := by
  rw [writeVerifyIndices, getPte_page, getPte_find]
  cases ht : s.tableAt (path (4096 * (a / 4096))) with
  | none => exact .nil
  | some t =>
    dsimp only [Option.map_some]
    split
    · exact inBounds_unWpPage h hp ht
    · exact .nil

end

theorem stepCall_inv {x y : State} (h : Inv x.mm x.got) (hlegal : c.Legal x)
    (hs : stepCall x c = some y) : Inv y.mm y.got := by
  cases c with
  | mm o => exact step_inv h hlegal hs
  | freePage page =>
    obtain ⟨m, hm, hinv⟩ := h.release hlegal fun g => mem_filter_ne
    rw [stepCall, hm] at hs
    cases hs
    exact hinv

theorem inBounds_of_legal {x : State} (h : Inv x.mm x.got) (hlegal : c.Legal x) :
    InBounds (c.indices x) := by
  cases c with
  | freePage page =>
    obtain ⟨k, hk, rfl⟩ := h.taken page hlegal
    exact inBounds_freePage (page_lt hk)
  | mm o =>
    cases o with
    | getFreePage => exact .nil
    | putPage page a => exact inBounds_putPage h hlegal.1
    | doNoPage a => exact inBounds_doNoPage h
    | doWpPage a => exact inBounds_doWpPage h hlegal
    | writeVerify a => exact inBounds_writeVerify h hlegal
    | copyPageTables src dst size =>
      obtain ⟨hsrc, hdst, hne, hsize, hempty⟩ := hlegal
      obtain ⟨hsbase, hle, hspages⟩ := slot_pages hsrc hsize
      obtain ⟨hdbase, -, hdpages⟩ := slot_pages hdst hsize
      rw [Call.indices, copyPageTablesIndices]
      split
      · exact .nil
      · rw [hsbase, hdbase]
        exact inBounds_copyLoop h hspages hdpages (by unfold slotPages at *; omega)
          (fun k hk => view_none_of_empty hempty k (by omega))
          (fun k hk => by unfold colour slotPages; omega)
    | freePageTables nr size =>
      obtain ⟨hbase, -, hpages⟩ := slot_pages hlegal.1 hlegal.2
      rw [Call.indices, freePageTablesIndices]
      split
      · exact .nil
      · split
        · exact .nil
        · split
          · exact .nil
          · rw [hbase]
            exact inBounds_freeLoop h hpages

/-- In every run from boot the indices are less than `PAGING_PAGES`. -/
theorem inBounds_of_reaches {m : Memory} {x : State} (hm : Booted m)
    (h : Reaches stepCall Call.Legal ⟨m, []⟩ x) (c : Call) (hlegal : c.Legal x) :
    InBounds (c.indices x) := by
  have hinv : Inv x.mm x.got :=
    h.invariant (P := fun x => Inv x.mm x.got)
      (fun _ _ _ hi hok hs => stepCall_inv hi hok hs) hm.inv
  exact inBounds_of_legal hinv hlegal

/-- The release of slot 1 after a page fault there. -/
theorem inBounds_of_reaches_fault : ∃ x, Reaches stepCall Call.Legal ⟨bootMemory, []⟩ x ∧
    InBounds ((Call.mm (.freePageTables 1 0x4000000)).indices x) := by
  have hrun : Reaches stepCall Call.Legal ⟨bootMemory, []⟩
      ⟨(doNoPage bootMemory (slotBase 1)).state, []⟩ :=
    .single ⟨.mm (.doNoPage (slotBase 1)), bootMemory_legal, rfl⟩
  exact ⟨_, hrun, inBounds_of_reaches bootMemory_booted hrun _ ⟨⟨by decide, by decide⟩, by decide⟩⟩

/-- `free_page(HIGH_MEMORY)` passes its tests, and `do_wp_page` has none. -/
theorem indices_outOfBounds :
    (Call.freePage highMemory).indices ⟨bootMemory, []⟩ = [pagingPages] ∧
      (Call.mm (.doWpPage 0x900000)).indices ⟨bootMemory, []⟩ = [1792] ∧
      ¬InBounds [pagingPages] ∧ ¬InBounds [1792] := by
  refine ⟨by decide +kernel, by decide +kernel, fun h => ?_, fun h => ?_⟩
  · exact Nat.lt_irrefl _ (h _ List.mem_cons_self)
  · exact absurd (h _ List.mem_cons_self) (by decide)

end Linux001.Mm
