import Linux001.Mm.CopyMem
import Linux001.Trap.Stubs

/-! `put_page` as an operation on a map from addresses to entries, and the `page_fault` entry of
`mm/page.nasm`, which gives the address and the error code to its C functions in the other order. -/

namespace Linux001.Mm

open Function ProofKit

variable {s s' s1 : Memory} {a b t page : Nat} {q : List (Fin 512)} {w : Word} {n : Nat}
  {l : List (Fin 512)} {e : Trap.Routines} {c : Trap.Cpu}

/-- The entry that `get_pte(b, 0)` finds, if it is present. -/
def Memory.found (s : Memory) (b : Nat) : Option Word :=
  match (getPte s b false).1 with
  | some (t, i) => if present (s.mem t i) then some (s.mem t i) else none
  | none => none

theorem found_eq_lookup (s : Memory) (b : Nat) : s.found b = s.lookup b := by
  rw [Memory.found, getPte_find, Memory.lookup]
  cases ht : s.tableAt (path b) with
  | none =>
    rw [leaf_of_none ht]
    rfl
  | some t =>
    rw [leaf_of_table ht]
    rfl

theorem lookup_setPte (h : s.Tree) (ht : s.tableAt (path a) = some t) (hw : present w = true) :
    (s.store t (ptIndex a) w).lookup b = if pageNr b = pageNr a then some w else s.lookup b := by
  rw [Memory.lookup, leaf_setPte_pageNr h ht]
  by_cases hb : pageNr b = pageNr a
  · rw [if_pos hb, if_pos hb, if_pos hw]
  · rw [if_neg hb, if_neg hb, Memory.lookup]

/-- `put_page` maps a page at one address only, or returns 0. -/
theorem putPage_map {r : Option Nat} (h : Wf s) (hpage : page ≠ 0)
    (hput : putPage s page a = (r, s')) :
    Wf s' ∧ (r = some page ∨ r = none) ∧
      (r = some page → ∀ b, s'.found b = if pageNr b = pageNr a then some (entry page)
        else s.found b) ∧
      (r = none → ∀ b, s'.found b = s.found b) := by
  simp only [found_eq_lookup]
  unfold putPage at hput
  cases hc : getPte s a true with
  | mk x u =>
    obtain ⟨hwf, hext, htable⟩ := getPte_create h hc
    rw [hc] at hput
    cases x with
    | none =>
      cases hput
      exact ⟨hwf, .inr rfl, by rintro ⟨⟩, fun _ b => lookup_congr (hext.leaf b)⟩
    | some ti =>
      obtain ⟨t, i⟩ := ti
      obtain ⟨ht, rfl⟩ := htable t i rfl
      rw [pointer, if_neg hpage] at hput
      cases hput
      refine ⟨hwf.setPte ht _, .inl rfl, fun _ b => ?_, by rintro ⟨⟩⟩
      rw [lookup_setPte hwf.tree ht (present_entry page), lookup_congr (hext.leaf b)]

/-- A page of its own at the start of slot 1. -/
theorem putPage_map_boot :
    Wf bootMemory ∧ ∃ s', putPage bootMemory 0x200000 (slotBase 1) = (some 0x200000, s') ∧
      Wf s' ∧ s'.found (slotBase 1 + 5) = some (entry 0x200000) ∧
      s'.found 0x1000 = bootMemory.found 0x1000 := by
  have hput : (putPage bootMemory 0x200000 (slotBase 1)).1 = some 0x200000 := by decide +kernel
  obtain ⟨hwf, -, hmap, -⟩ := putPage_map bootMemory_booted.wf (by decide)
    (Prod.ext hput rfl : putPage bootMemory 0x200000 (slotBase 1) = (some 0x200000, _))
  refine ⟨bootMemory_booted.wf, _, Prod.ext hput rfl, hwf, ?_, ?_⟩
  · rw [hmap rfl, if_pos (by decide)]
  · rw [hmap rfl, if_neg (by decide)]

def Free (s : Memory) (f : Nat) : Prop := ∃ k < pagingPages, f = lowMem + k * 4096 ∧ s.memMap k = 0

def freePages (s : Memory) : Nat := ((Finset.range pagingPages).filter fun k => s.memMap k = 0).card

theorem findFree_eq_none_iff {memMap : Nat → UInt16} :
    findFree memMap n = none ↔ ∀ k < n, memMap k ≠ 0 := by
  induction n with
  | zero => exact iff_of_true rfl fun k hk => absurd hk (Nat.not_lt_zero k)
  | succ n ih =>
    unfold findFree
    by_cases hn : memMap n = 0
    · rw [if_pos hn]
      exact iff_of_false (Option.some_ne_none n) fun h => h n (Nat.lt_succ_self n) hn
    rw [if_neg hn, ih]
    constructor
    · intro h k hk
      rcases Nat.lt_succ_iff_lt_or_eq.mp hk with hlt | rfl
      · exact h k hlt
      · exact hn
    · exact fun h k hk => h k (Nat.lt_succ_of_lt hk)

theorem getFreePage_eq_none_iff : getFreePage s = none ↔ freePages s = 0 := by
  rw [getFreePage, Option.map_eq_none_iff, findFree_eq_none_iff, freePages, Finset.card_eq_zero,
    Finset.filter_eq_empty_iff]
  simp only [Finset.mem_range]

theorem freePages_congr (h : s'.memMap = s.memMap) : freePages s' = freePages s := by
  rw [freePages, freePages, h]

theorem freePages_update {k : Nat} {c : UInt16} (hk : k < pagingPages) (hfree : s.memMap k = 0)
    (hc : c ≠ 0) (hmap : s'.memMap = update s.memMap k c) : freePages s = freePages s' + 1 := by
  have hmem : k ∈ (Finset.range pagingPages).filter fun j => s.memMap j = 0 :=
    Finset.mem_filter.mpr ⟨Finset.mem_range.mpr hk, hfree⟩
  have herase : ((Finset.range pagingPages).filter fun j => s'.memMap j = 0) =
      ((Finset.range pagingPages).filter fun j => s.memMap j = 0).erase k := by
    ext j
    rw [Finset.mem_erase, Finset.mem_filter, Finset.mem_filter, hmap]
    by_cases hj : j = k
    · simp [hj, hc]
    · simp [hj]
  rw [freePages, freePages, herase, Finset.card_erase_add_one hmem]

theorem freePages_getFreePage (h : getFreePage s = some (page, s')) :
    freePages s = freePages s' + 1 := by
  obtain ⟨k, hk, hfree, rfl, rfl⟩ := getFreePage_spec h
  exact freePages_update hk hfree (by decide) rfl

/-- The tables that a walk from `t` has to make, `none` at a null pointer. -/
def missingFrom (s : Memory) : (t : Nat) → (l : List (Fin 512)) → Option Nat
  | _, [] => some 0
  | t, i :: l =>
    if present (s.mem t i) then (pointer (pteAddr (s.mem t i))).bind fun u => missingFrom s u l
    else some (l.length + 1)

def missing (s : Memory) (a : Nat) : Option Nat := missingFrom s pml4Addr (path a).reverse

def makeTables (s : Memory) (t : Nat) : (l : List (Fin 512)) → Option Nat × Memory
  | [] => (some t, s)
  | i :: l =>
    match nextTable s t i true with
    | (none, s) => (none, s)
    | (some u, s) => makeTables s u l

theorem getPt_eq_makeTables (s : Memory) (a : Nat) :
    getPt s a true = makeTables s pml4Addr (path a).reverse := by
  simp only [getPt, getPd, getPdpt, path, List.reverse_cons, List.reverse_nil, List.nil_append,
    List.cons_append, makeTables]
  cases nextTable s pml4Addr (pml4Index a) true with
  | mk r s1 =>
    cases r with
    | none => rfl
    | some pdpt =>
      dsimp only
      cases nextTable s1 pdpt (pdptIndex a) true with
      | mk r s2 =>
        cases r with
        | none => rfl
        | some pd =>
          dsimp only
          cases nextTable s2 pd (pdIndex a) true with
          | mk r s3 => cases r <;> rfl

theorem missingFrom_of_zero (h : ∀ j, s.mem t j = 0) (l : List (Fin 512)) :
    missingFrom s t l = some l.length := by
  cases l with
  | nil => rfl
  | cons i l =>
    rw [missingFrom, h i]
    rfl

section
variable (h : Wf s)
include h

theorem makeTables_isSome_iff (ht : s.tableAt q = some t) (hlen : q.length + l.length ≤ 3) :
    (makeTables s t l).1.isSome ↔ ∃ n, missingFrom s t l = some n ∧ n ≤ freePages s := by
  induction l generalizing s t q with
  | nil => exact iff_of_true rfl ⟨0, rfl, Nat.zero_le _⟩
  | cons i l ih =>
    have hq : q.length < 3 := by
      rw [List.length_cons] at hlen
      omega
    have hlen' : (i :: q).length + l.length ≤ 3 := by
      rw [List.length_cons] at hlen ⊢
      omega
    unfold makeTables missingFrom nextTable
    simp only [Bool.not_true, Bool.false_eq_true, if_false]
    by_cases hpres : present (s.mem t i) = true
    · rw [if_pos hpres, if_pos hpres]
      cases hu : pointer (pteAddr (s.mem t i)) with
      | none => exact iff_of_false Bool.false_ne_true (by rintro ⟨n, hn, -⟩; cases hn)
      | some u =>
        refine ih h ?_ hlen'
        rw [tableAt_cons ht, child, if_pos hpres, hu]
    · rw [if_neg hpres, if_neg hpres]
      cases hfree : getFreePage s with
      | none =>
        have hzero := getFreePage_eq_none_iff.mp hfree
        refine iff_of_false Bool.false_ne_true ?_
        rintro ⟨n, hn, hle⟩
        cases hn
        omega
      | some x =>
        obtain ⟨page, s1⟩ := x
        obtain ⟨hwf, -, hpage⟩ := link_table h hq ht hpres hfree
        have hl := links_newTable h hq ht hpres hfree
        have hcount := freePages_getFreePage hfree
        obtain ⟨k, -, -, rfl, rfl⟩ := getFreePage_spec hfree
        -- the new table is empty
        have hzero : ∀ j, ((((s.setCount k 1).setPage (lowMem + k * 4096) fun _ => 0).store t i
            (entry (lowMem + k * 4096))).mem (lowMem + k * 4096)) j = 0 := by
          intro j
          simp [hl.parent_ne.symm]
        rw [ih hwf hpage hlen', missingFrom_of_zero hzero, freePages_congr (Memory.store_memMap ..),
          hcount]
        simp

theorem getPte_isSome_iff :
    (getPte s a true).1.isSome ↔ ∃ n, missing s a = some n ∧ n ≤ freePages s := by
  have hmake := makeTables_isSome_iff (q := []) (l := (path a).reverse) h rfl (by simp [path])
  rw [← getPt_eq_makeTables] at hmake
  rw [missing, ← hmake, getPte]
  cases getPt s a true with
  | mk r u => cases r <;> rfl

theorem missingFrom_getFreePage (hs : getFreePage s = some (page, s1))
    (ht : s.tableAt q = some t) (hlen : q.length + l.length ≤ 3) :
    missingFrom s1 t l = missingFrom s t l := by
  induction l generalizing t q with
  | nil => rfl
  | cons i l ih =>
    have hmem : s1.mem t = s.mem t := by
      have hne : t ≠ page := by
        rintro rfl
        exact (h.alloc hs).2.1 ⟨q, by omega, ht⟩
      obtain ⟨k, -, -, rfl, rfl⟩ := getFreePage_spec hs
      simp [hne]
    rw [missingFrom, missingFrom, hmem]
    by_cases hpres : present (s.mem t i) = true
    · rw [if_pos hpres, if_pos hpres]
      cases hu : pointer (pteAddr (s.mem t i)) with
      | none => rfl
      | some u =>
        refine ih (q := i :: q) ?_ ?_
        · rw [tableAt_cons ht, child, if_pos hpres, hu]
        · rw [List.length_cons] at hlen ⊢
          omega
    · rw [if_neg hpres, if_neg hpres]

theorem missing_getFreePage (hs : getFreePage s = some (page, s1)) :
    missing s1 a = missing s a :=
  missingFrom_getFreePage (q := []) h hs rfl (by simp [path])

theorem doNoPage_serves (hmissing : missing s a = some n) (henough : n + 1 ≤ freePages s) :
    ∃ s' page, doNoPage s a = .ret s' ∧ Free s page ∧ pteAddr (entry page) = page ∧
      (∀ b, s'.lookup b = if pageNr b = pageNr a then some (entry page) else s.lookup b) ∧
      ∀ j, s'.mem page j = 0 := by
  cases hg : getFreePage s with
  | none =>
    have := getFreePage_eq_none_iff.mp hg
    omega
  | some x =>
    obtain ⟨page, s1⟩ := x
    obtain ⟨hwf1, hnt, hwalk, hleaf⟩ := h.alloc hg
    have hcount := freePages_getFreePage hg
    have hsome : (getPte s1 a true).1.isSome := by
      rw [getPte_isSome_iff hwf1, missing_getFreePage h hg]
      exact ⟨n, hmissing, by omega⟩
    cases hc : getPte s1 a true with
    | mk r s2 =>
      rw [hc] at hsome
      obtain ⟨⟨t, i⟩, rfl⟩ := Option.isSome_iff_exists.mp hsome
      obtain ⟨hwf2, hext, htable⟩ := getPte_create hwf1 hc
      obtain ⟨ht, rfl⟩ := htable t i rfl
      obtain ⟨k, hk, hfree, rfl, rfl⟩ := getFreePage_spec hg
      -- the page is in use before the tables are made
      have hnt2 : ¬s2.IsTable (lowMem + k * 4096) := by
        intro htab
        obtain ⟨j, -, hj, hzero, -⟩ := hext.fresh _ htab fun htab =>
          hnt ((isTable_congr hwalk _).mp htab)
        obtain rfl : k = j := by omega
        simp at hzero
      have hne : lowMem + k * 4096 ≠ t := fun heq => hnt2 (heq ▸ isTable_of_path ht)
      refine ⟨s2.store t (ptIndex a) (entry (lowMem + k * 4096)), lowMem + k * 4096, ?_,
        ⟨k, hk, rfl, hfree⟩, pteAddr_entry_page hk, fun b => ?_, fun j => ?_⟩
      · rw [doNoPage, hg]
        dsimp only
        rw [putPage, hc]
        rw [pointer, if_neg (by unfold lowMem; omega)]
      · rw [lookup_setPte hwf2.tree ht (present_entry _), lookup_congr (hext.leaf b),
          lookup_congr (hleaf b)]
      · rw [Memory.store_mem, update_of_ne hne, hext.mem _ hnt2]
        simp

theorem leaf_replaced {c : Memory} {words : Fin 512 → Word} (hg : getFreePage s = some (page, s1))
    (hc : c.mem = s1.mem) (ht : s.tableAt (path a) = some t) (b : Nat) :
    ((c.store t (ptIndex a) (entry page)).setPage page words).leaf b =
      if pageNr b = pageNr a then entry page else s.leaf b := by
  obtain ⟨hwf, hnt, hwalk, hleaf⟩ := h.alloc hg
  have htree : c.Tree := by
    unfold Memory.Tree
    rw [hc]
    exact hwf.tree
  have htc : c.tableAt (path a) = some t := by
    rw [← ht, ← hwalk _ (by simp [path]), Memory.tableAt, Memory.tableAt, hc]
  have hntc : ¬(c.store t (ptIndex a) (entry page)).IsTable page := by
    rw [Memory.IsTable, isTable_congr (tableAt_setPte htree htc _), hc]
    exact fun htab => hnt ((isTable_congr hwalk _).mp htab)
  rw [leaf_setPage hntc, leaf_setPte_pageNr htree htc, leaf_of_mem hc, hleaf]

theorem unWpPage_leaf (ht : s.tableAt (path a) = some t) (hb : pageNr b ≠ pageNr a) :
    (unWpPage s t (ptIndex a)).state.leaf b = s.leaf b := by
  unfold unWpPage
  dsimp only
  split
  · exact (leaf_setPte_pageNr h.tree ht _ b).trans (if_neg hb)
  cases hg : getFreePage s with
  | none => rfl
  | some x =>
    dsimp only
    split
    · exact (leaf_replaced h hg rfl ht b).trans (if_neg hb)
    · exact (leaf_replaced h hg rfl ht b).trans (if_neg hb)

theorem doWpPage_leaf (hb : pageNr b ≠ pageNr a) :
    (doWpPage s a).state.leaf b = s.leaf b := by
  rw [doWpPage, getPte_find]
  cases ht : s.tableAt (path a) with
  | none => rfl
  | some t => exact unWpPage_leaf h ht hb

theorem unWpPage_serves (ht : s.tableAt (path a) = some t)
    (hpres : present (s.leaf a) = true) (hnt : ¬s.IsTable (pteAddr (s.leaf a)))
    (hused : ¬Free s (pteAddr (s.leaf a))) (henough : 0 < freePages s) :
    ∃ s', unWpPage s t (ptIndex a) = .ret s' ∧ present (s'.leaf a) = true ∧
      writable (s'.leaf a) = true ∧ s'.mem (pteAddr (s'.leaf a)) = s.mem (pteAddr (s.leaf a)) := by
  have hne : pteAddr (s.leaf a) ≠ t := fun heq => hnt (heq ▸ isTable_of_path ht)
  unfold unWpPage
  dsimp only
  rw [← leaf_of_table ht]
  split
  · have hleaf : (s.store t (ptIndex a) (s.leaf a ||| pageWrite)).leaf a = s.leaf a ||| pageWrite :=
      (leaf_setPte_pageNr h.tree ht _ a).trans (if_pos rfl)
    refine ⟨_, rfl, ?_, ?_, ?_⟩
    · rw [hleaf, present_set, hpres]
    · rw [hleaf, writable_set]
    · rw [hleaf, pteAddr_set, Memory.store_mem, update_of_ne hne]
  · cases hg : getFreePage s with
    | none =>
      rw [getFreePage_eq_none_iff] at hg
      omega
    | some x =>
      obtain ⟨page, s1⟩ := x
      have hpage : pteAddr (entry page) = page ∧ pteAddr (s.leaf a) ≠ page ∧
          s1.mem (pteAddr (s.leaf a)) = s.mem (pteAddr (s.leaf a)) := by
        obtain ⟨k, hk, hfree, rfl, rfl⟩ := getFreePage_spec hg
        have hframe : pteAddr (s.leaf a) ≠ lowMem + k * 4096 := fun heq => hused ⟨k, hk, heq, hfree⟩
        exact ⟨pteAddr_entry_page hk, hframe, update_of_ne hframe _ _⟩
      -- what the store and the copy leave, whatever the count of the old page
      have hcopy : ∀ c : Memory, c.mem = s1.mem →
          let s' := (c.store t (ptIndex a) (entry page)).setPage page
            ((c.store t (ptIndex a) (entry page)).mem (pteAddr (s.leaf a)))
          present (s'.leaf a) = true ∧ writable (s'.leaf a) = true ∧
            s'.mem (pteAddr (s'.leaf a)) = s.mem (pteAddr (s.leaf a)) := by
        intro c hc
        dsimp only
        rw [leaf_replaced h hg hc ht a, if_pos rfl, hpage.1]
        refine ⟨present_entry page, writable_entry page, ?_⟩
        rw [Memory.setPage_mem, update_self, Memory.store_mem, update_of_ne hne, hc, hpage.2.2]
      dsimp only
      split
      · exact ⟨_, rfl, hcopy _ rfl⟩
      · exact ⟨_, rfl, hcopy _ rfl⟩

end

/-- `page_fault`, which calls `do_no_page(error_code, address)`. -/
def pageFault (e : Trap.Routines) (c : Trap.Cpu) (s : Memory) : Outcome :=
  let c := Trap.Cpu.run e Trap.pageFaultEntry c
  if c.reg .rsi &&& 1 = 0 then doNoPage s (c.reg .rsi).toNat else doWpPage s (c.reg .rsi).toNat

def errorCode (c : Trap.Cpu) : Word := c.mem.load c.rsp

def notPresent (code : Word) : Bool := code &&& 1 == 0

theorem pageFault_eq (e : Trap.Routines) (c : Trap.Cpu) (s : Memory) :
    pageFault e c s = if notPresent (errorCode c) then doNoPage s (errorCode c).toNat
      else doWpPage s (errorCode c).toNat := by
  rw [pageFault, (Trap.pageFaultEntry_args e c).2]
  simp [notPresent, errorCode]

/-- The page tables at a fault for `a` with the error code `code`. -/
structure Faulted (s : Memory) (a : Nat) (code : Word) : Prop where
  wf : Wf s
  absent : notPresent code = true →
    s.lookup a = none ∧ ∃ n, missing s a = some n ∧ n + 1 ≤ freePages s
  guarded : notPresent code = false →
    ∃ e, s.lookup a = some e ∧ writable e = false ∧ e &&& pageUser ≠ 0 ∧ ¬s.IsTable (pteAddr e) ∧
      ¬Free s (pteAddr e) ∧ 0 < freePages s

structure Served (s s' : Memory) (a : Nat) (code : Word) : Prop where
  absent : notPresent code = true →
    ∃ e, s'.lookup a = some e ∧ writable e = true ∧ Free s (pteAddr e) ∧
    ∀ j, s'.mem (pteAddr e) j = 0
  guarded : notPresent code = false →
    ∃ e e', s.lookup a = some e ∧ s'.lookup a = some e' ∧ writable e' = true ∧
      s'.mem (pteAddr e') = s.mem (pteAddr e)
  others : ∀ b, pageNr b ≠ pageNr a → s'.lookup b = s.lookup b

theorem getPte_pageNr (s : Memory) {create : Bool} (h : pageNr a = pageNr b) :
    getPte s a create = getPte s b create := by
  obtain ⟨hpath, hindex⟩ := (samePage_iff_pageNr b a).mpr h
  simp only [path, List.cons.injEq, and_true] at hpath
  rw [getPte, getPte, getPt, getPt, getPd, getPd, getPdpt, getPdpt, hpath.1, hpath.2.1, hpath.2.2,
    hindex]

theorem doNoPage_pageNr (s : Memory) (h : pageNr a = pageNr b) : doNoPage s a = doNoPage s b := by
  simp only [doNoPage, putPage, getPte_pageNr _ h]

theorem doWpPage_pageNr (s : Memory) (h : pageNr a = pageNr b) : doWpPage s a = doWpPage s b := by
  rw [doWpPage, doWpPage, getPte_pageNr s h]

theorem pageFault_serves
    (h : Faulted s a (errorCode c)) (hpage : pageNr a = pageNr (errorCode c).toNat) :
    ∃ s', pageFault e c s = .ret s' ∧ Served s s' a (errorCode c) := by
  rw [pageFault_eq]
  cases hcode : notPresent (errorCode c) with
  | true =>
    obtain ⟨-, n, hmissing, henough⟩ := h.absent hcode
    obtain ⟨s', page, hret, hfree, haddr, hlookup, hzero⟩ := doNoPage_serves h.wf hmissing henough
    refine ⟨s', ?_, fun _ => ?_, fun hfalse => ?_, fun b hb => ?_⟩
    · rw [if_pos rfl, ← doNoPage_pageNr s hpage, hret]
    · refine ⟨entry page, (hlookup a).trans (if_pos rfl), writable_entry page, ?_, ?_⟩
      · rwa [haddr]
      · rwa [haddr]
    · cases hcode.symm.trans hfalse
    · rw [hlookup, if_neg hb]
  | false =>
    obtain ⟨w, hl, -, -, hnt, hused, henough⟩ := h.guarded hcode
    obtain ⟨hpres, rfl⟩ := present_of_lookup hl
    obtain ⟨t, ht⟩ := table_of_present hpres
    obtain ⟨s', hret, hpres', hwrite, hmem⟩ := unWpPage_serves h.wf ht hpres hnt hused henough
    have hdo : doWpPage s a = .ret s' := by
      rw [doWpPage, getPte_find, ht]
      exact hret
    refine ⟨s', ?_, fun htrue => ?_, fun _ => ?_, fun b hb => ?_⟩
    · rw [if_neg Bool.false_ne_true, ← doWpPage_pageNr s hpage, hdo]
    · cases hcode.symm.trans htrue
    · exact ⟨_, s'.leaf a, hl, lookup_eq_some_iff.mpr ⟨rfl, hpres'⟩, hwrite, hmem⟩
    · have hleaf := doWpPage_leaf h.wf hb
      rw [hdo] at hleaf
      exact lookup_congr hleaf

theorem pageFault_leaf (h : Wf s)
    (hpage : pageNr a ≠ pageNr (errorCode c).toNat) :
    (pageFault e c s).state.leaf a = s.leaf a := by
  rw [pageFault_eq]
  split
  · exact doNoPage_leaf h hpage
  · exact doWpPage_leaf h hpage

/-- A fault is served exactly if its address is on the page of the error code. -/
theorem pageFault_served_iff {e : Trap.Routines} {c : Trap.Cpu}
    (h : Faulted s c.cr2.toNat (errorCode c)) :
    (∃ s', pageFault e c s = .ret s' ∧ Served s s' c.cr2.toNat (errorCode c)) ↔
      pageNr c.cr2.toNat = pageNr (errorCode c).toNat := by
  refine ⟨?_, pageFault_serves h⟩
  rintro ⟨s', hret, hserved⟩
  by_contra hpage
  have hleaf : s'.leaf c.cr2.toNat = s.leaf c.cr2.toNat := by
    have := pageFault_leaf (e := e) h.wf hpage
    rwa [hret] at this
  have hlookup : s'.lookup c.cr2.toNat = s.lookup c.cr2.toNat := lookup_congr hleaf
  cases hcode : notPresent (errorCode c) with
  | true =>
    obtain ⟨w, hw, -⟩ := hserved.absent hcode
    rw [hlookup, (h.absent hcode).1] at hw
    cases hw
  | false =>
    obtain ⟨-, w, -, hw, hwrite, -⟩ := hserved.guarded hcode
    obtain ⟨v, hv, hread, -⟩ := h.guarded hcode
    rw [hlookup, hv] at hw
    cases hw
    rw [hread] at hwrite
    cases hwrite

/-- A processor that has a page fault, with the error code on its stack. -/
def faultAt (address code : Word) : Trap.Cpu :=
  { Trap.stackAt 0x8000 with cr2 := address, mem := Memory64.store (fun _ => 0) 0x8000 code }

theorem errorCode_faultAt (address code : Word) : errorCode (faultAt address code) = code :=
  Memory64.load_store _ 0x8000 code

theorem freePages_bootMemory : freePages bootMemory = pagingPages := by
  simp [freePages, bootMemory]

theorem bootMemory_faulted {code : Word} (hcode : notPresent code = true) :
    Faulted bootMemory 0x4000005 code where
  wf := bootMemory_booted.wf
  absent _ := ⟨by decide +kernel, 1, by decide +kernel, by rw [freePages_bootMemory]; decide⟩
  guarded hfalse := by cases hcode.symm.trans hfalse

/-- A fault on the page that the error code stands for. -/
theorem pageFault_served_samePage :
    Faulted bootMemory (faultAt 0x4000005 0x4000000).cr2.toNat
        (errorCode (faultAt 0x4000005 0x4000000)) ∧
      ∃ s', pageFault Trap.returning (faultAt 0x4000005 0x4000000) bootMemory = .ret s' ∧
        Served bootMemory s' 0x4000005 0x4000000 := by
  have hcode := errorCode_faultAt 0x4000005 0x4000000
  have hfault : Faulted bootMemory (faultAt 0x4000005 0x4000000).cr2.toNat
      (errorCode (faultAt 0x4000005 0x4000000)) := by
    exact bootMemory_faulted (by decide)
  obtain ⟨s', hret, hserved⟩ := (pageFault_served_iff (e := Trap.returning) hfault).mpr (by
    decide)
  exact ⟨hfault, s', hret, hserved⟩

/-- The first read of slot 1: the page of the error code 4 is replaced. -/
theorem pageFault_serves_errorCode :
    Faulted bootMemory (faultAt 0x4000005 4).cr2.toNat (errorCode (faultAt 0x4000005 4)) ∧
      (pageFault Trap.returning (faultAt 0x4000005 4) bootMemory).state.lookup 0x4000005 = none ∧
      (pageFault Trap.returning (faultAt 0x4000005 4) bootMemory).state.lookup 4 ≠
        bootMemory.lookup 4 := by
  have hcode := errorCode_faultAt 0x4000005 4
  refine ⟨bootMemory_faulted (by decide), ?_, ?_⟩
  · decide +kernel
  · decide +kernel

end Linux001.Mm
