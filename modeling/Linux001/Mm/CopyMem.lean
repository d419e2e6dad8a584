import Linux001.Mm.Reachable

/-! `copy_mem` of `kernel/fork.c`. The base that `copy_page_tables` gets is an `int` product, and
the base that the child has later is read off the bytes of its descriptors. -/

namespace Linux001.Mm

open Function ProofKit

theorem except_map_eq_ok {α β : Type} {f : α → β} {x : Except Panic α} {b : β} :
    x.map f = .ok b ↔ ∃ a, x = .ok a ∧ f a = b := by
  cases x <;> simp [Except.map]

theorem except_ok_bind {α β : Type} {f : α → Except Panic β} {a : α} :
    (Except.ok a).bind f = f a := rfl

theorem except_bind_eq_ok {α β : Type} {f : α → Except Panic β} {x : Except Panic α} {b : β} :
    x.bind f = .ok b ↔ ∃ a, x = .ok a ∧ f a = .ok b := by
  cases x <;> simp [Except.bind]

/-! ### Descriptors -/

abbrev Desc := Fin 8 → BitVec 8

def setBase (d : Desc) (base : BitVec 64) : Desc := fun k =>
  if k = 2 then base.setWidth 8
  else if k = 3 then (base >>> 8).setWidth 8
  else if k = 4 then (base >>> 16).setWidth 8
  else if k = 7 then (base >>> 24).setWidth 8
  else d k

def getBase (d : Desc) : BitVec 64 :=
  (d 3 ++ d 2).setWidth 64 ||| (d 4).setWidth 64 <<< 16 ||| (d 7).setWidth 64 <<< 24

abbrev Ldt := Fin 3 → Desc

def descriptor (a b : BitVec 32) : Desc := fun k =>
  if k.val < 4 then a.extractLsb' (8 * k.val) 8 else b.extractLsb' (8 * (k.val - 4)) 8

def initLdt : Ldt := fun k =>
  if k = 0 then descriptor 0 0
  else if k = 1 then descriptor 0xFFFF 0x00AFFA00
  else descriptor 0xFFFF 0x00CFF200

/-- `nr * 0x4000000`, an `int` that becomes an `unsigned long`. -/
def newBase (nr : Nat) : BitVec 64 := (BitVec.ofNat 32 nr * 0x4000000).signExtend 64

def rebase (p : Ldt) (base : BitVec 64) : Ldt :=
  update (update p 1 (setBase (p 1) base)) 2 (setBase (p 2) base)

/-- `copy_mem`, with the results of `get_limit`; `false` is `-ENOMEM`. -/
def copyMem (s : Memory) (codeLimit dataLimit : Nat) (current p : Ldt) (nr : Nat) :
    Except Panic (Bool × Ldt × Memory) :=
  let oldCodeBase := getBase (current 1)
  let oldDataBase := getBase (current 2)
  if oldDataBase ≠ oldCodeBase then .error .separateCodeAndData
  else if dataLimit < codeLimit then .error .badDataLimit
  else
    let base := newBase nr
    (copyPageTables s oldDataBase.toNat base.toNat dataLimit).bind fun (done, s) =>
      if done then .ok (true, rebase p base, s)
      else (freePageTables s base.toNat dataLimit).map fun s => (false, rebase p base, s)

theorem getBase_setBase (d : Desc) (base : BitVec 64) :
    getBase (setBase d base) = (base.setWidth 32).setWidth 64 := by
  apply BitVec.eq_of_getLsbD_eq
  intro i hi
  simp [getBase, setBase]
  grind

theorem toNat_newBase : ∀ nr < nrTasks,
    (newBase nr).toNat = if nr < 32 then slotBase nr else 2 ^ 64 - 2 ^ 32 + slotBase nr := by
  decide +kernel

theorem getBase_newBase (d : Desc) {nr : Nat} (hnr : nr < nrTasks) :
    (getBase (setBase d (newBase nr))).toNat = slotBase nr := by
  have hnr' : nr < 64 := hnr
  rw [getBase_setBase, BitVec.toNat_setWidth, BitVec.toNat_setWidth, toNat_newBase nr hnr]
  unfold slotBase
  split <;> omega

/-! ### The page of an address -/

/-- The number of the page of an address in the 48 bits that the page tables see. -/
def pageNr (a : Nat) : Nat := a / 4096 % 2 ^ 36

theorem samePage_iff_pageNr (a b : Nat) :
    path b = path a ∧ ptIndex b = ptIndex a ↔ pageNr b = pageNr a := by
  simp only [path, pml4Index, pdptIndex, pdIndex, ptIndex, List.cons.injEq, fin_ofNat_eq_iff,
    and_true, pageNr]
  omega

theorem pageNr_add (a k : Nat) : pageNr (a + 0x1000 * k) = (a / 4096 + k) % 2 ^ 36 := by
  unfold pageNr
  omega

theorem page_succ (a k : Nat) : a + 0x1000 + 0x1000 * k = a + 0x1000 * (k + 1) := by
  omega

def Covers (a n b : Nat) : Prop := ∃ k < n, pageNr b = pageNr (a + 0x1000 * k)

instance (a n b : Nat) : Decidable (Covers a n b) :=
  inferInstanceAs (Decidable (∃ k < n, pageNr b = pageNr (a + 0x1000 * k)))

theorem not_covers_zero {a b : Nat} : ¬Covers a 0 b := by
  rintro ⟨k, hk, -⟩
  exact Nat.not_lt_zero k hk

theorem covers_succ {a n b : Nat} :
    Covers a (n + 1) b ↔ pageNr b = pageNr a ∨ Covers (a + 0x1000) n b := by
  constructor
  · rintro ⟨k, hk, hpage⟩
    cases k with
    | zero => exact .inl hpage
    | succ k => exact .inr ⟨k, Nat.lt_of_succ_lt_succ hk, by rw [page_succ, hpage]⟩
  · rintro (hpage | ⟨k, hk, hpage⟩)
    · exact ⟨0, Nat.succ_pos n, hpage⟩
    · exact ⟨k + 1, Nat.succ_lt_succ hk, by rw [← page_succ, hpage]⟩

def readOnlyEntry (e : Word) : Word := e &&& ~~~pageWrite

def sharedFrom (e : Word) : Word := if present e ∧ lowMem ≤ pteAddr e then readOnlyEntry e else e

/-- What `copy_page_tables` makes of an entry for the child. -/
def sharedTo (e f : Word) : Word := if present e then readOnlyEntry e else f

section Leaves

variable {s s' : Memory} {a b t : Nat} {w : Word} {n : Nat} {k : Nat}

theorem leaf_congr_pageNr (h : pageNr b = pageNr a) : s.leaf b = s.leaf a := by
  obtain ⟨hpath, hindex⟩ := (samePage_iff_pageNr a b).mpr h
  rw [Memory.leaf, Memory.leaf, hpath, hindex]

theorem leaf_setPte_pageNr (h : s.Tree) (ht : s.tableAt (path a) = some t) (w : Word) (b : Nat) :
    (s.store t (ptIndex a) w).leaf b = if pageNr b = pageNr a then w else s.leaf b := by
  rw [leaf_setPte h ht w]
  exact if_congr (samePage_iff_pageNr a b) rfl rfl

/-! ### `free_page_tables` -/

theorem Memory.Tree.setPte (h : s.Tree) (ht : s.tableAt (path a) = some t) (w : Word) :
    (s.store t (ptIndex a) w).Tree :=
  IsTree.congr h (tableAt_setPte h ht w)

theorem freePage_mem (h : freePage s a = .ok s') : s'.mem = s.mem := by
  unfold freePage at h
  split at h
  · cases h
    rfl
  · split at h
    · cases h
    · split at h
      · cases h
        rfl
      · cases h

theorem leaf_of_mem (h : s'.mem = s.mem) : s'.leaf b = s.leaf b := by
  rw [Memory.leaf, Memory.leaf, Memory.tableAt, Memory.tableAt, h]

theorem freePte_store (h : s.Tree) (ht : s.tableAt (path a) = some t)
    (hpres : present (s.leaf a) = true) (hf : freePte s a = .ok s') :
    ∃ u, (if lowMem ≤ pteAddr (s.leaf a) then freePage s (pteAddr (s.leaf a)) else .ok s) = .ok u ∧
      u.Tree ∧ u.tableAt (path a) = some t ∧ (∀ b, u.leaf b = s.leaf b) ∧
      s' = u.store t (ptIndex a) 0 := by
  rw [freePte_present ht hpres] at hf
  obtain ⟨u, hfree, rfl⟩ := except_map_eq_ok.mp hf
  -- Only the counter of the page changes before the store.
  have hu : u.mem = s.mem := by
    split at hfree
    · exact freePage_mem hfree
    · cases hfree
      rfl
  refine ⟨u, hfree, ?_, ?_, fun b => leaf_of_mem hu, rfl⟩
  · unfold Memory.Tree
    rw [hu]
    exact h
  · rw [← ht, Memory.tableAt, Memory.tableAt, hu]

theorem freePte_leaf (h : s.Tree) (hf : freePte s a = .ok s') :
    s'.Tree ∧ ∀ b, s'.leaf b = if pageNr b = pageNr a ∧ present (s.leaf a) then 0
      else s.leaf b := by
  cases hpres : present (s.leaf a) with
  | false =>
    rw [freePte_absent hpres] at hf
    cases hf
    exact ⟨h, fun b => (if_neg (by simp)).symm⟩
  | true =>
    obtain ⟨t, ht⟩ := table_of_present hpres
    obtain ⟨u, -, htree, htu, hleaf, rfl⟩ := freePte_store h ht hpres hf
    refine ⟨htree.setPte htu 0, fun b => ?_⟩
    rw [leaf_setPte_pageNr htree htu, hleaf]
    exact if_congr (by simp) rfl rfl

theorem freeLoop_leaf (h : s.Tree) (hf : freeLoop n s a = .ok s') :
    s'.Tree ∧ ∀ b, s'.leaf b = if Covers a n b ∧ present (s.leaf b) then 0 else s.leaf b := by
  induction n generalizing s a with
  | zero =>
    cases hf
    refine ⟨h, fun b => (if_neg ?_).symm⟩
    exact fun hb => not_covers_zero hb.1
  | succ n ih =>
    obtain ⟨u, hu, hrest⟩ := except_bind_eq_ok.mp hf
    obtain ⟨htree, hleaf⟩ := freePte_leaf h hu
    obtain ⟨htree', hleaf'⟩ := ih htree hrest
    refine ⟨htree', fun b => ?_⟩
    rw [hleaf' b]
    by_cases hfreed : pageNr b = pageNr a ∧ present (s.leaf a) = true
    · have hub : u.leaf b = 0 := (hleaf b).trans (if_pos hfreed)
      have hpres : present (s.leaf b) = true := by rw [leaf_congr_pageNr hfreed.1, hfreed.2]
      rw [hub, ite_self, if_pos ⟨covers_succ.mpr (.inl hfreed.1), hpres⟩]
    · have hub : u.leaf b = s.leaf b := (hleaf b).trans (if_neg hfreed)
      rw [hub]
      refine if_congr (and_congr_left fun hpres => ?_) rfl rfl
      rw [covers_succ]
      refine (or_iff_right fun hba => hfreed ⟨hba, ?_⟩).symm
      rw [← leaf_congr_pageNr hba, hpres]

theorem freeLoop_add : freeLoop (n + k) s a =
    (freeLoop n s a).bind fun u => freeLoop k u (a + 0x1000 * n) := by
  induction n generalizing s a with
  | zero => simp [freeLoop, Except.bind]
  | succ n ih =>
    rw [Nat.succ_add, freeLoop, freeLoop]
    cases freePte s a with
    | error e => rfl
    | ok u => exact ih.trans (by rw [page_succ]; rfl)

theorem absent_succ (h : ∀ i < n + 1, present (s.leaf (a + 0x1000 * i)) = false) :
    present (s.leaf a) = false ∧ ∀ i < n, present (s.leaf (a + 0x1000 + 0x1000 * i)) = false := by
  refine ⟨h 0 (Nat.succ_pos n), fun i hi => ?_⟩
  rw [page_succ]
  exact h (i + 1) (Nat.succ_lt_succ hi)

theorem freeLoop_absent (h : ∀ i < n, present (s.leaf (a + 0x1000 * i)) = false) :
    freeLoop n s a = .ok s := by
  induction n generalizing a with
  | zero => rfl
  | succ n ih =>
    obtain ⟨hfirst, hrest⟩ := absent_succ h
    rw [freeLoop, freePte_absent hfirst]
    exact ih hrest

theorem freeLoop_single {u : Memory} (htree : s.Tree) (hk : k < n) (hn : n ≤ 2 ^ 36)
    (h : ∀ i < n, i ≠ k → present (s.leaf (a + 0x1000 * i)) = false)
    (hu : freePte s (a + 0x1000 * k) = .ok u) : freeLoop n s a = .ok u := by
  obtain ⟨-, hleaf⟩ := freePte_leaf htree hu
  obtain ⟨j, rfl⟩ : ∃ j, n = k + (1 + j) := ⟨n - k - 1, by omega⟩
  have hlast : freeLoop j u (a + 0x1000 * k + 0x1000 * 1) = .ok u := by
    apply freeLoop_absent
    intro i hi
    have hadd : a + 0x1000 * k + 0x1000 * 1 + 0x1000 * i = a + 0x1000 * (k + 1 + i) := by omega
    rw [hadd, hleaf, if_neg]
    · exact h _ (by omega) (by omega)
    · rintro ⟨hpage, -⟩
      rw [pageNr_add, pageNr_add] at hpage
      omega
  have hone : freeLoop 1 s (a + 0x1000 * k) = .ok u := by
    rw [freeLoop, hu]
    rfl
  rw [freeLoop_add, freeLoop_absent fun i hi => h i (by omega) (by omega)]
  change freeLoop (1 + j) s (a + 0x1000 * k) = .ok u
  rw [freeLoop_add, hone]
  exact hlast

/-! ### `copy_page_tables` -/

def Roomy (n : Nat) (s : Memory) : Prop :=
  ∀ t, s.IsTable t → lowMem ≤ t → (s.memMap (mapNr t)).toNat + n < 2 ^ 16

theorem Roomy.setPte (h : Roomy n s) (htree : s.Tree) (ht : s.tableAt (path a) = some t) :
    Roomy n (s.store t (ptIndex a) w) := fun u hu hlow =>
  h u ((isTable_congr (tableAt_setPte htree ht w) u).mp hu) hlow

theorem Roomy.extends (h : Roomy n s) (hn : n + 1 < 2 ^ 16) (hext : Extends s s') :
    Roomy n s' := by
  intro u hu hlow
  by_cases hs : s.IsTable u
  · have hpage : lowMem + mapNr u * 4096 = u := page_mapNr hlow (isTable_mod hs)
    have hcount : s'.memMap (mapNr u) = s.memMap (mapNr u) :=
      hext.count (mapNr u) fun _ => by rwa [hpage]
    rw [hcount]
    exact h u hs hlow
  · obtain ⟨k, -, rfl, -, hone⟩ := hext.fresh u hu hs
    rw [mapNr_page, hone]
    change 1 + n < _
    omega

theorem toNat_add_one {c : UInt16} (hc : c.toNat + 1 < 2 ^ 16) : (c + 1).toNat = c.toNat + 1 := by
  exact Nat.mod_eq_of_lt hc

theorem Roomy.increment (h : Roomy (n + 1) s) (hwf : Wf s) :
    Wf (s.setCount k (s.memMap k + 1)) ∧ Roomy n (s.setCount k (s.memMap k + 1)) := by
  have hcount : ∀ t, s.IsTable t → lowMem ≤ t → mapNr t = k →
      (s.memMap k + 1).toNat = (s.memMap k).toNat + 1 := by
    intro t ht hlow hk
    have := h t ht hlow
    rw [hk] at this
    exact toNat_add_one (by omega)
  refine ⟨hwf.setCount fun t ht hlow hk hzero => ?_, fun t ht hlow => ?_⟩
  · have := hcount t ht hlow hk
    rw [hzero] at this
    cases this
  · have hroom := h t ht hlow
    by_cases hk : mapNr t = k
    · rw [Memory.setCount_memMap, hk, update_self, hcount t ht hlow hk, ← hk]
      omega
    · rw [Memory.setCount_memMap, update_of_ne hk]
      omega

theorem copyPte_leaf (h : Wf s) (hroom : Roomy (n + 1) s) (hn : n + 2 < 2 ^ 16)
    (hne : pageNr a ≠ pageNr b) (hc : copyPte s a b = (true, s')) :
    Wf s' ∧ Roomy n s' ∧ ∀ c, s'.leaf c =
      if pageNr c = pageNr b then sharedTo (s.leaf a) (s.leaf b)
      else if pageNr c = pageNr a then sharedFrom (s.leaf a) else s.leaf c := by
  cases hpres : present (s.leaf a) with
  | false =>
    rw [copyPte_absent hpres] at hc
    cases hc
    refine ⟨h, fun t ht hlow => ?_, fun c => ?_⟩
    · have := hroom t ht hlow
      omega
    rw [sharedTo, sharedFrom, hpres]
    split
    · exact leaf_congr_pageNr ‹_›
    · split
      · exact leaf_congr_pageNr ‹_›
      · rfl
  | true =>
    obtain ⟨r, u, -, hwf, hext, ⟨-, hs⟩ | ⟨ft, tt, htu, htt, -, hs⟩⟩ :=
      copyPte_present (b := b) h hpres
    · rw [hs] at hc
      cases hc
    rw [hs] at hc
    have hroom1 : Roomy (n + 1) u := hroom.extends hn hext
    -- The store to the entry of the child.
    have hwf2 : Wf (u.store tt (ptIndex b) (s.leaf a &&& ~~~pageWrite)) := hwf.setPte htt _
    have hroom2 : Roomy (n + 1) (u.store tt (ptIndex b) (s.leaf a &&& ~~~pageWrite)) :=
      hroom1.setPte hwf.tree htt
    have hleaf2 : ∀ c, (u.store tt (ptIndex b) (s.leaf a &&& ~~~pageWrite)).leaf c =
        if pageNr c = pageNr b then readOnlyEntry (s.leaf a) else s.leaf c := fun c => by
      rw [leaf_setPte_pageNr hwf.tree htt, hext.leaf]
      rfl
    rw [sharedTo, if_pos hpres, sharedFrom]
    simp only [hpres, true_and]
    split at hc
    · rename_i hlow
      cases hc
      -- The store to the entry of the parent, and the counter.
      have htu2 : (u.store tt (ptIndex b) (s.leaf a &&& ~~~pageWrite)).tableAt (path a) =
          some ft := (tableAt_setPte hwf.tree htt _ _ (by simp [path])).trans htu
      have hwf3 := hwf2.setPte htu2 (s.leaf a &&& ~~~pageWrite)
      have hroom3 : Roomy (n + 1) _ := hroom2.setPte (w := s.leaf a &&& ~~~pageWrite) hwf2.tree htu2
      obtain ⟨hwf4, hroom4⟩ := hroom3.increment (k := mapNr (pteAddr (s.leaf a))) hwf3
      refine ⟨hwf4, hroom4, fun c => ?_⟩
      rw [leaf_setCount, leaf_setPte_pageNr hwf2.tree htu2, hleaf2, if_pos hlow]
      by_cases hca : pageNr c = pageNr a
      · have hcb : pageNr c ≠ pageNr b := hca ▸ hne
        rw [if_pos hca, if_neg hcb, if_pos hca]
        rfl
      · rw [if_neg hca, if_neg hca]
    · rename_i hlow
      cases hc
      refine ⟨hwf2, fun t ht hlow => ?_, fun c => ?_⟩
      · have := hroom2 t ht hlow
        omega
      · rw [hleaf2, if_neg hlow]
        split
        · rfl
        · split
          · exact leaf_congr_pageNr ‹_›
          · rfl

theorem pageNr_add_inj {i j : Nat} (hi : i < 2 ^ 36) (hj : j < 2 ^ 36)
    (h : pageNr (a + 0x1000 * i) = pageNr (a + 0x1000 * j)) : i = j := by
  rw [pageNr_add, pageNr_add] at h
  omega

def NoOverlap (a b n : Nat) : Prop :=
  ∀ i < n, ∀ j < n, pageNr (a + 0x1000 * i) ≠ pageNr (b + 0x1000 * j)

theorem NoOverlap.next (h : NoOverlap a b (n + 1)) : NoOverlap (a + 0x1000) (b + 0x1000) n := by
  intro i hi j hj
  rw [page_succ, page_succ]
  exact h (i + 1) (Nat.succ_lt_succ hi) (j + 1) (Nat.succ_lt_succ hj)

theorem pageNr_later (hn : n + 1 + 1 < 2 ^ 16) (hk : k < n) :
    pageNr (a + 0x1000 * (k + 1)) ≠ pageNr a := by
  intro heq
  have := pageNr_add_inj (i := k + 1) (j := 0) (by omega) (by omega) heq
  omega

theorem copyLoop_leaf (h : Wf s) (hroom : Roomy n s) (hn : n + 1 < 2 ^ 16)
    (hdisj : NoOverlap a b n) (hc : copyLoop n s a b = (true, s')) :
    Wf s' ∧
    (∀ k < n, s'.leaf (b + 0x1000 * k) =
      sharedTo (s.leaf (a + 0x1000 * k)) (s.leaf (b + 0x1000 * k))) ∧
    (∀ k < n, s'.leaf (a + 0x1000 * k) = sharedFrom (s.leaf (a + 0x1000 * k))) ∧
    ∀ c, ¬Covers a n c → ¬Covers b n c → s'.leaf c = s.leaf c := by
  induction n generalizing s a b with
  | zero =>
    cases hc
    exact ⟨h, fun k hk => absurd hk (Nat.not_lt_zero k), fun k hk => absurd hk (Nat.not_lt_zero k),
      fun _ _ _ => rfl⟩
  | succ n ih =>
    have hne : pageNr a ≠ pageNr b := hdisj 0 (Nat.succ_pos n) 0 (Nat.succ_pos n)
    unfold copyLoop at hc
    split at hc
    · cases hc
    rename_i u hu
    obtain ⟨hwf, hroom', hleaf⟩ := copyPte_leaf h hroom hn hne hu
    obtain ⟨hwf', hto, hfrom, hother⟩ := ih hwf hroom' (by omega) hdisj.next hc
    have hab : ∀ k < n, pageNr (a + 0x1000 * (k + 1)) ≠ pageNr b := fun k hk =>
      hdisj (k + 1) (Nat.succ_lt_succ hk) 0 (Nat.succ_pos n)
    have hba : ∀ k < n, pageNr (b + 0x1000 * (k + 1)) ≠ pageNr a := fun k hk =>
      (hdisj 0 (Nat.succ_pos n) (k + 1) (Nat.succ_lt_succ hk)).symm
    have hua : ∀ k < n, u.leaf (a + 0x1000 * (k + 1)) = s.leaf (a + 0x1000 * (k + 1)) := by
      intro k hk
      rw [hleaf, if_neg (hab k hk), if_neg (pageNr_later hn hk)]
    have hub : ∀ k < n, u.leaf (b + 0x1000 * (k + 1)) = s.leaf (b + 0x1000 * (k + 1)) := by
      intro k hk
      rw [hleaf, if_neg (pageNr_later hn hk), if_neg (hba k hk)]
    refine ⟨hwf', fun k hk => ?_, fun k hk => ?_, fun c hca hcb => ?_⟩
    · cases k with
      | zero =>
        rw [Nat.mul_zero, Nat.add_zero, Nat.add_zero]
        rw [hother b, hleaf, if_pos rfl]
        · rintro ⟨k, hk, hpage⟩
          rw [page_succ] at hpage
          exact hab k hk hpage.symm
        · rintro ⟨k, hk, hpage⟩
          rw [page_succ] at hpage
          exact pageNr_later hn hk hpage.symm
      | succ k =>
        have hk' := Nat.lt_of_succ_lt_succ hk
        rw [← hua k hk', ← hub k hk', ← page_succ, ← page_succ]
        exact hto k hk'
    · cases k with
      | zero =>
        rw [Nat.mul_zero, Nat.add_zero]
        rw [hother a, hleaf, if_neg hne, if_pos rfl]
        · rintro ⟨k, hk, hpage⟩
          rw [page_succ] at hpage
          exact pageNr_later hn hk hpage.symm
        · rintro ⟨k, hk, hpage⟩
          rw [page_succ] at hpage
          exact hba k hk hpage.symm
      | succ k =>
        have hk' := Nat.lt_of_succ_lt_succ hk
        rw [← hua k hk', ← page_succ]
        exact hfrom k hk'
    · rw [covers_succ, not_or] at hca hcb
      rw [hother c hca.2 hcb.2, hleaf, if_neg hcb.1, if_neg hca.1]

theorem copyLoop_add : copyLoop (n + k) s a b =
    match copyLoop n s a b with
    | (false, u) => (false, u)
    | (true, u) => copyLoop k u (a + 0x1000 * n) (b + 0x1000 * n) := by
  induction n generalizing s a b with
  | zero => simp [copyLoop]
  | succ n ih =>
    rw [Nat.succ_add, copyLoop, copyLoop]
    split
    · rfl
    · rw [ih, page_succ, page_succ]

theorem copyLoop_absent (h : ∀ i < n, present (s.leaf (a + 0x1000 * i)) = false) :
    copyLoop n s a b = (true, s) := by
  induction n generalizing a b with
  | zero => rfl
  | succ n ih =>
    obtain ⟨hfirst, hrest⟩ := absent_succ h
    rw [copyLoop, copyPte_absent hfirst]
    exact ih hrest

section Single

variable (h : Wf s) (hroom : Roomy 1 s) (hu : copyPte s a b = (true, u)) (hne : pageNr a ≠ pageNr b)
  (hrest : ∀ i < n, pageNr (a + 0x1000 * (i + 1)) ≠ pageNr b ∧
    pageNr (a + 0x1000 * (i + 1)) ≠ pageNr a ∧ present (s.leaf (a + 0x1000 * (i + 1))) = false)
include h hroom hu hne hrest

theorem copyPte_rest : ∀ i < n, present (u.leaf (a + 0x1000 * (i + 1))) = false := by
  intro i hi
  obtain ⟨-, -, hleaf⟩ := copyPte_leaf (n := 0) h hroom (by decide) hne hu
  obtain ⟨hb, ha, habsent⟩ := hrest i hi
  rwa [hleaf, if_neg hb, if_neg ha]

/-- A copy of which only the first page is present. -/
theorem copyLoop_single : copyLoop (n + 1) s a b = (true, u) := by
  rw [copyLoop, hu]
  refine copyLoop_absent fun i hi => ?_
  rw [page_succ]
  exact copyPte_rest h hroom hu hne hrest i hi

end Single

end Leaves

/-! ### The memory of the child -/

/-- The child at `new` has the parent's pages, and neither can write to them. -/
def SeesParent (s s' : Memory) (old new limit : Nat) : Prop :=
  ∀ off < limit,
    ((s'.lookup (new + off)).isSome ↔ (s.lookup (old + off)).isSome) ∧
    ∀ e, s.lookup (old + off) = some e →
      (∃ e', s'.lookup (new + off) = some e' ∧ pteAddr e' = pteAddr e ∧ writable e' = false) ∧
      ∃ e', s'.lookup (old + off) = some e' ∧ pteAddr e' = pteAddr e ∧
        (lowMem ≤ pteAddr e → writable e' = false)

section Child

variable {s s' : Memory} {k nr limit off i : Nat}

theorem leaf_slotBase (hoff : i = off / 4096) :
    s.leaf (slotBase k + off) = s.leaf (slotBase k + 0x1000 * i) := by
  apply leaf_congr_pageNr
  unfold pageNr slotBase
  omega

theorem pageNr_walk (hk : k < nrTasks) (hi : i < 2 ^ 20) :
    pageNr (slotBase k + 0x1000 * i) = k * slotPages + i := by
  have hk' : k < 64 := hk
  unfold pageNr slotBase slotPages
  omega

theorem pageNr_slotBase (hk : k < nrTasks) (hi : i < slotPages) :
    pageNr (slotBase k + 0x1000 * i) = k * slotPages + i :=
  pageNr_walk hk (Nat.lt_trans hi (by decide))

theorem pageNr_newBase (hnr : 32 ≤ nr) (hlt : nr < nrTasks) (hi : i < slotPages) :
    pageNr ((newBase nr).toNat + 0x1000 * i) = 2 ^ 36 - 2 ^ 20 + nr * slotPages + i := by
  rw [toNat_newBase nr hlt, if_neg (Nat.not_lt.mpr hnr)]
  unfold pageNr slotBase
  unfold nrTasks slotPages at *
  omega

theorem pages_of_limit (hlimit : limit ≤ 0x4000000) :
    roundUp limit / 0x1000 ≤ slotPages ∧ ∀ off < limit, off / 4096 < roundUp limit / 0x1000 := by
  unfold roundUp slotPages
  refine ⟨by omega, fun off hoff => ?_⟩
  omega

theorem present_of_lookup {a : Nat} {e : Word} (h : s.lookup a = some e) :
    present (s.leaf a) = true ∧ s.leaf a = e := by
  obtain ⟨rfl, hp⟩ := lookup_eq_some_iff.mp h
  exact ⟨hp, rfl⟩

theorem noOverlap_newBase (hk : k < nrTasks) (hnr : UserSlot nr) (hne : nr < 32 → k ≠ nr) :
    NoOverlap (slotBase k) (newBase nr).toNat slotPages := by
  intro i hi j hj
  have hlt := hnr.2
  rw [pageNr_slotBase hk hi]
  by_cases hlow : nr < 32
  · rw [toNat_newBase nr hlt, if_pos hlow, pageNr_slotBase hlt hj]
    unfold slotPages nrTasks at *
    omega
  · rw [pageNr_newBase (Nat.not_lt.mp hlow) hlt hj]
    unfold slotPages nrTasks at *
    omega

theorem seesParent_of_copy (hlimit : limit ≤ 0x4000000) (hempty : EmptySlot s nr)
    (hto : ∀ i < roundUp limit / 0x1000, s'.leaf (slotBase nr + 0x1000 * i) =
      sharedTo (s.leaf (slotBase k + 0x1000 * i)) (s.leaf (slotBase nr + 0x1000 * i)))
    (hfrom : ∀ i < roundUp limit / 0x1000, s'.leaf (slotBase k + 0x1000 * i) =
      sharedFrom (s.leaf (slotBase k + 0x1000 * i))) :
    SeesParent s s' (slotBase k) (slotBase nr) limit := by
  obtain ⟨hpages, hoff⟩ := pages_of_limit hlimit
  intro off hlt
  have hi := hoff off hlt
  have hchild := hto _ hi
  have hparent := hfrom _ hi
  rw [← leaf_slotBase rfl, ← leaf_slotBase rfl] at hchild hparent
  rw [← leaf_slotBase rfl] at hchild
  cases hl : s.lookup (slotBase k + off) with
  | none =>
    have habs := lookup_eq_none_iff.mp hl
    have hnone : s'.lookup (slotBase nr + off) = none := by
      have hslot := lookup_eq_none_iff.mp (hempty (off / 4096) (by omega))
      rw [← leaf_slotBase rfl] at hslot
      rw [lookup_eq_none_iff, hchild, sharedTo, if_neg (by simp [habs])]
      exact hslot
    rw [hnone]
    exact ⟨Iff.rfl, fun e he => by cases he⟩
  | some e =>
    obtain ⟨hp, rfl⟩ := present_of_lookup hl
    have hchild' : s'.lookup (slotBase nr + off) =
      some (readOnlyEntry (s.leaf (slotBase k + off))) := by
      rw [lookup_eq_some_iff, hchild, sharedTo, if_pos hp]
      exact ⟨rfl, (present_clear _).trans hp⟩
    refine ⟨by rw [hchild']; exact iff_of_true rfl rfl, fun e' he' => ?_⟩
    cases he'
    refine ⟨⟨_, hchild', pteAddr_clear _, writable_clear _⟩, s'.leaf (slotBase k + off), ?_, ?_⟩
    · rw [lookup_eq_some_iff, hparent, sharedFrom]
      refine ⟨rfl, ?_⟩
      split
      · exact (present_clear _).trans hp
      · exact hp
    · rw [hparent, sharedFrom]
      by_cases hlow : lowMem ≤ pteAddr (s.leaf (slotBase k + off))
      · rw [if_pos ⟨hp, hlow⟩]
        exact ⟨pteAddr_clear _, fun _ => writable_clear _⟩
      · rw [if_neg fun h => hlow h.2]
        exact ⟨rfl, fun h => absurd h hlow⟩

end Child

/-- Segments of 64MB from two bases have no address in common. -/
def Separate (base base' : Nat) : Prop := base + 0x4000000 ≤ base' ∨ base' + 0x4000000 ≤ base

theorem separate_slotBase {nr nr' : Nat} (h : nr ≠ nr') :
    Separate (slotBase nr) (slotBase nr') := by
  unfold Separate slotBase
  omega

theorem copyLoop_of_copyMem {s s' : Memory} {codeLimit dataLimit nr : Nat} {current p p' : Ldt}
    {done : Bool} (h : copyMem s codeLimit dataLimit current p nr = .ok (done, p', s')) :
    ∃ u, copyLoop (roundUp dataLimit / 0x1000) s (getBase (current 2)).toNat (newBase nr).toNat =
        (done, u) ∧ p' = rebase p (newBase nr) ∧
      match done with
      | true => s' = u
      | false => freePageTables u (newBase nr).toNat dataLimit = .ok s' := by
  unfold copyMem at h
  dsimp only at h
  split at h
  · cases h
  split at h
  · cases h
  obtain ⟨⟨copied, u⟩, hcopy, hrest⟩ := except_bind_eq_ok.mp h
  unfold copyPageTables at hcopy
  split at hcopy
  · cases hcopy
  have hloop := Except.ok.inj hcopy
  cases copied with
  | true =>
    cases hrest
    exact ⟨_, hloop, rfl, rfl⟩
  | false =>
    obtain ⟨v, hfree, hv⟩ := except_map_eq_ok.mp hrest
    cases hv
    exact ⟨u, hloop, rfl, hfree⟩

/-- When `copy_mem` returns 0, the child sees the memory if and only if its slot is below 32 or
there is none. -/
theorem copyMem_seesParent_iff {s s' : Memory} {codeLimit dataLimit k nr : Nat} {current p p' : Ldt}
    (hwf : Wf s) (hroom : Roomy slotPages s) (hk : k < nrTasks) (hnr : UserSlot nr) (hne : k ≠ nr)
    (hbase : (getBase (current 2)).toNat = slotBase k) (hlimit : dataLimit ≤ 0x4000000)
    (hempty : EmptySlot s nr)
    (hc : copyMem s codeLimit dataLimit current p nr = .ok (true, p', s')) :
    SeesParent s s' (getBase (current 2)).toNat (getBase (p' 2)).toNat dataLimit ∧
      (∀ nr' d, UserSlot nr' → nr' ≠ nr →
        Separate (getBase (p' 2)).toNat (getBase (setBase d (newBase nr'))).toNat) ↔
    nr < 32 ∨ ∀ off < dataLimit, s.lookup ((getBase (current 2)).toNat + off) = none := by
  obtain ⟨hpages, hoff⟩ := pages_of_limit hlimit
  obtain ⟨_, hloop, rfl, rfl⟩ := copyLoop_of_copyMem hc
  rw [hbase] at hloop
  have hchild : (getBase (rebase p (newBase nr) 2)).toNat = slotBase nr := by
    exact getBase_newBase _ hnr.2
  have hsep : ∀ nr' d, UserSlot nr' → nr' ≠ nr →
      Separate (slotBase nr) (getBase (setBase d (newBase nr'))).toNat := by
    intro nr' d hnr' hne'
    rw [getBase_newBase d hnr'.2]
    exact separate_slotBase hne'.symm
  rw [hchild, hbase, and_iff_left hsep]
  have hroom' : Roomy (roundUp dataLimit / 0x1000) s := fun t ht hlow => by
    have := hroom t ht hlow
    omega
  have hn : roundUp dataLimit / 0x1000 + 1 < 2 ^ 16 := by
    unfold slotPages at hpages
    omega
  have hdisj : NoOverlap (slotBase k) (newBase nr).toNat (roundUp dataLimit / 0x1000) :=
    fun i hi j hj => noOverlap_newBase hk hnr (fun _ => hne) i (by omega) j (by omega)
  obtain ⟨-, hto, hfrom, hother⟩ := copyLoop_leaf hwf hroom' hn hdisj hloop
  by_cases hlow : nr < 32
  · rw [toNat_newBase nr hnr.2, if_pos hlow] at hto
    exact iff_of_true (seesParent_of_copy hlimit hempty hto hfrom) (.inl hlow)
  · -- The copy is elsewhere: the slot of the child stays empty.
    have hnone : ∀ off < dataLimit, s'.lookup (slotBase nr + off) = none := by
      intro off hlt
      have hi := hoff off hlt
      have hslot := lookup_eq_none_iff.mp (hempty (off / 4096) (by omega))
      rw [lookup_eq_none_iff, leaf_slotBase rfl, hother]
      · exact hslot
      · rintro ⟨j, hj, hpage⟩
        rw [pageNr_slotBase hnr.2 (by omega), pageNr_slotBase hk (by omega)] at hpage
        unfold slotPages at *
        omega
      · rintro ⟨j, hj, hpage⟩
        exact noOverlap_newBase hnr.2 hnr (absurd · hlow) _ (by omega) j (by omega) hpage
    rw [or_iff_right hlow]
    constructor
    · intro hsees off hlt
      have hiff := (hsees off hlt).1
      rw [hnone off hlt] at hiff
      cases hl : s.lookup (slotBase k + off) with
      | none => rfl
      | some e =>
        rw [hl] at hiff
        cases hiff.mpr rfl
    · intro habs off hlt
      rw [hnone off hlt, habs off hlt]
      exact ⟨Iff.rfl, fun e he => by cases he⟩

theorem Inv.roomy {s : Memory} {got : List Nat} {n : Nat} (h : Inv s got) (hn : n + 1 < 2 ^ 16) :
    Roomy n s := by
  intro t ht hlow
  have hpage : lowMem + mapNr t * 4096 = t := page_mapNr hlow (isTable_mod ht)
  have hone := (h.valid.reserved (mapNr t) (.inl (by rwa [← hpage] at ht))).1
  change (s.memMap (mapNr t)).toNat = 1 at hone
  omega

theorem doNoPage_leaf {s : Memory} {a b : Nat} (h : Wf s) (hb : pageNr b ≠ pageNr a) :
    (doNoPage s a).state.leaf b = s.leaf b := by
  unfold doNoPage
  cases hg : getFreePage s with
  | none => rfl
  | some x =>
    obtain ⟨page, s1⟩ := x
    obtain ⟨hwf, -, -, hleaf⟩ := h.alloc hg
    dsimp only
    unfold putPage
    cases hc : getPte s1 a true with
    | mk r s2 =>
      obtain ⟨hwf2, hext, htable⟩ := getPte_create hwf hc
      cases r with
      | none => exact (hext.leaf b).trans (hleaf b)
      | some ti =>
        obtain ⟨t, i⟩ := ti
        obtain ⟨ht, rfl⟩ := htable t i rfl
        have hstore : (s2.store t (ptIndex a) (entry page)).leaf b = s.leaf b := by
          rw [leaf_setPte_pageNr hwf2.tree ht, if_neg hb, hext.leaf, hleaf]
        cases hp : pointer page <;> exact hstore

theorem faultMemory_leaf {a p : Nat} (hle : 0x1000 ≤ p) (hlt : p < 2 ^ 36) (hne : p ≠ pageNr a) :
    (faultMemory a).leaf (4096 * p) = 0 := by
  have hpage : pageNr (4096 * p) = p := by
    unfold pageNr
    omega
  unfold faultMemory
  rw [doNoPage_leaf bootMemory_booted.wf (by rwa [hpage]), bootMemory_booted.leaf_of_le hle hlt]

def slotLdt (nr : Nat) : Ldt := rebase initLdt (newBase nr)

theorem getBase_slotLdt : ∀ k < nrTasks, getBase (slotLdt k 2) = getBase (slotLdt k 1) ∧
    (getBase (slotLdt k 2)).toNat = slotBase k := by
  decide +kernel

/-- The copy of a process with one page ends after the first round. -/
theorem copyLoop_faultMemory {k n b : Nat} {u : Memory} (hk : UserSlot k) (hn : n < 2 ^ 20)
    (hfar : ∀ i < n + 1, k * slotPages + i ≠ pageNr b)
    (hu : copyPte (faultMemory (slotBase k)) (slotBase k) b = (true, u)) :
    copyLoop (n + 1) (faultMemory (slotBase k)) (slotBase k) b = (true, u) ∧
      ∀ i < n, present (u.leaf (slotBase k + 0x1000 * (i + 1))) = false := by
  have hlt : k < 64 := hk.2
  have hpos := hk.1
  have hslot : pageNr (slotBase k) = k * slotPages := by simpa using pageNr_walk hk.2 (i := 0)
  have hne : pageNr (slotBase k) ≠ pageNr b := by
    have := hfar 0 (Nat.succ_pos n)
    rwa [Nat.add_zero, ← hslot] at this
  have hrest : ∀ i < n, pageNr (slotBase k + 0x1000 * (i + 1)) ≠ pageNr b ∧
      pageNr (slotBase k + 0x1000 * (i + 1)) ≠ pageNr (slotBase k) ∧
      present ((faultMemory (slotBase k)).leaf (slotBase k + 0x1000 * (i + 1))) = false := by
    intro i hi
    have hpage : slotBase k + 0x1000 * (i + 1) = 4096 * (k * slotPages + (i + 1)) := by
      unfold slotBase slotPages
      omega
    rw [pageNr_walk hk.2 (by omega), hslot, hpage, faultMemory_leaf _ _ (by rw [hslot]; omega)]
    · exact ⟨hfar (i + 1) (by omega), by omega, rfl⟩
    · unfold slotPages
      omega
    · unfold slotPages
      omega
  have hinv := (faultMemory_spec hk).1
  have hroom : Roomy 1 (faultMemory (slotBase k)) := hinv.roomy (by decide)
  exact ⟨copyLoop_single hinv.wf hroom hu hne hrest, copyPte_rest hinv.wf hroom hu hne hrest⟩

theorem copyMem_faultMemory {k nr limit : Nat} {p : Ldt} (hk : UserSlot k) (hlimit : limit ≤ 2 ^ 32)
    (hpos : 0 < limit)
    (hfar : ∀ i < roundUp limit / 0x1000, k * slotPages + i ≠ pageNr (newBase nr).toNat)
    (hmod : (newBase nr).toNat % 0x200000 = 0)
    (hdone : (copyPte (faultMemory (slotBase k)) (slotBase k) (newBase nr).toNat).1 = true) :
    copyMem (faultMemory (slotBase k)) limit limit (slotLdt k) p nr =
      .ok (true, rebase p (newBase nr),
        (copyPte (faultMemory (slotBase k)) (slotBase k) (newBase nr).toNat).2) := by
  obtain ⟨hbase, hold⟩ := getBase_slotLdt k hk.2
  cases hu : copyPte (faultMemory (slotBase k)) (slotBase k) (newBase nr).toNat with
  | mk done u =>
    rw [hu] at hdone
    obtain rfl : done = true := hdone
    obtain ⟨n, hn⟩ : ∃ n, roundUp limit / 0x1000 = n + 1 := ⟨roundUp limit / 0x1000 - 1, by
      unfold roundUp
      omega⟩
    have hle : n < 2 ^ 20 := by
      unfold roundUp at hn
      omega
    rw [hn] at hfar
    have hloop := (copyLoop_faultMemory hk hle hfar hu).1
    have halign : slotBase k % 0x200000 = 0 := by
      unfold slotBase
      omega
    unfold copyMem copyPageTables
    dsimp only
    rw [if_neg (not_not.mpr hbase), if_neg (Nat.lt_irrefl _), hold,
      if_neg (not_or.mpr ⟨not_not.mpr halign, not_not.mpr hmod⟩), hn, hloop]
    rfl

/-- The only page of slot 1 in slot 2. -/
theorem copyMem_seesParent_second : ∃ p' s',
    copyMem (faultMemory (slotBase 1)) 0x1000 0x1000 (slotLdt 1) (slotLdt 1) 2 = .ok
      (true, p', s') ∧
      ((faultMemory (slotBase 1)).lookup (slotBase 1)).isSome = true ∧
      SeesParent (faultMemory (slotBase 1)) s' (getBase (slotLdt 1 2)).toNat (getBase (p' 2)).toNat
        0x1000 := by
  have hnr : pageNr (newBase 2).toNat = 0x8000 := by decide
  have hone : UserSlot 1 := ⟨by decide, by decide⟩
  have htwo : UserSlot 2 := ⟨by decide, by decide⟩
  have hc : copyMem (faultMemory (slotBase 1)) 0x1000 0x1000 (slotLdt 1) (slotLdt 1) 2 = _ :=
    copyMem_faultMemory hone (by decide) (by decide) (by rw [hnr]; decide +kernel) (by decide)
      (by decide +kernel)
  have hinv := (faultMemory_spec hone).1
  refine ⟨_, _, hc, by decide +kernel, ?_⟩
  exact ((copyMem_seesParent_iff hinv.wf (hinv.roomy (by decide)) hone.2 htwo (by decide)
    (by decide) (by decide) (faultMemory_empty hone htwo (by decide)) hc).mpr (.inl (by decide))).1

/-- The child in slot 32 does not have the page of its parent. -/
theorem copyMem_slot32 : ∃ p' s',
    Wf (faultMemory (slotBase 1)) ∧ Roomy slotPages (faultMemory (slotBase 1)) ∧
      EmptySlot (faultMemory (slotBase 1)) 32 ∧
      copyMem (faultMemory (slotBase 1)) 0x1000 0x1000 (slotLdt 1) (slotLdt 1) 32 =
        .ok (true, p', s') ∧
      ¬SeesParent (faultMemory (slotBase 1)) s' (getBase (slotLdt 1 2)).toNat (getBase (p' 2)).toNat
        0x1000 := by
  have hnr : pageNr (newBase 32).toNat = 0xFFFF80000 := by decide
  have hone : UserSlot 1 := ⟨by decide, by decide⟩
  have hinv := (faultMemory_spec hone).1
  have hc : copyMem (faultMemory (slotBase 1)) 0x1000 0x1000 (slotLdt 1) (slotLdt 1) 32 = _ :=
    copyMem_faultMemory hone (by decide) (by decide) (by rw [hnr]; decide +kernel) (by decide)
      (by decide +kernel)
  refine ⟨_, _, hinv.wf, hinv.roomy (by decide),
    faultMemory_empty hone ⟨by decide, by decide⟩ (by decide), hc, fun hsees => ?_⟩
  have hparent : ((faultMemory (slotBase 1)).lookup ((getBase (slotLdt 1 2)).toNat + 0)).isSome =
      true := by decide +kernel
  have hsome := (hsees 0 (by decide)).1.mpr hparent
  cases hsome

end Linux001.Mm
