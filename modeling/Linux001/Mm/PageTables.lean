import Linux001.Mm.Memory
import Linux001.ProofKit.TableTree

/-! The page tables as a tree that maps addresses to entries: what `get_pte` finds, what it adds to
the tree when it creates tables, and what a store to an entry changes. -/

namespace Linux001.Mm

open Function ProofKit

def writable (pte : Word) : Bool := pte &&& pageWrite != 0

theorem and_bit_ne_zero (e : Word) {b : Word} {i : Nat} (hb : b = BitVec.twoPow 64 i) (h0 : b ≠ 0) :
    (e &&& b != 0) = e.getLsbD i := by
  rw [hb, BitVec.and_twoPow, ← hb]
  cases e.getLsbD i
  · simp
  · simpa using h0

theorem present_eq (e : Word) : present e = e.getLsbD 0 :=
  and_bit_ne_zero e (by decide) (by decide)

theorem writable_eq (e : Word) : writable e = e.getLsbD 1 :=
  and_bit_ne_zero e (by decide) (by decide)

theorem pteAddr_eq (e : Word) : pteAddr e = e.toNat / 4096 % 2 ^ 40 * 4096 := by
  have hmask : (0x000FFFFFFFFFF000 : Word).toNat = (2 ^ 40 - 1) <<< 12 := by decide
  have hshift : e.toNat / 4096 % 2 ^ 40 * 4096 = ((e.toNat >>> 12) % 2 ^ 40) <<< 12 := by
    rw [Nat.shiftLeft_eq, Nat.shiftRight_eq_div_pow]
  rw [pteAddr, BitVec.toNat_and, hmask, hshift]
  apply Nat.eq_of_testBit_eq
  intro i
  simp only [Nat.testBit_and, Nat.testBit_shiftLeft, Nat.testBit_mod_two_pow,
    Nat.testBit_shiftRight, Nat.testBit_two_pow_sub_one]
  grind

theorem pteAddr_mod (e : Word) : pteAddr e % 4096 = 0 := by
  rw [pteAddr_eq]
  exact Nat.mul_mod_left _ _

theorem pteAddr_or {e f : Word} (hf : f &&& 0x000FFFFFFFFFF000 = 0) :
    pteAddr (e ||| f) = pteAddr e := by
  rw [pteAddr, BitVec.and_or_distrib_right, hf]
  exact congrArg BitVec.toNat BitVec.or_zero

@[simp] theorem pteAddr_clear (e : Word) : pteAddr (e &&& ~~~pageWrite) = pteAddr e := by
  rw [pteAddr, BitVec.and_assoc, pteAddr,
    show ~~~pageWrite &&& 0x000FFFFFFFFFF000 = (0x000FFFFFFFFFF000 : Word) by decide]

@[simp] theorem present_clear (e : Word) : present (e &&& ~~~pageWrite) = present e := by
  rw [present_eq, present_eq, BitVec.getLsbD_and, show (~~~pageWrite).getLsbD 0 = true by decide,
    Bool.and_true]

@[simp] theorem writable_clear (e : Word) : writable (e &&& ~~~pageWrite) = false := by
  rw [writable_eq, BitVec.getLsbD_and, show (~~~pageWrite).getLsbD 1 = false by decide,
    Bool.and_false]

@[simp] theorem pteAddr_set (e : Word) : pteAddr (e ||| pageWrite) = pteAddr e :=
  pteAddr_or (by decide)

@[simp] theorem present_set (e : Word) : present (e ||| pageWrite) = present e := by
  rw [present_eq, present_eq, BitVec.getLsbD_or, show pageWrite.getLsbD 0 = false by decide,
    Bool.or_false]

@[simp] theorem writable_set (e : Word) : writable (e ||| pageWrite) = true := by
  rw [writable_eq, BitVec.getLsbD_or, show pageWrite.getLsbD 1 = true by decide, Bool.or_true]

@[simp] theorem present_entry (page : Nat) : present (entry page) = true := by
  rw [present_eq, entry]
  simp [show pagePresent.getLsbD 0 = true by decide]

@[simp] theorem writable_entry (page : Nat) : writable (entry page) = true := by
  rw [writable_eq, entry]
  simp [show pageWrite.getLsbD 1 = true by decide]

theorem pteAddr_entry {page : Nat} (hmod : page % 4096 = 0) (hlt : page < 2 ^ 52) :
    pteAddr (entry page) = page := by
  rw [entry, pteAddr_or (by decide), pteAddr_or (by decide), pteAddr_or (by decide), pteAddr_eq,
    BitVec.toNat_ofNat]
  omega

@[simp] theorem present_zero : present 0#64 = false := by decide

def child (e : Word) : Option Nat := if present e then pointer (pteAddr e) else none

def path (addr : Nat) : List (Fin 512) := [pdIndex addr, pdptIndex addr, pml4Index addr]

namespace Memory

abbrev tableAt (s : Memory) (q : List (Fin 512)) : Option Nat := walk child s.mem pml4Addr q

abbrev Tree (s : Memory) : Prop := IsTree child s.mem pml4Addr 3

abbrev IsTable (s : Memory) (t : Nat) : Prop := ProofKit.IsTable child s.mem pml4Addr 3 t

def leaf (s : Memory) (addr : Nat) : Word :=
  ((s.tableAt (path addr)).map fun t => s.mem t (ptIndex addr)).getD 0

def lookup (s : Memory) (addr : Nat) : Option Word :=
  if present (s.leaf addr) then some (s.leaf addr) else none

end Memory

structure Wf (s : Memory) : Prop where
  tree : s.Tree
  used : ∀ t, s.IsTable t → t < lowMem ∨ (t < highMemory ∧ s.memMap (mapNr t) ≠ 0)

section

variable {s s' s'' : Memory} {q : List (Fin 512)} {t page a : Nat} {i : Fin 512} {w : Word}
  {b k : Nat} {words : Fin 512 → Word} {r : Option Nat} {n : Nat}

theorem child_mod {e : Word} (h : child e = some t) : t % 4096 = 0 := by
  unfold child pointer at h
  split at h
  · split at h
    · cases h
    · exact (Option.some.inj h) ▸ pteAddr_mod e
  · cases h

theorem tableAt_mod (h : s.tableAt q = some t) : t % 4096 = 0 := by
  cases q with
  | nil => exact (Option.some.inj h) ▸ rfl
  | cons i q =>
    obtain ⟨u, -, hu⟩ := Option.bind_eq_some_iff.mp h
    exact child_mod hu

theorem isTable_ne_zero (h : s.IsTable t) : t ≠ 0 := by
  obtain ⟨q, -, hq⟩ := h
  cases q with
  | nil =>
    obtain rfl : pml4Addr = t := Option.some.inj hq
    decide
  | cons i q =>
    obtain ⟨u, -, hu⟩ := Option.bind_eq_some_iff.mp hq
    rintro rfl
    unfold child pointer at hu
    split at hu
    · split at hu
      · cases hu
      · rename_i hne
        exact hne (Option.some.inj hu)
    · cases hu

theorem isTable_mod (h : s.IsTable t) : t % 4096 = 0 := by
  obtain ⟨q, -, hq⟩ := h
  exact tableAt_mod hq

theorem child_entry (hmod : page % 4096 = 0) (hpos : 0 < page) (hlt : page < 2 ^ 52) :
    child (entry page) = some page := by
  rw [child, present_entry, if_pos rfl, pteAddr_entry hmod hlt, pointer, if_neg (by omega)]

theorem leaf_of_table (h : s.tableAt (path a) = some t) : s.leaf a = s.mem t (ptIndex a) := by
  rw [Memory.leaf, h, Option.map_some, Option.getD_some]

theorem leaf_of_none (h : s.tableAt (path a) = none) : s.leaf a = 0 := by
  rw [Memory.leaf, h, Option.map_none, Option.getD_none]

theorem lookup_eq_some_iff : s.lookup a = some w ↔ s.leaf a = w ∧ present w = true := by
  rw [Memory.lookup]
  constructor
  · intro h
    split at h
    · rename_i hp
      cases h
      exact ⟨rfl, hp⟩
    · cases h
  · rintro ⟨rfl, hp⟩
    rw [if_pos hp]

theorem lookup_eq_none_iff : s.lookup a = none ↔ present (s.leaf a) = false := by
  rw [Memory.lookup]
  cases present (s.leaf a) <;> simp

theorem table_of_present (h : present (s.leaf a) = true) : ∃ t, s.tableAt (path a) = some t := by
  cases ht : s.tableAt (path a) with
  | none =>
    rw [leaf_of_none ht] at h
    cases h
  | some t => exact ⟨t, rfl⟩

theorem lookup_congr (h : s'.leaf b = s.leaf a) : s'.lookup b = s.lookup a := by
  rw [Memory.lookup, Memory.lookup, h]

theorem leaf_congr (hw : s'.tableAt (path a) = s.tableAt (path a))
    (hm : ∀ t, s.tableAt (path a) = some t → s'.mem t (ptIndex a) = s.mem t (ptIndex a)) :
    s'.leaf a = s.leaf a := by
  cases ht : s.tableAt (path a) with
  | none => rw [leaf_of_none ht, leaf_of_none (hw.trans ht)]
  | some t => rw [leaf_of_table ht, leaf_of_table (hw.trans ht), hm t ht]

theorem isTable_of_path (h : s.tableAt (path a) = some t) : s.IsTable t :=
  ⟨path a, by simp [path], h⟩

theorem tableAt_setPte (h : s.Tree) (ht : s.tableAt (path a) = some t) (w : Word) :
    ∀ q, q.length ≤ 3 → (s.store t (ptIndex a) w).tableAt q = s.tableAt q :=
  walk_update_leaf h rfl ht

theorem leaf_setPte (h : s.Tree) (ht : s.tableAt (path a) = some t) (w : Word) (b : Nat) :
    (s.store t (ptIndex a) w).leaf b =
      if path b = path a ∧ ptIndex b = ptIndex a then w else s.leaf b := by
  have hwalk := tableAt_setPte h ht w (path b) (by simp [path])
  by_cases hb : path b = path a ∧ ptIndex b = ptIndex a
  · rw [if_pos hb, leaf_of_table (hwalk.trans (hb.1 ▸ ht)), hb.2]
    simp
  rw [if_neg hb]
  refine leaf_congr hwalk fun u hu => ?_
  by_cases hut : u = t
  · subst hut
    have hpath : path b = path a := h _ _ u (by simp [path]) (by simp [path]) hu ht
    have hne : ptIndex b ≠ ptIndex a := fun hi => hb ⟨hpath, hi⟩
    simp [hne]
  · simp [hut]

theorem Wf.setPte (h : Wf s) (ht : s.tableAt (path a) = some t) (w : Word) :
    Wf (s.store t (ptIndex a) w) where
  tree := h.tree.congr (tableAt_setPte h.tree ht w)
  used u hu := h.used u ((isTable_congr (tableAt_setPte h.tree ht w) u).mp hu)

theorem tableAt_setPage (hp : ¬s.IsTable page) :
    ∀ q, q.length ≤ 3 → (s.setPage page words).tableAt q = s.tableAt q :=
  walk_update_page hp

theorem isTable_setPage (hp : ¬s.IsTable page) (u : Nat) :
    (s.setPage page words).IsTable u ↔ s.IsTable u :=
  isTable_congr (tableAt_setPage hp) u

theorem leaf_setPage (hp : ¬s.IsTable page) (b : Nat) :
    (s.setPage page words).leaf b = s.leaf b := by
  refine leaf_congr (tableAt_setPage hp _ (by simp [path])) fun t ht => ?_
  rw [Memory.setPage_mem, update_of_ne]
  rintro rfl
  exact hp (isTable_of_path ht)

theorem Wf.setPage (h : Wf s) (hp : ¬s.IsTable page) :
    Wf (s.setPage page words) where
  tree := h.tree.congr (tableAt_setPage hp)
  used u hu := h.used u ((isTable_setPage hp u).mp hu)

@[simp] theorem leaf_setCount (n : Nat) (c : UInt16) (b : Nat) :
    (s.setCount n c).leaf b = s.leaf b := rfl

theorem Wf.setCount {c : UInt16} (h : Wf s)
    (hn : ∀ t, s.IsTable t → lowMem ≤ t → mapNr t = n → c ≠ 0) : Wf (s.setCount n c) where
  tree := h.tree
  used u hu := by
    rcases h.used u hu with hlow | ⟨hhigh, hne⟩
    · exact .inl hlow
    · by_cases hlow : u < lowMem
      · exact .inl hlow
      · refine .inr ⟨hhigh, ?_⟩
        by_cases hun : mapNr u = n
        · simpa [hun] using hn u hu (Nat.not_lt.mp hlow) hun
        · simpa [hun] using hne

theorem findFree_spec {memMap : Nat → UInt16} (h : findFree memMap n = some k) :
    k < n ∧ memMap k = 0 := by
  induction n with
  | zero => cases h
  | succ n ih =>
    unfold findFree at h
    split at h
    · rename_i h0
      obtain rfl : n = k := Option.some.inj h
      exact ⟨Nat.lt_succ_self n, h0⟩
    · have hk := ih h
      exact ⟨Nat.lt_succ_of_lt hk.1, hk.2⟩

theorem getFreePage_spec (h : getFreePage s = some (page, s')) :
    ∃ k < pagingPages, s.memMap k = 0 ∧ page = lowMem + k * 4096 ∧
      s' = (s.setCount k 1).setPage page fun _ => 0 := by
  obtain ⟨k, hk, heq⟩ := Option.map_eq_some_iff.mp h
  cases heq
  exact ⟨k, (findFree_spec hk).1, (findFree_spec hk).2, rfl, rfl⟩

theorem mapNr_page (k : Nat) : mapNr (lowMem + k * 4096) = k := by
  unfold mapNr
  omega

theorem page_mapNr (hlow : lowMem ≤ t) (hmod : t % 4096 = 0) : lowMem + mapNr t * 4096 = t := by
  unfold mapNr lowMem at *
  omega

theorem page_lt (hk : k < pagingPages) : lowMem + k * 4096 < highMemory := by
  unfold pagingPages lowMem highMemory at *
  omega

theorem Wf.not_isTable_free (h : Wf s) (hk : s.memMap k = 0) :
    ¬s.IsTable (lowMem + k * 4096) := by
  intro ht
  rcases h.used _ ht with hlow | ⟨-, hne⟩
  · omega
  · exact hne (by rw [mapNr_page, hk])

theorem Wf.alloc (h : Wf s) (hs : getFreePage s = some (page, s')) :
    Wf s' ∧ ¬s.IsTable page ∧ (∀ q, q.length ≤ 3 → s'.tableAt q = s.tableAt q) ∧
      ∀ b, s'.leaf b = s.leaf b := by
  obtain ⟨k, hk, hfree, rfl, rfl⟩ := getFreePage_spec hs
  have hnt : ¬(s.setCount k 1).IsTable (lowMem + k * 4096) := h.not_isTable_free hfree
  have hwf : Wf (s.setCount k 1) := h.setCount fun _ _ _ _ => by decide
  exact ⟨hwf.setPage hnt, hnt, tableAt_setPage hnt, leaf_setPage hnt⟩

theorem nextTable_find : nextTable s t i false = (child (s.mem t i), s) := by
  rw [nextTable, child]
  split <;> rfl

theorem getPt_find (s : Memory) (a : Nat) : getPt s a false = (s.tableAt (path a), s) := by
  rw [getPt, getPd, getPdpt, nextTable_find]
  simp only [Memory.tableAt, path, walk_cons, walk_nil, Option.bind_some]
  cases h1 : child (s.mem pml4Addr (pml4Index a)) with
  | none => rfl
  | some pdpt =>
    simp only [nextTable_find, Option.bind_some]
    cases h2 : child (s.mem pdpt (pdptIndex a)) with
    | none => rfl
    | some pd => rfl

theorem getPte_find (s : Memory) (a : Nat) :
    getPte s a false = ((s.tableAt (path a)).map fun t => (t, ptIndex a), s) := by
  rw [getPte, getPt_find]
  cases s.tableAt (path a) <;> rfl

/-- `s'` has the tables of `s` and new ones, which were free pages and map nothing. -/
structure Extends (s s' : Memory) : Prop where
  leaf : ∀ b, s'.leaf b = s.leaf b
  isTable : ∀ t, s.IsTable t → s'.IsTable t
  fresh : ∀ t, s'.IsTable t → ¬s.IsTable t →
    ∃ k < pagingPages, t = lowMem + k * 4096 ∧ s.memMap k = 0 ∧ s'.memMap k = 1
  count : ∀ k, (s'.IsTable (lowMem + k * 4096) → s.IsTable (lowMem + k * 4096)) →
    s'.memMap k = s.memMap k
  mem : ∀ u, ¬s'.IsTable u → s'.mem u = s.mem u
  path : ∀ q u, q.length ≤ 3 → s.tableAt q = some u → s'.tableAt q = some u

theorem Extends.refl (s : Memory) : Extends s s :=
  ⟨fun _ => rfl, fun _ h => h, fun _ h hn => absurd h hn, fun _ _ => rfl, fun _ _ => rfl,
    fun _ _ _ h => h⟩

theorem Extends.trans (h : Extends s s') (h' : Extends s' s'') : Extends s s'' where
  leaf b := (h'.leaf b).trans (h.leaf b)
  isTable t ht := h'.isTable t (h.isTable t ht)
  fresh t ht hnt := by
    by_cases ht' : s'.IsTable t
    · obtain ⟨k, hk, rfl, h0, h1⟩ := h.fresh t ht' hnt
      exact ⟨k, hk, rfl, h0, (h'.count k fun _ => ht').trans h1⟩
    · obtain ⟨k, hk, rfl, h0, h1⟩ := h'.fresh t ht ht'
      exact ⟨k, hk, rfl, (h.count k fun hs => absurd hs ht').symm.trans h0, h1⟩
  count k hk := by
    by_cases ht' : s'.IsTable (lowMem + k * 4096)
    · exact (h'.count k fun _ => ht').trans (h.count k fun _ => hk (h'.isTable _ ht'))
    · refine (h'.count k fun ht => ?_).trans (h.count k fun ht => absurd ht ht')
      exact h.isTable _ (hk ht)
  mem u hu := (h'.mem u hu).trans (h.mem u fun ht => hu (h'.isTable u ht))
  path q u hq hu := h'.path q u hq (h.path q u hq hu)

theorem tableAt_cons (ht : s.tableAt q = some t) : s.tableAt (i :: q) = child (s.mem t i) := by
  rw [Memory.tableAt, walk_cons, show walk child s.mem pml4Addr q = some t from ht,
    Option.bind_some]

theorem links_newTable (h : Wf s) (hq : q.length < 3) (ht : s.tableAt q = some t)
    (habs : ¬present (s.mem t i) = true) (hs : getFreePage s = some (page, s')) :
    Links child s'.mem (s'.store t i (entry page)).mem pml4Addr 3 q t i page := by
  obtain ⟨hwf, hnt, hwalk, -⟩ := h.alloc hs
  obtain ⟨k, hk, -, rfl, rfl⟩ := getFreePage_spec hs
  have hpage := page_lt hk
  have htp : t ≠ lowMem + k * 4096 := fun heq => hnt ⟨q, Nat.le_of_lt hq, heq ▸ ht⟩
  have hentry : child (entry (lowMem + k * 4096)) = some (lowMem + k * 4096) :=
    child_entry (by unfold lowMem; omega) (by unfold lowMem; omega)
      (by unfold highMemory at hpage; omega)
  refine ⟨hwf.tree, hq, (hwalk q (Nat.le_of_lt hq)).trans ht, ?_, ?_, ?_, fun j => ?_,
    fun u j hu hj => ?_⟩
  · simp [htp, child, habs]
  · exact fun hp => hnt ((isTable_congr hwalk _).mp hp)
  · simpa using hentry
  · simp [htp.symm, child]
  · by_cases hut : u = t
    · have hji : j ≠ i := hj.resolve_left (fun hne => hne hut)
      simp [hut, hji]
    · simp [hut]

theorem leaf_newTable (h : Wf s) (hl : Links child s.mem (s.store t i w).mem pml4Addr 3 q t i page)
    (hzero : ∀ j, s.mem page j = 0) (b : Nat) : (s.store t i w).leaf b = s.leaf b := by
  have hwalk := hl.walk_eq (path b) (by simp [path])
  by_cases hb : path b = i :: q
  · rw [if_pos hb] at hwalk
    have hnone : s.tableAt (path b) = none := by
      rw [hb, tableAt_cons hl.parent, hl.absent]
    rw [leaf_of_none hnone, leaf_of_table hwalk]
    simp [hl.parent_ne.symm, hzero]
  · rw [if_neg hb] at hwalk
    refine leaf_congr hwalk fun u hu => ?_
    have hut : u ≠ t := by
      rintro rfl
      have hlen := h.tree _ _ u (by simp [path]) (Nat.le_of_lt hl.depth) hu hl.parent
      have hdepth := hl.depth
      rw [← hlen] at hdepth
      simp [path] at hdepth
    simp [hut]

theorem link_table (h : Wf s) (hq : q.length < 3) (ht : s.tableAt q = some t)
    (habs : ¬present (s.mem t i) = true) (hs : getFreePage s = some (page, s')) :
    Wf (s'.store t i (entry page)) ∧ Extends s (s'.store t i (entry page)) ∧
      (s'.store t i (entry page)).tableAt (i :: q) = some page := by
  have hl := links_newTable h hq ht habs hs
  obtain ⟨hwf, hnt, hwalk, hleaf⟩ := h.alloc hs
  obtain ⟨k, hk, hfree, rfl, hs'⟩ := getFreePage_spec hs
  have hzero : ∀ j, s'.mem (lowMem + k * 4096) j = 0 := by simp [hs']
  have htable : ∀ u, (s'.store t i (entry (lowMem + k * 4096))).IsTable u ↔
      u = lowMem + k * 4096 ∨ s.IsTable u := fun u =>
    (hl.isTable_iff u).trans (or_congr_right (isTable_congr hwalk u))
  refine ⟨⟨hl.isTree, fun u hu => ?_⟩, ⟨fun b => ?_, fun u hu => (htable u).mpr (.inr hu),
    fun u hu hnu => ?_, fun j hj => ?_, fun u hu => ?_, fun p u hp hpu => ?_⟩, ?_⟩
  · rcases (htable u).mp hu with rfl | hu
    · exact .inr ⟨page_lt hk, by simp [hs', mapNr_page]⟩
    · exact hwf.used u ((isTable_congr hwalk u).mpr hu)
  · rw [leaf_newTable hwf hl hzero, hleaf]
  · rcases (htable u).mp hu with rfl | hu
    · exact ⟨k, hk, rfl, hfree, by simp [hs']⟩
    · exact absurd hu hnu
  · have hjk : j ≠ k := by
      rintro rfl
      exact hnt (hj ((htable _).mpr (.inl rfl)))
    simp [hs', hjk]
  · rw [htable, not_or] at hu
    have hut : u ≠ t := by
      rintro rfl
      exact hu.2 ⟨q, Nat.le_of_lt hq, ht⟩
    simp [hs', hut, hu.1]
  · rw [← hwalk p hp] at hpu
    refine (hl.walk_eq p hp).trans ((if_neg ?_).trans hpu)
    rintro rfl
    rw [tableAt_cons hl.parent, hl.absent] at hpu
    cases hpu
  · refine (hl.walk_eq (i :: q) hq).trans ?_
    rw [if_pos rfl]

theorem nextTable_create (h : Wf s) (hq : q.length < 3)
    (ht : s.tableAt q = some t) (hn : nextTable s t i true = (r, s')) :
    Wf s' ∧ Extends s s' ∧ ∀ u, r = some u → s'.tableAt (i :: q) = some u := by
  unfold nextTable at hn
  simp only [Bool.not_true, Bool.false_eq_true, if_false] at hn
  split at hn
  · rename_i hp
    cases hn
    refine ⟨h, .refl s, fun u hu => ?_⟩
    rw [tableAt_cons ht, child, if_pos hp, hu]
  rename_i hp
  split at hn
  · cases hn
    exact ⟨h, .refl s, nofun⟩
  · rename_i hfree
    cases hn
    obtain ⟨hwf, hext, hwalk⟩ := link_table h hq ht hp hfree
    refine ⟨hwf, hext, fun u hu => ?_⟩
    rw [hwalk, hu]

theorem getPt_create (h : Wf s) (hn : getPt s a true = (r, s')) :
    Wf s' ∧ Extends s s' ∧ ∀ t, r = some t → s'.tableAt (path a) = some t := by
  unfold getPt getPd getPdpt at hn
  cases h1 : nextTable s pml4Addr (pml4Index a) true with
  | mk r1 s1 =>
    obtain ⟨hwf1, hext1, hw1⟩ := nextTable_create (q := []) h (by simp) rfl h1
    simp only [h1] at hn
    cases r1 with
    | none =>
      cases hn
      exact ⟨hwf1, hext1, nofun⟩
    | some pdpt =>
      cases h2 : nextTable s1 pdpt (pdptIndex a) true with
      | mk r2 s2 =>
        obtain ⟨hwf2, hext2, hw2⟩ := nextTable_create hwf1 (by simp) (hw1 pdpt rfl) h2
        simp only [h2] at hn
        cases r2 with
        | none =>
          cases hn
          exact ⟨hwf2, hext1.trans hext2, nofun⟩
        | some pd =>
          obtain ⟨hwf3, hext3, hw3⟩ := nextTable_create hwf2 (by simp) (hw2 pd rfl) hn
          exact ⟨hwf3, (hext1.trans hext2).trans hext3, hw3⟩

theorem getPte_create {r : Option (Nat × Fin 512)} (h : Wf s) (hn : getPte s a true = (r, s')) :
    Wf s' ∧ Extends s s' ∧
      ∀ t j, r = some (t, j) → s'.tableAt (path a) = some t ∧ j = ptIndex a := by
  unfold getPte at hn
  cases h1 : getPt s a true with
  | mk r1 s1 =>
    obtain ⟨hwf, hext, hw⟩ := getPt_create h h1
    simp only [h1] at hn
    cases r1 with
    | none =>
      cases hn
      exact ⟨hwf, hext, nofun⟩
    | some pt =>
      cases hn
      refine ⟨hwf, hext, fun t j htj => ?_⟩
      obtain ⟨rfl, rfl⟩ := Prod.mk.inj (Option.some.inj htj)
      exact ⟨hw pt rfl, rfl⟩

theorem freePte_absent (h : present (s.leaf a) = false) : freePte s a = .ok s := by
  unfold freePte
  rw [getPte_find]
  cases ht : s.tableAt (path a) with
  | none => rfl
  | some t =>
    rw [leaf_of_table ht] at h
    simp only [Option.map_some, h, Bool.not_false, if_true]

theorem freePte_present (ht : s.tableAt (path a) = some t) (h : present (s.leaf a) = true) :
    freePte s a =
      (if lowMem ≤ pteAddr (s.leaf a) then freePage s (pteAddr (s.leaf a)) else .ok s).map
      fun u => u.store t (ptIndex a) 0 := by
  rw [leaf_of_table ht] at h ⊢
  simp only [freePte, getPte_find, ht, Option.map_some, h, Bool.not_true, Bool.false_eq_true,
    if_false]

theorem copyPte_absent (h : present (s.leaf a) = false) : copyPte s a b = (true, s) := by
  unfold copyPte
  rw [getPte_find]
  cases ht : s.tableAt (path a) with
  | none => rfl
  | some t =>
    rw [leaf_of_table ht] at h
    simp only [Option.map_some, h, Bool.not_false, if_true]

/-- `copy_page_tables` makes the tables or fails, and then stores the entry twice. -/
theorem copyPte_present (h : Wf s) (hpres : present (s.leaf a) = true) :
    ∃ r u, getPte s b true = (r, u) ∧ Wf u ∧ Extends s u ∧
      ((r = none ∧ copyPte s a b = (false, u)) ∨
        ∃ ft tt, u.tableAt (path a) = some ft ∧ u.tableAt (path b) = some tt ∧
          r = some (tt, ptIndex b) ∧ copyPte s a b = (true,
            if lowMem ≤ pteAddr (s.leaf a) then
              ((u.store tt (ptIndex b) (s.leaf a &&& ~~~pageWrite)).store ft (ptIndex a)
                (s.leaf a &&& ~~~pageWrite)).setCount (mapNr (pteAddr (s.leaf a)))
                (u.memMap (mapNr (pteAddr (s.leaf a))) + 1)
            else u.store tt (ptIndex b) (s.leaf a &&& ~~~pageWrite))) := by
  obtain ⟨ft, hft⟩ := table_of_present hpres
  cases hg : getPte s b true with
  | mk r u =>
    obtain ⟨hwf, hext, hr⟩ := getPte_create h hg
    refine ⟨r, u, rfl, hwf, hext, ?_⟩
    have hpres' := hpres
    rw [leaf_of_table hft] at hpres'
    unfold copyPte
    simp only [getPte_find, hft, Option.map_some, hpres', Bool.not_true, Bool.false_eq_true,
      if_false, hg]
    cases r with
    | none => exact .inl ⟨rfl, rfl⟩
    | some x =>
      obtain ⟨tt, j⟩ := x
      obtain ⟨htt, rfl⟩ := hr tt j rfl
      have hft' := hext.path _ _ (by simp [path]) hft
      have hsame : u.mem ft (ptIndex a) = s.leaf a := by rw [← leaf_of_table hft', hext.leaf]
      refine .inr ⟨ft, tt, hft', htt, rfl, ?_⟩
      simp only [hsame, pteAddr_clear]
      split <;> rfl

end

end Linux001.Mm
