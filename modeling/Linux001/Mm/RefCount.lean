import Linux001.Mm.PageTables
import Linux001.ProofKit.Ledger
import Linux001.ProofKit.Runs

/-! The counts of `mem_map`.  The user slots 1 to 63 of 64MB, the tables and the pages that were
obtained from `get_free_page` form a ledger, and every function of `mm/memory.c` keeps it valid. -/

namespace Linux001.Mm

open Function ProofKit

def slotPages : Nat := 0x4000

def nrTasks : Nat := 64

def userPages : Finset Nat := Finset.Ico slotPages (nrTasks * slotPages)

def slotBase (nr : Nat) : Nat := nr * 0x4000000

/-- What an entry says: its frame in `mem_map` and whether it is writable. -/
def mapping (e : Word) : Nat × Bool := (mapNr (pteAddr e), writable e)

def ledger (s : Memory) (got : List Nat) : Ledger Nat Nat where
  refs k := (s.memMap k).toNat
  maps p := if p ∈ userPages then (s.lookup (4096 * p)).map mapping else none
  table k := s.IsTable (lowMem + k * 4096)
  held k := lowMem + k * 4096 ∈ got

def colour (p : Nat) : Nat := p % slotPages

/-- The tables are a tree, and entries are 0 or map paging memory. -/
structure Tidy (s : Memory) : Prop where
  wf : Wf s
  range : ∀ p ∈ userPages, ∀ e, s.lookup (4096 * p) = some e →
    lowMem ≤ pteAddr e ∧ pteAddr e < highMemory
  absent : ∀ p ∈ userPages, s.lookup (4096 * p) = none → s.leaf (4096 * p) = 0

/-- The state of memory; `got` are the pages that callers have. -/
structure Inv (s : Memory) (got : List Nat) : Prop extends Tidy s where
  taken : ∀ page ∈ got, ∃ k < pagingPages, page = lowMem + k * 4096
  valid : (ledger s got).Valid userPages colour

section Pages

variable {s s' : Memory} {got got' : List Nat} {p q t page a : Nat} {e w : Word}
  {words : Fin 512 → Word} {k u : Nat} {c : UInt16}

theorem mem_userPages : p ∈ userPages ↔ 0x4000 ≤ p ∧ p < 0x100000 := by
  rw [userPages, Finset.mem_Ico, slotPages, nrTasks]

theorem fin_ofNat_eq_iff (m n : Nat) : Fin.ofNat 512 m = Fin.ofNat 512 n ↔ m % 512 = n % 512 := by
  rw [Fin.ext_iff, Fin.val_ofNat, Fin.val_ofNat]

theorem path_page (a : Nat) : path a = path (4096 * (a / 4096)) ∧
    ptIndex a = ptIndex (4096 * (a / 4096)) := by
  simp only [path, pml4Index, pdptIndex, pdIndex, ptIndex, List.cons.injEq, fin_ofNat_eq_iff,
    and_true]
  omega

theorem leaf_page (s : Memory) (a : Nat) : s.leaf a = s.leaf (4096 * (a / 4096)) := by
  rw [Memory.leaf, Memory.leaf, ← (path_page a).1, ← (path_page a).2]

theorem samePage_iff (hp : p ∈ userPages) (hq : q ∈ userPages) :
    (path (4096 * q) = path (4096 * p) ∧ ptIndex (4096 * q) = ptIndex (4096 * p)) ↔ q = p := by
  rw [mem_userPages] at hp hq
  simp only [path, pml4Index, pdptIndex, pdIndex, ptIndex, List.cons.injEq, fin_ofNat_eq_iff,
    and_true]
  omega

theorem leaf_store (h : Wf s) (hp : p ∈ userPages) (ht : s.tableAt (path (4096 * p)) = some t)
    (hq : q ∈ userPages) :
    (s.store t (ptIndex (4096 * p)) w).leaf (4096 * q) = if q = p then w
    else s.leaf (4096 * q) := by
  rw [leaf_setPte h.tree ht w]
  by_cases hqp : q = p
  · rw [if_pos hqp, if_pos ((samePage_iff hp hq).mpr hqp)]
  · rw [if_neg hqp, if_neg (mt (samePage_iff hp hq).mp hqp)]

theorem lookup_store (h : Wf s) (hp : p ∈ userPages)
    (ht : s.tableAt (path (4096 * p)) = some t) (hq : q ∈ userPages) :
    (s.store t (ptIndex (4096 * p)) w).lookup (4096 * q) =
      if q = p then (if present w then some w else none) else s.lookup (4096 * q) := by
  rw [Memory.lookup, leaf_store h hp ht hq]
  by_cases hqp : q = p
  · rw [if_pos hqp, if_pos hqp]
  · rw [if_neg hqp, if_neg hqp, Memory.lookup]

theorem card_colour_le (c : Nat) : (userPages.filter fun q => colour q = c).card ≤ 64 := by
  have himage : Set.MapsTo (fun q => q / slotPages)
      (userPages.filter fun q => colour q = c : Finset Nat) (Finset.range 64 : Finset Nat) := by
    intro q hq
    rw [Finset.mem_coe, Finset.mem_filter, mem_userPages] at hq
    rw [Finset.mem_coe, Finset.mem_range]
    show q / 0x4000 < 64
    omega
  have hinj : Set.InjOn (fun q => q / slotPages)
      (userPages.filter fun q => colour q = c : Finset Nat) := by
    intro q hq r hr heq
    rw [Finset.mem_coe, Finset.mem_filter] at hq hr
    simp only [colour, slotPages] at hq hr heq
    omega
  simpa using Finset.card_le_card_of_injOn _ himage hinj

theorem ledger_maps (hp : p ∈ userPages) :
    (ledger s got).maps p = (s.lookup (4096 * p)).map mapping := if_pos hp

theorem maps_of_lookup (hp : p ∈ userPages) (hl : s.lookup (4096 * p) = some e) :
    (ledger s got).maps p = some (mapping e) := by
  rw [ledger_maps hp, hl, Option.map_some]

theorem frame_of_lookup (hp : p ∈ userPages) (hl : s.lookup (4096 * p) = some e) :
    (ledger s got).frame p = some (mapNr (pteAddr e)) :=
  Ledger.frame_of_maps (maps_of_lookup hp hl)

theorem ledger_setPte (h : Wf s) (hp : p ∈ userPages)
    (ht : s.tableAt (path (4096 * p)) = some t) (w : Word) (got' : List Nat) :
    (ledger (s.store t (ptIndex (4096 * p)) w) got).maps =
      update (ledger s got').maps p (if present w then some (mapping w) else none) := by
  funext q
  by_cases hq : q ∈ userPages
  · rw [ledger_maps hq, lookup_store h hp ht hq]
    by_cases hqp : q = p
    · rw [if_pos hqp, hqp, update_self]
      split <;> rfl
    · rw [if_neg hqp, update_of_ne hqp, ledger_maps hq]
  · have hqp : q ≠ p := fun heq => hq (heq ▸ hp)
    rw [update_of_ne hqp]
    simp only [ledger, if_neg hq]

theorem ledger_setPte_table (h : Wf s) (ht : s.tableAt (path a) = some t) (w : Word) :
    (ledger (s.store t (ptIndex a) w) got).table = (ledger s got).table :=
  funext fun _ => propext (isTable_congr (tableAt_setPte h.tree ht w) _)

theorem Tidy.congr (h : Tidy s) (hwf : Wf s') (hleaf : ∀ b, s'.leaf b = s.leaf b) : Tidy s' where
  wf := hwf
  range p hp e he := h.range p hp e ((lookup_congr (hleaf _)).symm.trans he)
  absent p hp he := (hleaf _).trans (h.absent p hp ((lookup_congr (hleaf _)).symm.trans he))

theorem ledger_maps_congr (hleaf : ∀ b, s'.leaf b = s.leaf b) :
    (ledger s' got').maps = (ledger s got).maps := by
  funext p
  simp only [ledger, lookup_congr (hleaf _)]

theorem Inv.alloc (h : Inv s got) (hs : getFreePage s = some (page, s')) :
    Inv s' (page :: got) ∧ page ∉ got := by
  obtain ⟨hwf, -, hwalk, hleaf⟩ := h.wf.alloc hs
  obtain ⟨k, hk, hfree, rfl, rfl⟩ := getFreePage_spec hs
  have hzero : (ledger s got).refs k = 0 := by simp [ledger, hfree]
  refine ⟨⟨h.toTidy.congr hwf hleaf, ?_, ?_⟩,
    fun hmem => (h.valid.not_reserved_of_zero hzero).2 hmem⟩
  · rintro page (_ | ⟨_, hmem⟩)
    · exact ⟨k, hk, rfl⟩
    · exact h.taken page hmem
  refine h.valid.take hzero (ledger_maps_congr hleaf) ?_ ?_ fun g hg => ?_
  · funext j
    by_cases hjk : j = k <;> simp [ledger, hjk]
  · exact funext fun j => propext (isTable_congr hwalk _)
  · rcases List.mem_cons.mp hg with heq | hmem
    · exact .inl (by omega)
    · exact .inr hmem

theorem Inv.forget (h : Inv s got) (hsub : ∀ page ∈ got', page ∈ got) : Inv s got' :=
  ⟨h.toTidy, fun page hp => h.taken page (hsub page hp),
    h.valid.forget rfl rfl rfl fun _ hk => hsub _ hk⟩

theorem Inv.extends (h : Inv s got) (hwf : Wf s') (hext : Extends s s') : Inv s' got := by
  refine ⟨h.toTidy.congr hwf hext.leaf, h.taken,
    h.valid.grow (ledger_maps_congr hext.leaf) rfl ?_ ?_⟩
  · intro k hk hnk
    obtain ⟨j, -, heq, h0, h1⟩ := hext.fresh _ hk hnk
    obtain rfl : k = j := by omega
    exact ⟨by simp [ledger, h0], by simp [ledger, h1]⟩
  · intro k hk
    simp only [ledger]
    rw [hext.count k hk]

theorem Inv.setPage (h : Inv s got) (hp : ¬s.IsTable page) :
    Inv (s.setPage page words) got := by
  refine ⟨h.toTidy.congr (h.wf.setPage hp) (leaf_setPage hp), h.taken,
    h.valid.grow (ledger_maps_congr (leaf_setPage hp)) rfl (fun k hk hnk => ?_) fun _ _ => rfl⟩
  exact absurd ((isTable_setPage hp _).mp hk) hnk

theorem Tidy.setPte (h : Tidy s) (hp : p ∈ userPages) (ht : s.tableAt (path (4096 * p)) = some t)
    (hrange : present w = true → lowMem ≤ pteAddr w ∧ pteAddr w < highMemory)
    (habs : present w = false → w = 0) : Tidy (s.store t (ptIndex (4096 * p)) w) where
  wf := h.wf.setPte ht w
  range q hq e he := by
    obtain ⟨hleaf, hpres⟩ := lookup_eq_some_iff.mp he
    rw [leaf_store h.wf hp ht hq] at hleaf
    by_cases hqp : q = p
    · rw [if_pos hqp] at hleaf
      exact hleaf ▸ hrange (hleaf.symm ▸ hpres)
    · rw [if_neg hqp] at hleaf
      exact h.range q hq e (lookup_eq_some_iff.mpr ⟨hleaf, hpres⟩)
  absent q hq he := by
    rw [lookup_eq_none_iff] at he
    rw [leaf_store h.wf hp ht hq] at he ⊢
    by_cases hqp : q = p
    · rw [if_pos hqp] at he ⊢
      exact habs he
    · rw [if_neg hqp] at he ⊢
      exact h.absent q hq (lookup_eq_none_iff.mpr he)

theorem pteAddr_entry_page (hk : k < pagingPages) :
    pteAddr (entry (lowMem + k * 4096)) = lowMem + k * 4096 := by
  have hlt := page_lt hk
  exact pteAddr_entry (by unfold lowMem; omega) (by unfold highMemory at hlt; omega)

theorem Inv.install (h : Inv s got) (hp : p ∈ userPages)
    (ht : s.tableAt (path (4096 * p)) = some t) (hnone : s.lookup (4096 * p) = none)
    (hpage : page ∈ got) (hgot : ∀ g ∈ got', g ∈ got ∧ g ≠ page) :
    Inv (s.store t (ptIndex (4096 * p)) (entry page)) got' := by
  obtain ⟨k, hk, rfl⟩ := h.taken page hpage
  have haddr := pteAddr_entry_page hk
  refine ⟨h.toTidy.setPte hp ht (fun _ => ?_) (fun hw => by simp at hw),
    fun g hg => h.taken g (hgot g hg).1, ?_⟩
  · rw [haddr]
    exact ⟨Nat.le_add_right _ _, page_lt hk⟩
  · refine h.valid.install hp (by rw [ledger_maps hp, hnone, Option.map_none]) hpage ?_ rfl
      (ledger_setPte_table h.wf ht _) fun g hg => ⟨(hgot _ hg).1, ?_⟩
    · rw [ledger_setPte h.wf hp ht _ got, if_pos (present_entry _), mapping, haddr, mapNr_page,
        writable_entry]
    · rintro rfl
      exact (hgot _ hg).2 rfl

section Mapped

variable (h : Inv s got) (hp : p ∈ userPages) (hl : s.lookup (4096 * p) = some e)
include h hp hl

theorem Inv.not_isTable : ¬s.IsTable (pteAddr e) := by
  have hnt := (h.valid.not_reserved hp (frame_of_lookup hp hl)).1
  simp only [ledger] at hnt
  rwa [page_mapNr (h.range p hp e hl).1 (pteAddr_mod _)] at hnt

theorem Inv.wf_setCount (c : UInt16) : Wf (s.setCount (mapNr (pteAddr e)) c) := by
  refine h.wf.setCount fun t ht hlow heq => absurd ht ?_
  have hrange := h.range p hp e hl
  rw [← page_mapNr hlow (isTable_mod ht), heq, page_mapNr hrange.1 (pteAddr_mod _)]
  exact h.not_isTable hp hl

theorem Inv.count_ne_zero : s.memMap (mapNr (pteAddr e)) ≠ 0 := by
  have hpos := h.valid.refs_pos hp (frame_of_lookup hp hl)
  intro hzero
  simp [ledger, hzero] at hpos

theorem Inv.count_le : (s.memMap (mapNr (pteAddr e))).toNat ≤ 64 :=
  h.valid.refs_le card_colour_le hp (frame_of_lookup hp hl)

theorem Inv.permit (ht : s.tableAt (path (4096 * p)) = some t)
    (hone : s.memMap (mapNr (pteAddr e)) = 1) :
    Inv (s.store t (ptIndex (4096 * p)) (e ||| pageWrite)) got := by
  have hpres := (lookup_eq_some_iff.mp hl).2
  refine ⟨h.toTidy.setPte hp ht (fun _ => by simpa using h.range p hp e hl)
    (fun hw => by simp [hpres] at hw), h.taken, ?_⟩
  refine h.valid.permit hp (maps_of_lookup hp hl) (by simp [ledger, hone]) ?_ rfl
    (ledger_setPte_table h.wf ht _) rfl
  rw [ledger_setPte h.wf hp ht _ got, if_pos (by simpa using hpres), mapping, pteAddr_set,
    writable_set]

end Mapped

theorem toNat_pred (hc : c ≠ 0) : (c - 1).toNat = c.toNat - 1 := by
  have hne : c.toNat ≠ 0 := fun h => hc (UInt16.toNat_inj.mp h)
  rw [UInt16.toNat_sub_of_le]
  · rfl
  · exact Nat.one_le_iff_ne_zero.mpr hne

theorem toNat_succ (hc : c.toNat ≤ 64) : (c + 1).toNat = c.toNat + 1 := by
  rw [UInt16.toNat_add, UInt16.toNat_one]
  omega

theorem ledger_refs_update (hmap : s'.memMap = update s.memMap k c)
    (got' : List Nat) : (ledger s' got).refs = update (ledger s got').refs k c.toNat := by
  funext j
  by_cases hjk : j = k <;> simp [ledger, hmap, hjk]

theorem Inv.drop (h : Inv s got) (hp : p ∈ userPages) (hl : s.lookup (4096 * p) = some e)
    (ht : s.tableAt (path (4096 * p)) = some t) :
    Inv ((s.setCount (mapNr (pteAddr e)) (s.memMap (mapNr (pteAddr e)) - 1)).store t
      (ptIndex (4096 * p)) 0) got := by
  have hwf := h.wf_setCount hp hl (s.memMap (mapNr (pteAddr e)) - 1)
  refine ⟨(h.toTidy.congr hwf fun _ => rfl).setPte hp ht nofun fun _ => rfl, h.taken, ?_⟩
  refine h.valid.drop hp (maps_of_lookup hp hl) ?_ ?_ (ledger_setPte_table hwf ht _) rfl
  · exact ledger_setPte hwf hp ht 0 got
  · rw [ledger_refs_update (s := s) rfl got, toNat_pred (h.count_ne_zero hp hl)]
    rfl

theorem ledger_share (got : List Nat) (h : Wf s) (hp : p ∈ userPages) (hq : q ∈ userPages)
    (hpq : p ≠ q) (hpres : present e = true) (ht : s.tableAt (path (4096 * p)) = some t)
    (hu : s.tableAt (path (4096 * q)) = some u) :
    (ledger ((s.store u (ptIndex (4096 * q)) (e &&& ~~~pageWrite)).store t (ptIndex (4096 * p))
        (e &&& ~~~pageWrite)) got).maps =
      update (update (ledger s got).maps p (some (mapNr (pteAddr e), false))) q
        (some (mapNr (pteAddr e), false)) ∧
    (ledger ((s.store u (ptIndex (4096 * q)) (e &&& ~~~pageWrite)).store t (ptIndex (4096 * p))
        (e &&& ~~~pageWrite)) got).table = (ledger s got).table := by
  have hmap : (if present (e &&& ~~~pageWrite) then some (mapping (e &&& ~~~pageWrite)) else none) =
      some (mapNr (pteAddr e), false) := by
    rw [if_pos (by simpa using hpres), mapping, pteAddr_clear, writable_clear]
  have hwf1 := h.setPte hu (e &&& ~~~pageWrite)
  have ht1 := (tableAt_setPte h.tree hu (e &&& ~~~pageWrite) (path (4096 * p))
    (by simp [path])).trans ht
  refine ⟨(ledger_setPte hwf1 hp ht1 _ got).trans ?_,
    (ledger_setPte_table hwf1 ht1 _).trans (ledger_setPte_table h hu _)⟩
  rw [ledger_setPte h hq hu _ got, hmap]
  exact update_comm hpq.symm _ _ _

theorem Inv.share (h : Inv s got) (hp : p ∈ userPages) (hq : q ∈ userPages)
    (hl : s.lookup (4096 * p) = some e) (hnone : s.lookup (4096 * q) = none)
    (ht : s.tableAt (path (4096 * p)) = some t) (hu : s.tableAt (path (4096 * q)) = some u)
    (hcol : colour q = colour p) :
    Inv (((s.store u (ptIndex (4096 * q)) (e &&& ~~~pageWrite)).store t (ptIndex (4096 * p))
      (e &&& ~~~pageWrite)).setCount (mapNr (pteAddr e)) (s.memMap (mapNr (pteAddr e)) + 1))
        got := by
  have hpres := (lookup_eq_some_iff.mp hl).2
  have hrange : present (e &&& ~~~pageWrite) = true →
      lowMem ≤ pteAddr (e &&& ~~~pageWrite) ∧ pteAddr (e &&& ~~~pageWrite) < highMemory :=
    fun _ => by simpa using h.range p hp e hl
  have habs : present (e &&& ~~~pageWrite) = false → e &&& ~~~pageWrite = 0 :=
    fun hw => by simp [hpres] at hw
  have hpq : p ≠ q := by
    rintro rfl
    rw [hnone] at hl
    cases hl
  have htidy : Tidy (s.setCount (mapNr (pteAddr e)) (s.memMap (mapNr (pteAddr e)) + 1)) :=
    h.toTidy.congr (h.wf_setCount hp hl _) fun _ => rfl
  have htidy1 := htidy.setPte hq hu hrange habs
  have ht1 := (tableAt_setPte htidy.wf.tree hu (e &&& ~~~pageWrite) (path (4096 * p))
    (by simp [path])).trans ht
  refine ⟨htidy1.setPte hp ht1 hrange habs, h.taken, ?_⟩
  obtain ⟨hmaps, htable⟩ := ledger_share got h.wf hp hq hpq hpres ht hu
  have hprot : Ledger.Valid userPages colour { ledger s got with
      maps := update (ledger s got).maps p (some (mapNr (pteAddr e), false)) } :=
    h.valid.protect (maps_of_lookup hp hl) rfl rfl rfl rfl
  refine hprot.join hp hq (update_self _ _ _) ?_ hcol hmaps ?_ htable rfl
  · simp [hpq.symm, ledger_maps hq, hnone]
  · rw [ledger_refs_update (s := s) rfl got, toNat_succ (h.count_le hp hl)]
    rfl

def Memory.view (s : Memory) (p : Nat) : Option (Word × (Fin 512 → Word)) :=
  (s.lookup (4096 * p)).map fun e => (e, s.mem (pteAddr e))

theorem view_eq_some_iff {c : Fin 512 → Word} :
    s.view p = some (e, c) ↔ s.lookup (4096 * p) = some e ∧ s.mem (pteAddr e) = c := by
  rw [Memory.view, Option.map_eq_some_iff]
  constructor
  · rintro ⟨e', he, heq⟩
    cases heq
    exact ⟨he, rfl⟩
  · rintro ⟨he, rfl⟩
    exact ⟨e, he, rfl⟩

theorem view_eq_none_iff : s.view p = none ↔ s.lookup (4096 * p) = none := Option.map_eq_none_iff

theorem view_congr (hlookup : s'.lookup (4096 * p) = s.lookup (4096 * p))
    (hmem : ∀ e, s.lookup (4096 * p) = some e → s'.mem (pteAddr e) = s.mem (pteAddr e)) :
    s'.view p = s.view p := by
  rw [Memory.view, Memory.view, hlookup]
  cases hl : s.lookup (4096 * p) with
  | none => rfl
  | some e => rw [Option.map_some, Option.map_some, hmem e hl]

theorem Inv.frame_ne_page (h : Inv s got) (hs : getFreePage s = some (page, s'))
    (hp : p ∈ userPages) (hl : s.lookup (4096 * p) = some e) : pteAddr e ≠ page := by
  obtain ⟨k, -, hfree, rfl, -⟩ := getFreePage_spec hs
  intro heq
  refine h.count_ne_zero hp hl ?_
  rw [heq, mapNr_page, hfree]

theorem Inv.view_getFreePage (h : Inv s got) (hs : getFreePage s = some (page, s')) :
    Set.EqOn s'.view s.view userPages := by
  intro p hp
  have hleaf := (h.wf.alloc hs).2.2.2
  refine view_congr (lookup_congr (hleaf _)) fun e he => ?_
  have hne := h.frame_ne_page hs hp he
  obtain ⟨k, -, -, rfl, rfl⟩ := getFreePage_spec hs
  simp [hne]

theorem Inv.view_extends (h : Inv s got) (hwf : Wf s') (hext : Extends s s') :
    Set.EqOn s'.view s.view userPages := by
  intro p hp
  have hlookup := lookup_congr (hext.leaf (4096 * p))
  refine view_congr hlookup fun e he => hext.mem _ ?_
  exact (h.extends hwf hext).not_isTable hp (hlookup.trans he)

def Apart (s : Memory) : Prop :=
  ∀ p ∈ userPages, ∀ e, s.lookup (4096 * p) = some e → ¬s.IsTable (pteAddr e)

theorem Inv.apart (h : Inv s got) : Apart s := fun _ hp _ he => h.not_isTable hp he

theorem view_setPte (hwf : Wf s) (hapart : Apart s) (hp : p ∈ userPages)
    (ht : s.tableAt (path (4096 * p)) = some t) (hw : present w = true → ¬s.IsTable (pteAddr w)) :
    Set.EqOn (s.store t (ptIndex (4096 * p)) w).view
      (update s.view p (if present w then some (w, s.mem (pteAddr w)) else none)) userPages := by
  intro q hq
  have hlookup := lookup_store (w := w) hwf hp ht hq
  have htable : s.IsTable t := isTable_of_path ht
  by_cases hqp : q = p
  · subst hqp
    rw [if_pos rfl] at hlookup
    rw [update_self, Memory.view, hlookup]
    cases hpres : present w with
    | false => rfl
    | true =>
      have hne : pteAddr w ≠ t := fun heq => hw hpres (heq ▸ htable)
      simp [hne]
  · rw [if_neg hqp] at hlookup
    rw [update_of_ne hqp]
    refine view_congr hlookup fun e he => ?_
    have hne : pteAddr e ≠ t := fun heq => hapart q hq e he (heq ▸ htable)
    simp [hne]

theorem Apart.setPte (hwf : Wf s) (hapart : Apart s) (hp : p ∈ userPages)
    (ht : s.tableAt (path (4096 * p)) = some t)
    (hw : present w = true → ¬s.IsTable (pteAddr w)) :
    Apart (s.store t (ptIndex (4096 * p)) w) := by
  intro q hq e he
  rw [Memory.IsTable, isTable_congr (tableAt_setPte hwf.tree ht w)]
  obtain ⟨hleaf, hpres⟩ := lookup_eq_some_iff.mp he
  rw [leaf_store hwf hp ht hq] at hleaf
  by_cases hqp : q = p
  · rw [if_pos hqp] at hleaf
    exact hleaf ▸ hw (hleaf.symm ▸ hpres)
  · rw [if_neg hqp] at hleaf
    exact hapart q hq e (lookup_eq_some_iff.mpr ⟨hleaf, hpres⟩)

theorem view_setPage (hp : ¬s.IsTable page)
    (hne : ∀ e, s.lookup (4096 * p) = some e → pteAddr e ≠ page) :
    (s.setPage page words).view p = s.view p := by
  refine view_congr (lookup_congr (leaf_setPage hp _)) fun e he => ?_
  simp [hne e he]

end Pages

end Linux001.Mm
