import Linux001.Mm.PageFault

/-! Frames that are in use for nothing. Only `do_no_page` loses a frame: it forgets the page that it
took when there is no page left for the tables. -/

namespace Linux001.Mm

open Function ProofKit

variable {s s' s1 : Memory} {got got' : List Nat} {p q t page a : Nat} {e w : Word} {k : Nat}

/-- The invariant, and every frame with a count is a table, taken, or mapped. -/
structure Tight (s : Memory) (got : List Nat) : Prop extends Inv s got where
  complete : (ledger s got).Complete userPages (· < pagingPages)

section
variable (h : Tight s got)
include h

theorem Tight.alloc (hs : getFreePage s = some (page, s')) :
    Tight s' (page :: got) ∧ page ∉ got := by
  obtain ⟨hinv, hnew⟩ := h.toInv.alloc hs
  obtain ⟨-, -, hwalk, hleaf⟩ := h.wf.alloc hs
  obtain ⟨k, hk, hfree, rfl, rfl⟩ := getFreePage_spec hs
  refine ⟨⟨hinv, h.complete.take (f := k) (ledger_maps_congr hleaf) ?_ ?_ List.mem_cons_self
    fun g hg => List.mem_cons_of_mem _ hg⟩, hnew⟩
  · funext j
    by_cases hjk : j = k <;> simp [ledger, hjk]
  · exact funext fun j => propext (isTable_congr hwalk _)

theorem Tight.extends (hwf : Wf s') (hext : Extends s s') : Tight s' got where
  toInv := h.toInv.extends hwf hext
  complete := h.complete.grow (ledger_maps_congr hext.leaf) rfl (fun _ hk => hext.isTable _ hk)
    fun k hk => congrArg UInt16.toNat (hext.count k hk)

theorem Tight.setPage {words : Fin 512 → Word} (hp : ¬s.IsTable page) :
    Tight (s.setPage page words) got where
  toInv := h.toInv.setPage hp
  complete := h.complete.grow (ledger_maps_congr (leaf_setPage hp)) rfl
    (fun _ hk => (isTable_setPage hp _).mpr hk) fun _ _ => rfl

theorem Tight.install (hp : p ∈ userPages)
    (ht : s.tableAt (path (4096 * p)) = some t) (hnone : s.lookup (4096 * p) = none)
    (hpage : page ∈ got) (hgot : ∀ g, g ∈ got' ↔ g ∈ got ∧ g ≠ page) :
    Tight (s.store t (ptIndex (4096 * p)) (entry page)) got' := by
  refine ⟨h.toInv.install hp ht hnone hpage fun g hg => (hgot g).mp hg, ?_⟩
  obtain ⟨k, hk, rfl⟩ := h.taken page hpage
  refine h.complete.install (f := k) hp (by rw [ledger_maps hp, hnone, Option.map_none]) ?_ rfl
    (ledger_setPte_table h.wf ht _) fun g hg hheld => (hgot _).mpr ⟨hheld, by omega⟩
  rw [ledger_setPte h.wf hp ht _ got, if_pos (present_entry _), mapping, pteAddr_entry_page hk,
    mapNr_page, writable_entry]

theorem Tight.permit (hp : p ∈ userPages) (hl : s.lookup (4096 * p) = some e)
    (ht : s.tableAt (path (4096 * p)) = some t) (hone : s.memMap (mapNr (pteAddr e)) = 1) :
    Tight (s.store t (ptIndex (4096 * p)) (e ||| pageWrite)) got := by
  have hpres := (lookup_eq_some_iff.mp hl).2
  have hmaps : (ledger (s.store t (ptIndex (4096 * p)) (e ||| pageWrite)) got).maps =
      update (ledger s got).maps p (some (mapNr (pteAddr e), true)) := by
    rw [ledger_setPte h.wf hp ht _ got, if_pos (by simpa using hpres), mapping, pteAddr_set,
      writable_set]
  exact ⟨h.toInv.permit hp hl ht hone, h.complete.congr
    (Ledger.frame_update_same (maps_of_lookup hp hl) hmaps) rfl (ledger_setPte_table h.wf ht _) rfl⟩

theorem Tight.drop (hp : p ∈ userPages) (hl : s.lookup (4096 * p) = some e)
    (ht : s.tableAt (path (4096 * p)) = some t) :
    Tight ((s.setCount (mapNr (pteAddr e)) (s.memMap (mapNr (pteAddr e)) - 1)).store t
      (ptIndex (4096 * p)) 0) got := by
  have hwf := h.wf_setCount hp hl (s.memMap (mapNr (pteAddr e)) - 1)
  refine ⟨h.toInv.drop hp hl ht, h.complete.drop h.valid hp (maps_of_lookup hp hl)
    (ledger_setPte hwf hp ht 0 got) ?_ (ledger_setPte_table hwf ht _) rfl⟩
  rw [ledger_refs_update (s := s) rfl got, toNat_pred (h.count_ne_zero hp hl)]
  rfl

theorem Tight.share {u : Nat} (hp : p ∈ userPages) (hq : q ∈ userPages)
    (hl : s.lookup (4096 * p) = some e) (hnone : s.lookup (4096 * q) = none)
    (ht : s.tableAt (path (4096 * p)) = some t) (hu : s.tableAt (path (4096 * q)) = some u)
    (hcol : colour q = colour p) :
    Tight (((s.store u (ptIndex (4096 * q)) (e &&& ~~~pageWrite)).store t (ptIndex (4096 * p))
      (e &&& ~~~pageWrite)).setCount (mapNr (pteAddr e)) (s.memMap (mapNr (pteAddr e)) + 1))
        got := by
  have hpres := (lookup_eq_some_iff.mp hl).2
  have hpq : p ≠ q := by
    rintro rfl
    rw [hnone] at hl
    cases hl
  obtain ⟨hmaps, htable⟩ := ledger_share got h.wf hp hq hpq hpres ht hu
  refine ⟨h.toInv.share hp hq hl hnone ht hu hcol, ?_⟩
  -- the parent gets read-only, and the child joins it
  have hprot : Ledger.Complete userPages (· < pagingPages) { ledger s got with
      maps := update (ledger s got).maps p (some (mapNr (pteAddr e), false)) } :=
    h.complete.congr (Ledger.frame_update_same (maps_of_lookup hp hl) rfl) rfl rfl rfl
  refine hprot.join hq ?_ hmaps ?_ htable rfl
  · simp [hpq.symm, ledger_maps hq, hnone]
  · rw [ledger_refs_update (s := s) rfl got, toNat_succ (h.count_le hp hl)]
    rfl

end

theorem freePage_held (h : Inv s got) (hk : k < pagingPages)
    (hheld : lowMem + k * 4096 ∈ got) : freePage s (lowMem + k * 4096) = .ok (s.setCount k 0) := by
  have hone : s.memMap k = 1 := UInt16.toNat_inj.mp (h.valid.reserved k (.inr hheld)).1
  have hlt := page_lt hk
  rw [freePage, if_neg (by omega), if_neg (by omega), mapNr_page, hone]
  rfl

theorem ledger_release (s : Memory) (k : Nat) (got got' : List Nat) :
    (ledger (s.setCount k 0) got').refs = update (ledger s got).refs k 0 := by
  funext j
  by_cases hjk : j = k <;> simp [ledger, hjk]

theorem Inv.release (h : Inv s got) (hpage : page ∈ got)
    (hgot : ∀ g, g ∈ got' ↔ g ∈ got ∧ g ≠ page) : ∃ s', freePage s page = .ok s' ∧ Inv s' got' := by
  obtain ⟨k, hk, rfl⟩ := h.taken page hpage
  have hwf : Wf (s.setCount k 0) := by
    refine h.wf.setCount fun t ht hlow heq => absurd ?_ (h.valid.disjoint k · hpage)
    rw [← page_mapNr hlow (isTable_mod ht), heq] at ht
    exact ht
  refine ⟨s.setCount k 0, freePage_held h hk hpage, h.toTidy.congr hwf fun _ => rfl,
    fun g hg => h.taken g ((hgot g).mp hg).1, ?_⟩
  refine h.valid.release hpage rfl (ledger_release s k got got') rfl fun g hg => ?_
  exact ⟨((hgot _).mp hg).1, fun heq => ((hgot _).mp hg).2 (by rw [heq])⟩

theorem Tight.release (h : Tight s got) (hpage : page ∈ got)
    (hgot : ∀ g, g ∈ got' ↔ g ∈ got ∧ g ≠ page) : ∃ s', freePage s page = .ok s' ∧
    Tight s' got' := by
  obtain ⟨s', hs, hinv⟩ := h.toInv.release hpage hgot
  obtain ⟨k, hk, rfl⟩ := h.taken page hpage
  cases (freePage_held h.toInv hk hpage).symm.trans hs
  refine ⟨_, hs, hinv, h.complete.release rfl (ledger_release s k got got') rfl fun g hne hg => ?_⟩
  exact (hgot _).mpr ⟨hg, by omega⟩

instance : Kept Tight where
  inv := Tight.toInv
  alloc h hs := (h.alloc hs).1
  grow := Tight.extends
  setPage h := h.setPage
  install := Tight.install
  permit := Tight.permit
  drop := Tight.drop
  share h := h.share

/-- `do_no_page` has pages for the address and its tables, or no page. -/
def Supplied (s : Memory) (a : Nat) : Prop :=
  freePages s = 0 ∨ ∃ n, missing s a = some n ∧ n + 1 ≤ freePages s

theorem Tight.doNoPage (h : Tight s got) (hp : a / 4096 ∈ userPages)
    (hnone : s.view (a / 4096) = none) (hsupplied : Supplied s a) :
    Tight (doNoPage s a).state got := by
  unfold Mm.doNoPage
  cases hg : getFreePage s with
  | none => exact h
  | some x =>
    obtain ⟨page, s1⟩ := x
    obtain ⟨h1, hnew⟩ := h.alloc hg
    have hview1 := h.toInv.view_getFreePage hg
    have hcount := freePages_getFreePage hg
    -- the tables can be made
    have hsome : (getPte s1 a true).1.isSome := by
      rw [getPte_isSome_iff h1.wf, missing_getFreePage h.wf hg]
      rcases hsupplied with hzero | ⟨n, hn, hle⟩
      · omega
      · exact ⟨n, hn, by omega⟩
    rcases putPage_spec h1 hp ((hview1 hp).trans hnone) List.mem_cons_self
      (fun g => mem_tail_iff hnew) with ⟨s2, hput, hfail, -⟩ | ⟨s2, hput, h2, -⟩
    · rw [hfail] at hsome
      cases hsome
    · dsimp only
      rw [hput]
      exact h2

inductive Call
  | mm (o : Op)
  | freePage (page : Nat)

def Call.Legal (s : State) : Call → Prop
  | .mm o => Mm.Legal s o
  | .freePage page => page ∈ s.got

/-- A page fault has a page and pages for its tables, or no page at all. -/
def Call.Supplied (s : State) : Call → Prop
  | .mm (.doNoPage a) => Mm.Supplied s.mm a
  | _ => True

def stepCall (s : State) : Call → Option State
  | .mm o => step s o
  | .freePage page => (freePage s.mm page).toOption.map fun m => ⟨m, s.got.filter (· ≠ page)⟩

section Run

variable {x y : State}

theorem step_tight {o : Op} (h : Tight x.mm x.got) (hlegal : Legal x o)
    (hsupplied : (Call.mm o).Supplied x) (hs : step x o = some y) : Tight y.mm y.got := by
  refine step_kept h hlegal ?_ hs
  rintro a rfl
  exact h.doNoPage hlegal.1 (view_none_of_lookup hlegal.2) hsupplied

theorem stepCall_tight {c : Call} (h : Tight x.mm x.got) (hlegal : c.Legal x)
    (hsupplied : c.Supplied x) (hs : stepCall x c = some y) : Tight y.mm y.got := by
  cases c with
  | mm o => exact step_tight h hlegal hsupplied hs
  | freePage page =>
    obtain ⟨m, hm, htight⟩ := h.release hlegal fun g => mem_filter_ne
    rw [stepCall, hm] at hs
    cases hs
    exact htight

end Run

/-- Every frame with a count is mapped, or a table, or a caller has it. -/
def NoLeak (x : State) : Prop :=
  ∀ k < pagingPages, x.mm.memMap k ≠ 0 →
    (∃ p ∈ userPages, Maps x.mm p (lowMem + k * 4096)) ∨ x.mm.IsTable (lowMem + k * 4096) ∨
      lowMem + k * 4096 ∈ x.got

theorem maps_page_iff (h : Inv s got) (hp : p ∈ userPages) :
    Maps s p (lowMem + k * 4096) ↔ (ledger s got).frame p = some k := by
  rw [maps_iff h hp (Nat.le_add_right _ _) (by unfold lowMem; omega), mapNr_page]

theorem Tight.noLeak {x : State} (h : Tight x.mm x.got) : NoLeak x := by
  intro k hk hne
  have hrefs : (ledger x.mm x.got).refs k ≠ 0 := fun hzero => hne (UInt16.toNat_inj.mp hzero)
  rcases h.complete k hk hrefs with htable | hheld | ⟨p, hp, hframe⟩
  · exact .inr (.inl htable)
  · exact .inr (.inr hheld)
  · exact .inl ⟨p, hp, (maps_page_iff h.toInv hp).mpr hframe⟩

theorem Booted.tight (h : Booted s) : Tight s [] := by
  refine ⟨h.inv, fun k hk hne => absurd ?_ hne⟩
  change (s.memMap k).toNat = 0
  rw [h.free k hk]
  rfl

/-- No frame is lost where every page fault finds all pages it needs, or none. -/
theorem noLeak_of_reaches {m : Memory} {x : State} (hm : Booted m)
    (h : Reaches stepCall (fun x c => c.Legal x ∧ c.Supplied x) ⟨m, []⟩ x) : NoLeak x := by
  have htight : Tight x.mm x.got :=
    h.invariant (P := fun x => Tight x.mm x.got)
      (fun _ _ _ hi hok hs => stepCall_tight hi hok.1 hok.2 hs) hm.tight
  exact htight.noLeak

theorem bootMemory_legal : Legal ⟨bootMemory, []⟩ (.doNoPage (slotBase 1)) :=
  ⟨mem_userPages.mpr (by decide), by decide +kernel⟩

/-- A page fault in slot 1, with all the pages free. -/
theorem noLeak_of_reaches_fault :
    ∃ x, Reaches stepCall (fun x c => c.Legal x ∧ c.Supplied x) ⟨bootMemory, []⟩ x ∧ NoLeak x := by
  have hsupplied : Supplied bootMemory (slotBase 1) :=
    .inr ⟨1, by decide +kernel, by rw [freePages_bootMemory]; decide⟩
  have hrun : Reaches stepCall (fun x c => c.Legal x ∧ c.Supplied x) ⟨bootMemory, []⟩
      ⟨(doNoPage bootMemory (slotBase 1)).state, []⟩ :=
    .single ⟨.mm (.doNoPage (slotBase 1)), ⟨bootMemory_legal, hsupplied⟩, rfl⟩
  exact ⟨_, hrun, noLeak_of_reaches bootMemory_booted hrun⟩

theorem doNoPage_leaks (h : Inv s got) (hsupplied : ¬Supplied s a) :
    ¬NoLeak ⟨(doNoPage s a).state, got⟩ := by
  rw [Supplied, not_or] at hsupplied
  cases hg : getFreePage s with
  | none => exact absurd (getFreePage_eq_none_iff.mp hg) hsupplied.1
  | some z =>
    obtain ⟨page, s1⟩ := z
    obtain ⟨h1, hnew⟩ := h.alloc hg
    have hcount := freePages_getFreePage hg
    cases hc : getPte s1 a true with
    | mk r s2 =>
      obtain ⟨hwf, hext, -⟩ := getPte_create h1.wf hc
      have hnone : r = none := by
        have := mt (getPte_isSome_iff (a := a) h1.wf).mp (by
          rw [missing_getFreePage h.wf hg]
          rintro ⟨n, hn, hle⟩
          exact hsupplied.2 ⟨n, hn, by omega⟩)
        rw [hc] at this
        exact Option.not_isSome_iff_eq_none.mp this
      subst hnone
      have hstate : (doNoPage s a).state = s2 := by
        rw [doNoPage, hg]
        dsimp only
        rw [putPage, hc]
        rfl
      -- the page is taken, and no caller has it
      have h2 := h1.extends hwf hext
      obtain ⟨k, hk, rfl⟩ := h2.taken page List.mem_cons_self
      obtain ⟨hone, hfree⟩ := h2.valid.reserved k (.inr List.mem_cons_self)
      have hcounted : s2.memMap k ≠ 0 := by
        intro hzero
        change (s2.memMap k).toNat = 1 at hone
        rw [hzero] at hone
        cases hone
      rw [hstate]
      intro hno
      rcases hno k hk hcounted with ⟨p, hp, hmaps⟩ | htable | hgot
      · exact hfree p hp ((maps_page_iff h2 hp).mp hmaps)
      · exact h2.valid.disjoint k htable List.mem_cons_self
      · exact hnew hgot

theorem reaches_taken {n : Nat} (hn : n ≤ pagingPages) :
    ∃ x, Reaches stepCall Call.Legal ⟨bootMemory, []⟩ x ∧ freePages x.mm + n = pagingPages ∧
      Inv x.mm x.got ∧ missing x.mm (slotBase 1) = some 1 ∧ x.mm.lookup (slotBase 1) = none := by
  induction n with
  | zero =>
    exact ⟨⟨bootMemory, []⟩, .refl, (Nat.add_zero _).trans freePages_bootMemory,
      bootMemory_booted.inv, by decide +kernel, by decide +kernel⟩
  | succ n ih =>
    obtain ⟨x, hx, hfree, hinv, hmissing, hnone⟩ := ih (by omega)
    cases hg : getFreePage x.mm with
    | none =>
      have := getFreePage_eq_none_iff.mp hg
      omega
    | some z =>
      obtain ⟨page, m⟩ := z
      have hcount := freePages_getFreePage hg
      refine ⟨⟨m, page :: x.got⟩, hx.tail ⟨.mm .getFreePage, trivial, ?_⟩, by dsimp only; omega,
        (hinv.alloc hg).1, (missing_getFreePage hinv.wf hg).trans hmissing,
        (lookup_congr ((hinv.wf.alloc hg).2.2.2 _)).trans hnone⟩
      rw [stepCall, step, hg, State.afterGet]

/-- With one free page, a fault takes it and finds none for the page table. -/
theorem fault_leaks_page : ∃ x y, Reaches stepCall Call.Legal ⟨bootMemory, []⟩ x ∧
    (Call.mm (.doNoPage (slotBase 1))).Legal x ∧
    stepCall x (.mm (.doNoPage (slotBase 1))) = some y ∧ ¬NoLeak y := by
  obtain ⟨x, hx, hfree, hinv, hmissing, hnone⟩ := reaches_taken (n := 1535) (by decide)
  have hone : freePages x.mm = 1 := by
    unfold pagingPages highMemory lowMem at hfree
    omega
  refine ⟨x, ⟨(doNoPage x.mm (slotBase 1)).state, x.got⟩, hx,
    ⟨mem_userPages.mpr (by decide), hnone⟩, rfl, doNoPage_leaks hinv ?_⟩
  rintro (hzero | ⟨n, hn, hle⟩)
  · omega
  · rw [hmissing] at hn
    cases hn
    omega

end Linux001.Mm
